import TccRiscv64.Gen.Jumps

set_option autoImplicit false

/-! # Chains of jumps over a run

`gjmp` and `gjmp_append` make chains of the jumps of a function, in any order and with other code in
between, and `gsym_addr` takes a chain apart. The compiler passes each chain on once: the number of
a chain is given up for the one that is made of it. -/

namespace TccRiscv64.Gen

open TccRiscv64.Isa TccRiscv64.Data

/-! ## The operations -/

/-- The section and the offset `ind` behind its code. -/
structure Text where
  data : Memory
  ind : Nat
  nocodeWanted : Bool

/-- Bytes that are put behind the code. No section is so large that an `int` does not hold its
offsets. -/
def Text.put (σ : Text) (n : Nat) (data : Memory) : Except String Text :=
  if σ.nocodeWanted then .ok σ
  else if 2 ^ 31 ≤ σ.ind + n then .error "memory full"
  else .ok { σ with data := data, ind := σ.ind + n }

/-- `o`. -/
def Text.o (σ : Text) (c : Word) : Except String Text := σ.put 4 (σ.data.store σ.ind 4 c)

/-- Code of other kinds. -/
def storeBytes (data : Memory) (p : Nat) : List (BitVec 8) → Memory
  | [] => data
  | b :: bytes => storeBytes (data.store p 1 b) (p + 1) bytes

def Text.g (σ : Text) (bytes : List (BitVec 8)) : Except String Text :=
  σ.put bytes.length (storeBytes σ.data σ.ind bytes)

/-- `gjmp`. -/
def Text.gjmp (σ : Text) (t : BitVec 32) : Except String (Text × BitVec 32) :=
  if σ.nocodeWanted then .ok (σ, t)
  else (σ.o t).map fun σ => (σ, BitVec.ofNat 32 (σ.ind - 4))

/-- The loop of `gjmp_append`, from the jump at `n1` to the last one of its chain. -/
def lastJump (data : Memory) : Nat → BitVec 32 → Option (BitVec 32)
  | 0, _ => none
  | fuel + 1, n1 =>
    let n2 : BitVec 32 := data.load n1.toNat 4
    if n2 ≠ 0#32 then lastJump data fuel n2 else some n1

/-- `gjmp_append`. -/
def gjmpAppend (fuel : Nat) (data : Memory) (n t : BitVec 32) : Option (Memory × BitVec 32) :=
  if n ≠ 0#32 then do
    let n1 ← lastJump data fuel n
    some (data.store n1.toNat 4 t, n)
  else some (data, t)

/-! ## Runs -/

/-- What the compiler does in a function. The numbers are those of chains it has, and there is an
empty chain for any other number. -/
inductive ChainOp
  | g (bytes : List (BitVec 8))
  | nocode (wanted : Bool)
  | gjmp (i : Nat)
  | gjmpAppend (i j : Nat)
  | gsymAddr (i : Nat) (a : BitVec 32)

/-- The section, the chains that the compiler has, and for the record the offsets of all jumps that
`gjmp` has emitted and of those that `gsym_addr` has gone through. -/
structure ChainState where
  text : Text
  held : List (BitVec 32)
  emitted : List (BitVec 32)
  patched : List (BitVec 32)

/-- The offsets that `gsym_addr` goes through. -/
def sitesOf (data : Memory) : Nat → BitVec 32 → List (BitVec 32)
  | 0, _ => []
  | fuel + 1, t => if t = 0#32 then [] else t :: sitesOf data fuel (data.load t.toNat 4)

def ChainState.step (fuel : Nat) (σ : ChainState) : ChainOp → Option (Except String ChainState)
  | .g bytes => some ((σ.text.g bytes).map fun text => { σ with text := text })
  | .nocode wanted => some (.ok { σ with text := { σ.text with nocodeWanted := wanted } })
  | .gjmp i =>
    some ((σ.text.gjmp (σ.held.getD i 0#32)).map fun r => {
      text := r.1
      held := r.2 :: σ.held.eraseIdx i
      emitted := if σ.text.nocodeWanted then σ.emitted else r.2 :: σ.emitted
      patched := σ.patched })
  | .gjmpAppend i j =>
    let rest := σ.held.eraseIdx i
    (gjmpAppend fuel σ.text.data (σ.held.getD i 0#32) (rest.getD j 0#32)).map fun r => .ok { σ with
      text := { σ.text with data := r.1 }
      held := r.2 :: rest.eraseIdx j }
  | .gsymAddr i a =>
    (gsymAddr fuel σ.text.data (σ.held.getD i 0#32) a).map fun r => r.map fun data => { σ with
      text := { σ.text with data := data }
      held := σ.held.eraseIdx i
      patched := σ.patched ++ sitesOf σ.text.data fuel (σ.held.getD i 0#32) }

def ChainState.run (fuel : Nat) (σ : ChainState) : List ChainOp → Option (Except String ChainState)
  | [] => some (.ok σ)
  | op :: ops =>
    match σ.step fuel op with
    | none => none
    | some (.error e) => some (.error e)
    | some (.ok σ) => σ.run fuel ops

/-- A function whose code starts at `ind`. -/
def ChainState.start (data : Memory) (ind : Nat) : ChainState := ⟨⟨data, ind, false⟩, [], [], []⟩

/-! ## Chains in memory -/

/-- The words at two offsets do not overlap. -/
def Apart (s s' : BitVec 32) : Prop := s.toNat + 4 ≤ s'.toNat ∨ s'.toNat + 4 ≤ s.toNat

theorem Apart.symm {s s' : BitVec 32} (h : Apart s s') : Apart s' s := Or.symm h

theorem chain_nil (data : Memory) : Chain data 0#32 [] := ⟨rfl, .nil⟩

theorem Chain.congr {data data' : Memory} {t : BitVec 32} {sites : List (BitVec 32)}
    (h : Chain data t sites) (hdata : ∀ s ∈ sites, data.AgreeOn data' s.toNat 4) :
    Chain data' t sites := by
  refine ⟨h.linked.congr fun k hk => ?_, h.apart⟩
  obtain ⟨s, hs, rfl⟩ := List.mem_map.1 hk
  rw [Memory.load_congr (hdata s hs)]

/-- The loop ends at the last jump of the chain. -/
theorem lastJump_eq {data : Memory} {t last : BitVec 32} {sites : List (BitVec 32)} {fuel : Nat}
    (h : Linked (fun k => (data.load k 4).toNat) t.toNat ((sites ++ [last]).map BitVec.toNat))
    (hfuel : sites.length < fuel) : lastJump data fuel t = some last := by
  obtain ⟨fuel, rfl⟩ := Nat.exists_eq_add_of_lt (Nat.zero_lt_of_lt hfuel)
  rw [Nat.zero_add] at hfuel ⊢
  induction sites generalizing t fuel with
  | nil =>
    obtain ⟨hhead, -, hend⟩ := h
    obtain rfl := BitVec.eq_of_toNat_eq hhead
    have hzero : data.load t.toNat 4 = 0#32 := BitVec.eq_of_toNat_eq hend
    rw [lastJump, hzero]
    rfl
  | cons s sites ih =>
    obtain ⟨hhead, -, hrest⟩ := h
    obtain rfl := BitVec.eq_of_toNat_eq hhead
    have hrest : Linked (fun k => (data.load k 4).toNat) (data.load t.toNat 4).toNat
        ((sites ++ [last]).map BitVec.toNat) := hrest
    have hne : (data.load t.toNat 4 : BitVec 32) ≠ 0#32 := by
      intro h0
      rw [h0] at hrest
      cases sites with
      | nil => exact hrest.2.1 hrest.1.symm
      | cons s sites => exact hrest.2.1 hrest.1.symm
    cases fuel with
    | zero => simp at hfuel
    | succ fuel =>
      rw [lastJump, if_pos hne]
      exact ih hrest fuel (by simpa using hfuel)

/-- `gjmp_append` makes one chain of two, and writes to no word but a jump of the first. -/
theorem gjmpAppend_eq {data : Memory} {n t : BitVec 32} {sites sites' : List (BitVec 32)}
    (h : Chain data n sites) (h' : Chain data t sites')
    (hapart : (sites ++ sites').Pairwise Apart) :
    ∃ data' t', (∀ fuel, sites.length ≤ fuel → gjmpAppend fuel data n t = some (data', t')) ∧
      Chain data' t' (sites ++ sites') ∧
      ∀ p k, (∀ s ∈ sites, p + k ≤ s.toNat ∨ s.toNat + 4 ≤ p) → data.AgreeOn data' p k := by
  rcases List.eq_nil_or_concat' sites with rfl | ⟨list, last, rfl⟩
  · obtain rfl : n = 0#32 := BitVec.eq_of_toNat_eq h.linked
    exact ⟨data, t, fun _ _ => rfl, h', fun _ _ _ _ _ _ => rfl⟩
  · have hne : n ≠ 0#32 := by
      rintro rfl
      have hlinked := h.linked
      cases list with
      | nil => exact hlinked.2.1 hlinked.1.symm
      | cons s list => exact hlinked.2.1 hlinked.1.symm
    have hpairs := hapart
    rw [List.append_assoc, List.pairwise_append] at hpairs
    obtain ⟨-, htail, hcross⟩ := hpairs
    have happend : list ++ [last] ++ sites' = list ++ last :: sites' := by simp
    refine ⟨data.store last.toNat 4 t, n, fun fuel hfuel => ?_, ⟨?_, hapart⟩, fun p k hp => ?_⟩
    · rw [gjmpAppend, if_pos hne, lastJump_eq h.linked (by simpa using hfuel)]
      rfl
    · rw [happend, List.map_append, List.map_cons]
      have hlinked := h.linked
      rw [List.map_append, List.map_singleton] at hlinked
      have hsecond : Linked (fun k => ((data.store last.toNat 4 t).load k 4).toNat) t.toNat
          (sites'.map BitVec.toNat) := by
        refine h'.linked.congr fun k hk => ?_
        obtain ⟨s, hs, rfl⟩ := List.mem_map.1 hk
        rw [Memory.load_store_of_disjoint _ _ _ _ ((List.pairwise_cons.1 htail).1 s hs).symm]
      refine hlinked.append hsecond (fun k hk => ?_) ?_
      · obtain ⟨s, hs, rfl⟩ := List.mem_map.1 hk
        rw [Memory.load_store_of_disjoint _ _ _ _ (hcross s hs last List.mem_cons_self)]
      · rw [Memory.load_store]
    · exact Memory.agreeOn_store data last.toNat 4 _ (hp last (by simp))

/-- The offsets that `gsym_addr` goes through are those of the chain. -/
theorem sitesOf_eq {data : Memory} {t : BitVec 32} {sites : List (BitVec 32)}
    (h : Linked (fun k => (data.load k 4).toNat) t.toNat (sites.map BitVec.toNat)) {fuel : Nat}
    (hfuel : sites.length ≤ fuel) : sitesOf data fuel t = sites := by
  induction sites generalizing t fuel with
  | nil =>
    obtain rfl : t = 0#32 := BitVec.eq_of_toNat_eq h
    cases fuel <;> rfl
  | cons s sites ih =>
    obtain ⟨hhead, hne, hrest⟩ := h
    obtain rfl := BitVec.eq_of_toNat_eq hhead
    have hne : t ≠ 0#32 := fun h0 => hne (by rw [h0]; rfl)
    cases fuel with
    | zero => simp at hfuel
    | succ fuel =>
      rw [sitesOf, if_neg hne, ih hrest (by simpa using hfuel)]

/-! ## The chains of a state -/

section Parts

variable {α β : Type} {R : α → β → Prop} {l : List α} {l' : List β}

theorem forall₂_getD (h : List.Forall₂ R l l') {a : α} {b : β} (hab : R a b) (i : Nat) :
    R (l.getD i a) (l'.getD i b) := by
  induction h generalizing i with
  | nil => simpa using hab
  | cons h _ ih =>
    cases i with
    | zero => simpa using h
    | succ i => simpa using ih i

theorem forall₂_eraseIdx (h : List.Forall₂ R l l') (i : Nat) :
    List.Forall₂ R (l.eraseIdx i) (l'.eraseIdx i) := by
  induction h generalizing i with
  | nil => exact .nil
  | cons h hrest ih =>
    cases i with
    | zero => exact hrest
    | succ i => exact .cons h (ih i)

/-- The part that is taken out and the others. -/
theorem flatten_perm_eraseIdx (parts : List (List α)) (i : Nat) :
    parts.flatten.Perm (parts.getD i [] ++ (parts.eraseIdx i).flatten) := by
  induction parts generalizing i with
  | nil => simp
  | cons part parts ih =>
    cases i with
    | zero => simp
    | succ i =>
      simp only [List.flatten_cons, List.getD_cons_succ, List.eraseIdx_cons_succ]
      refine ((ih i).append_left part).trans ?_
      rw [← List.append_assoc, ← List.append_assoc]
      exact List.perm_append_comm.append_right _

end Parts

/-- The chains with their jumps. Each jump that was emitted is in exactly one chain, or `gsym_addr`
has gone through it, and no two jumps overlap. -/
structure ChainState.Holds (σ : ChainState) (parts : List (List (BitVec 32))) : Prop where
  chains : List.Forall₂ (Chain σ.text.data) σ.held parts
  emitted : σ.emitted.Perm (σ.patched ++ parts.flatten)
  apart : σ.emitted.Pairwise Apart
  bounds : ∀ s ∈ σ.emitted, s.toNat + 4 ≤ σ.text.ind
  start : 0 < σ.text.ind

variable {σ : ChainState} {parts : List (List (BitVec 32))}

namespace ChainState.Holds

/-- All jumps that are left are apart from each other. -/
theorem apart_parts (h : σ.Holds parts) : parts.flatten.Pairwise Apart :=
  (List.pairwise_append.1 ((h.emitted.pairwise_iff Apart.symm).1 h.apart)).2.1

theorem mem_emitted (h : σ.Holds parts) {s : BitVec 32} (hs : s ∈ parts.flatten) :
    s ∈ σ.emitted :=
  h.emitted.mem_iff.2 (List.mem_append_right _ hs)

theorem length_le (h : σ.Holds parts) : parts.flatten.length ≤ σ.emitted.length := by
  rw [h.emitted.length_eq, List.length_append]
  exact Nat.le_add_left _ _

/-- Two chains that are taken out, and those that stay. -/
theorem taken (h : σ.Holds parts) (i : Nat) :
    Chain σ.text.data (σ.held.getD i 0#32) (parts.getD i []) ∧
      List.Forall₂ (Chain σ.text.data) (σ.held.eraseIdx i) (parts.eraseIdx i) ∧
        (parts.getD i [] ++ (parts.eraseIdx i).flatten).Pairwise Apart :=
  ⟨forall₂_getD h.chains (chain_nil _) i, forall₂_eraseIdx h.chains i,
    ((flatten_perm_eraseIdx parts i).pairwise_iff Apart.symm).1 h.apart_parts⟩

end ChainState.Holds

/-- Chains stay where no word of them is written. -/
theorem forall₂_chain_congr {data data' : Memory} {held : List (BitVec 32)}
    (h : List.Forall₂ (Chain data) held parts)
    (hdata : ∀ s ∈ parts.flatten, data.AgreeOn data' s.toNat 4) :
    List.Forall₂ (Chain data') held parts := by
  induction h with
  | nil => exact .nil
  | cons hchain _ ih =>
    rw [List.flatten_cons] at hdata
    exact .cons (hchain.congr fun s hs => hdata s (List.mem_append_left _ hs))
      (ih fun s hs => hdata s (List.mem_append_right _ hs))

/-! ## Steps -/

/-- Bytes behind the code write no word of a chain. -/
theorem put_ok {text text' : Text} {n : Nat} {data : Memory} (h : text.put n data = .ok text')
    (hdata : ∀ p k, p + k ≤ text.ind → text.data.AgreeOn data p k) :
    (∀ p k, p + k ≤ text.ind → text.data.AgreeOn text'.data p k) ∧ text.ind ≤ text'.ind := by
  rw [Text.put] at h
  split at h
  · cases h
    exact ⟨fun _ _ _ _ _ _ => rfl, le_rfl⟩
  · split at h
    · cases h
    · cases h
      exact ⟨hdata, Nat.le_add_right _ _⟩

theorem storeBytes_agreeOn (data : Memory) (q : Nat) (bytes : List (BitVec 8)) {p k : Nat}
    (h : p + k ≤ q) : data.AgreeOn (storeBytes data q bytes) p k := by
  induction bytes generalizing data q with
  | nil => exact fun _ _ _ => rfl
  | cons b bytes ih =>
    exact (Memory.agreeOn_store data q 1 b (.inl h)).trans (ih _ _ (by omega))

theorem ChainState.Holds.g (h : σ.Holds parts) {bytes : List (BitVec 8)} {text : Text}
    (hg : σ.text.g bytes = .ok text) : ChainState.Holds { σ with text := text } parts := by
  obtain ⟨hdata, hind⟩ := put_ok hg fun p k hp => storeBytes_agreeOn _ _ _ hp
  refine ⟨forall₂_chain_congr h.chains fun s hs => ?_, h.emitted, h.apart, fun s hs => ?_, ?_⟩
  · exact hdata _ _ (h.bounds s (h.mem_emitted hs))
  · exact (h.bounds s hs).trans hind
  · exact h.start.trans_le hind

/-- The jumps of the chain that is passed on stay in one chain. -/
theorem perm_passed (h : σ.Holds parts) (i : Nat) :
    σ.emitted.Perm (σ.patched ++ (parts.getD i [] :: parts.eraseIdx i).flatten) :=
  h.emitted.trans ((flatten_perm_eraseIdx parts i).append_left _)

theorem ChainState.Holds.gjmp (h : σ.Holds parts) (i : Nat) {r : Text × BitVec 32}
    (hg : σ.text.gjmp (σ.held.getD i 0#32) = .ok r) : ∃ parts', ChainState.Holds {
      text := r.1
      held := r.2 :: σ.held.eraseIdx i
      emitted := if σ.text.nocodeWanted then σ.emitted else r.2 :: σ.emitted
      patched := σ.patched } parts' := by
  obtain ⟨hchain, hothers, -⟩ := h.taken i
  rw [Text.gjmp] at hg
  split at hg
  · next hnocode =>
    cases hg
    refine ⟨parts.getD i [] :: parts.eraseIdx i, .cons hchain hothers, ?_, ?_, ?_, h.start⟩
    · rw [if_pos hnocode]
      exact perm_passed h i
    · rw [if_pos hnocode]
      exact h.apart
    · rw [if_pos hnocode]
      exact h.bounds
  · next hnocode =>
    rw [Text.o, Text.put, if_neg hnocode] at hg
    split at hg
    · cases hg
    · next hroom =>
      obtain rfl := Except.ok.inj hg
      have hsite : (BitVec.ofNat 32 (σ.text.ind + 4 - 4)).toNat = σ.text.ind := by
        rw [Nat.add_sub_cancel, BitVec.toNat_ofNat]
        omega
      dsimp only
      generalize BitVec.ofNat 32 (σ.text.ind + 4 - 4) = s at hsite
      have hpart : ∀ s' ∈ parts.flatten, σ.text.data.AgreeOn
          (σ.text.data.store σ.text.ind 4 (σ.held.getD i 0#32)) s'.toNat 4 := fun s' hs' =>
        Memory.agreeOn_store _ _ _ _ (.inl (h.bounds s' (h.mem_emitted hs')))
      have hperm := flatten_perm_eraseIdx parts i
      have hlinked := (hchain.congr fun s' hs' =>
        hpart s' (hperm.mem_iff.2 (List.mem_append_left _ hs'))).linked
      have hnext : (σ.text.data.store σ.text.ind 4 (σ.held.getD i 0#32)).load s.toNat 4 =
          σ.held.getD i 0#32 := by rw [hsite, Memory.load_store]
      generalize hdata : σ.text.data.store σ.text.ind 4 (σ.held.getD i 0#32) = data
        at hlinked hnext hpart ⊢
      rw [← hnext] at hlinked
      refine ⟨(s :: parts.getD i []) :: parts.eraseIdx i, .cons ⟨⟨rfl, ?_, ?_⟩, ?_⟩ ?_,
        ?_, ?_, ?_, ?_⟩
      · rw [hsite]
        exact h.start.ne'
      · exact hlinked
      · refine List.pairwise_cons.2 ⟨fun s' hs' => .inr ?_, hchain.apart⟩
        rw [hsite]
        exact h.bounds s' (h.mem_emitted (hperm.mem_iff.2 (List.mem_append_left _ hs')))
      · exact forall₂_chain_congr hothers fun s' hs' =>
          hpart s' (hperm.mem_iff.2 (List.mem_append_right _ hs'))
      · rw [if_neg hnocode, List.flatten_cons, List.cons_append]
        exact ((perm_passed h i).cons s).trans List.perm_middle.symm
      · rw [if_neg hnocode]
        refine List.pairwise_cons.2 ⟨fun s' hs' => .inr ?_, h.apart⟩
        rw [hsite]
        exact h.bounds s' hs'
      · rw [if_neg hnocode]
        refine List.forall_mem_cons.2 ⟨hsite.symm ▸ le_rfl, fun s' hs' => ?_⟩
        exact (h.bounds s' hs').trans (Nat.le_add_right _ _)
      · exact h.start.trans_le (Nat.le_add_right _ _)

theorem ChainState.Holds.length_getD (h : σ.Holds parts) (i : Nat) :
    (parts.getD i []).length ≤ σ.emitted.length := by
  have hlength := (flatten_perm_eraseIdx parts i).length_eq
  rw [List.length_append] at hlength
  have hle := h.length_le
  omega

theorem ChainState.Holds.gjmpAppend (h : σ.Holds parts) (i j : Nat) : ∃ data t,
    (∀ fuel, (parts.getD i []).length ≤ fuel → gjmpAppend fuel σ.text.data (σ.held.getD i 0#32)
      ((σ.held.eraseIdx i).getD j 0#32) = some (data, t)) ∧
    ChainState.Holds { σ with
      text := { σ.text with data := data }
      held := t :: (σ.held.eraseIdx i).eraseIdx j }
      ((parts.getD i [] ++ (parts.eraseIdx i).getD j []) :: (parts.eraseIdx i).eraseIdx j) := by
  obtain ⟨hchain, hothers, hapart⟩ := h.taken i
  have hchain' := forall₂_getD hothers (chain_nil σ.text.data) j
  have hothers' := forall₂_eraseIdx hothers j
  have hperm := flatten_perm_eraseIdx (parts.eraseIdx i) j
  have hall : (parts.getD i [] ++ ((parts.eraseIdx i).getD j [] ++
      ((parts.eraseIdx i).eraseIdx j).flatten)).Pairwise Apart :=
    ((hperm.append_left _).pairwise_iff Apart.symm).1 hapart
  rw [← List.append_assoc, List.pairwise_append] at hall
  obtain ⟨hboth, -, hcross⟩ := hall
  obtain ⟨data, t, heq, hnew, hdata⟩ := gjmpAppend_eq hchain hchain' hboth
  refine ⟨data, t, heq, .cons hnew (forall₂_chain_congr hothers' fun s hs => ?_), ?_, h.apart,
    h.bounds, h.start⟩
  · exact hdata _ _ fun s' hs' => (hcross s' (List.mem_append_left _ hs') s hs).symm
  · refine (perm_passed h i).trans (List.Perm.append_left _ ?_)
    rw [List.flatten_cons, List.flatten_cons, List.append_assoc]
    exact hperm.append_left _

theorem ChainState.Holds.gsymAddr (h : σ.Holds parts) (i : Nat) (a : BitVec 32) {fuel : Nat}
    (hfuel : σ.emitted.length ≤ fuel) :
    gsymAddr fuel σ.text.data (σ.held.getD i 0#32) a = some (.error "out-of-range branch chain") ∨
      ∃ data, gsymAddr fuel σ.text.data (σ.held.getD i 0#32) a = some (.ok data) ∧
        ChainState.Holds {
          text := { σ.text with data := data }
          held := σ.held.eraseIdx i
          emitted := σ.emitted
          patched := σ.patched ++ sitesOf σ.text.data fuel (σ.held.getD i 0#32) }
          (parts.eraseIdx i) := by
  obtain ⟨hchain, hothers, hapart⟩ := h.taken i
  have hlength : (parts.getD i []).length ≤ fuel := (h.length_getD i).trans hfuel
  have heq := gsymAddr_eq hchain a hlength
  split at heq
  · exact .inl heq
  · refine .inr ⟨_, heq, forall₂_chain_congr hothers fun s hs => ?_, ?_, h.apart, h.bounds, h.start⟩
    · exact patchSites_of_apart a _ _ fun s' hs' =>
        ((List.pairwise_append.1 hapart).2.2 s' hs' s hs).symm
    · rw [sitesOf_eq hchain.linked hlength, List.append_assoc]
      exact perm_passed h i

/-- One step keeps the chains, and none of its loops runs on. -/
theorem ChainState.Holds.step (h : σ.Holds parts) (op : ChainOp) {fuel : Nat}
    (hfuel : σ.emitted.length ≤ fuel) :
    ∃ res, σ.step fuel op = some res ∧ ∀ σ', res = .ok σ' →
      (∃ parts', σ'.Holds parts') ∧ σ'.emitted.length ≤ σ.emitted.length + 1 := by
  cases op with
  | g bytes =>
    refine ⟨_, rfl, fun σ' hσ' => ?_⟩
    cases hg : σ.text.g bytes with
    | error e =>
      rw [hg] at hσ'
      cases hσ'
    | ok text =>
      rw [hg] at hσ'
      cases hσ'
      exact ⟨⟨parts, h.g hg⟩, Nat.le_succ _⟩
  | nocode wanted =>
    refine ⟨_, rfl, fun σ' hσ' => ?_⟩
    cases hσ'
    exact ⟨⟨parts, h.chains, h.emitted, h.apart, h.bounds, h.start⟩, Nat.le_succ _⟩
  | gjmp i =>
    refine ⟨_, rfl, fun σ' hσ' => ?_⟩
    cases hg : σ.text.gjmp (σ.held.getD i 0#32) with
    | error e =>
      rw [hg] at hσ'
      cases hσ'
    | ok r =>
      rw [hg] at hσ'
      cases hσ'
      refine ⟨h.gjmp i hg, ?_⟩
      dsimp only
      split
      · exact Nat.le_succ _
      · exact le_rfl
  | gjmpAppend i j =>
    obtain ⟨data, t, heq, hholds⟩ := h.gjmpAppend i j
    refine ⟨_, by rw [ChainState.step, heq fuel ((h.length_getD i).trans hfuel)]; rfl,
      fun σ' hσ' => ?_⟩
    cases hσ'
    exact ⟨⟨_, hholds⟩, Nat.le_succ _⟩
  | gsymAddr i a =>
    rcases h.gsymAddr i a hfuel with heq | ⟨data, heq, hholds⟩
    · refine ⟨_, by rw [ChainState.step, heq]; rfl, fun σ' hσ' => ?_⟩
      cases hσ'
    · refine ⟨_, by rw [ChainState.step, heq]; rfl, fun σ' hσ' => ?_⟩
      cases hσ'
      exact ⟨⟨_, hholds⟩, Nat.le_succ _⟩

theorem ChainState.Holds.run (h : σ.Holds parts) {ops : List ChainOp} {fuel : Nat}
    (hfuel : σ.emitted.length + ops.length ≤ fuel) :
    ∃ res, σ.run fuel ops = some res ∧ ∀ σ', res = .ok σ' → ∃ parts', σ'.Holds parts' := by
  induction ops generalizing σ parts with
  | nil =>
    refine ⟨_, rfl, fun σ' hσ' => ?_⟩
    cases hσ'
    exact ⟨parts, h⟩
  | cons op ops ih =>
    rw [List.length_cons] at hfuel
    have hlength : σ.emitted.length ≤ fuel := by omega
    obtain ⟨res, hstep, hnext⟩ := h.step op hlength
    rw [ChainState.run, hstep]
    cases res with
    | error e =>
      refine ⟨_, rfl, fun σ' hσ' => ?_⟩
      cases hσ'
    | ok σ' =>
      obtain ⟨⟨parts', hparts'⟩, hlength⟩ := hnext σ' rfl
      exact ih hparts' (by omega)

/-- **Chains.** No run over the chains of a function gets stuck. In each state it reaches every jump
that was emitted is in exactly one chain or has been patched, and each chain ends at 0;
`gjmp_append` makes a chain of the jumps of both, and `gsym_addr` refuses a chain, or writes each
jump of it once and nothing else. -/
theorem chains_hold (data : Memory) {ind : Nat} (hind : 0 < ind) {ops : List ChainOp} {fuel : Nat}
    (hfuel : ops.length ≤ fuel) :
    ∃ res, (ChainState.start data ind).run fuel ops = some res ∧ ∀ σ, res = .ok σ →
      ∃ parts, σ.Holds parts ∧
        (∀ i j, ∃ data' t, (∀ m, (parts.getD i []).length ≤ m →
            gjmpAppend m σ.text.data (σ.held.getD i 0#32) ((σ.held.eraseIdx i).getD j 0#32) =
              some (data', t)) ∧
          Chain data' t (parts.getD i [] ++ (parts.eraseIdx i).getD j [])) ∧
        ∀ i a, (parts.getD i []).Nodup ∧
          ((∀ m, (parts.getD i []).length ≤ m → gsymAddr m σ.text.data (σ.held.getD i 0#32) a =
              some (.error "out-of-range branch chain")) ∨
            (∀ m, (parts.getD i []).length ≤ m → gsymAddr m σ.text.data (σ.held.getD i 0#32) a =
              some (.ok (patchSites a (parts.getD i []) σ.text.data))) ∧
            ∀ p k, (∀ s ∈ parts.getD i [], p + k ≤ s.toNat ∨ s.toNat + 4 ≤ p) →
              σ.text.data.AgreeOn (patchSites a (parts.getD i []) σ.text.data) p k) := by
  have hstart : (ChainState.start data ind).Holds [] :=
    ⟨.nil, .nil, .nil, by simp [ChainState.start], hind⟩
  have hlength : (ChainState.start data ind).emitted.length + ops.length ≤ fuel := by
    simpa [ChainState.start] using hfuel
  obtain ⟨res, hrun, hres⟩ := hstart.run hlength
  refine ⟨res, hrun, fun σ hσ => ?_⟩
  obtain ⟨parts, h⟩ := hres σ hσ
  refine ⟨parts, h, fun i j => ?_, fun i a => ⟨?_, ?_⟩⟩
  · obtain ⟨data', t, heq, hholds⟩ := h.gjmpAppend i j
    refine ⟨data', t, heq, ?_⟩
    cases hholds.chains with
    | cons hchain _ => exact hchain
  · refine (h.taken i).1.apart.imp fun hapart heq => ?_
    subst heq
    rcases hapart with h | h <;> omega
  · have heq (m : Nat) (hm : (parts.getD i []).length ≤ m) := gsymAddr_eq (h.taken i).1 a hm
    split at heq
    · exact .inl heq
    · exact .inr ⟨heq, fun p k hp => patchSites_of_apart a _ _ hp⟩

/-- Two chains of one jump each that are put together and patched. -/
def twoJumps : List ChainOp := [.gjmp 0, .gjmp 1, .gjmpAppend 0 0, .gsymAddr 0 40#32]

theorem chains_hold_twoJumps :
    ∃ res, (ChainState.start (fun _ => 0#8) 20).run 4 twoJumps = some res ∧
      ∀ σ, res = .ok σ → ∃ parts, σ.Holds parts := by
  have hfuel : twoJumps.length ≤ 4 := le_rfl
  obtain ⟨res, hrun, hres⟩ := chains_hold (fun _ => 0#8) (show 0 < 20 by decide) hfuel
  exact ⟨res, hrun, fun σ hσ => (hres σ hσ).imp fun parts h => h.1⟩

end TccRiscv64.Gen
