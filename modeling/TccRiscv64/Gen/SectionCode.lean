import TccRiscv64.Data.Backpatch
import TccRiscv64.Gen.JumpChains

set_option autoImplicit false

/-! # Code with jumps, in the section

The words that `gjmp`, `gjmp_append` and `gsym_addr` write are those of the code with jumps to be
patched: a link is the offset of the next jump, and a jump that was patched is the word of
`gsym_addr`. -/

namespace TccRiscv64.Gen.SectionCode

open TccRiscv64.Isa TccRiscv64.Data TccRiscv64.Data.Backpatch TccRiscv64.Data.Backpatch.Code

variable {ι : Type}

/-! ## Places and offsets -/

theorem ne_zero_of_linked {next : Nat → Nat} {t : Nat} {sites : List Nat}
    (h : Linked next t sites) : ∀ k ∈ sites, k ≠ 0 := by
  induction sites generalizing t with
  | nil => exact fun k hk => absurd hk List.not_mem_nil
  | cons k sites ih =>
    obtain ⟨-, hk, hrest⟩ := h
    exact List.forall_mem_cons.2 ⟨hk, ih hrest⟩

/-- Where places are in the section. The place 0 is none. -/
structure Offsets (off : Nat → Nat) : Prop where
  zero : off 0 = 0
  mono : StrictMono off

def offset (off : Nat → Nat) (p : Nat) : BitVec 32 := BitVec.ofNat 32 (off p)

/-- The word of a slot, for all slots but those of other code. -/
def slotWord (off : Nat → Nat) (p : Nat) : Slot ι → Option Word
  | .instr _ => none
  | .link next => some (offset off next)
  | .jump a => some (oJal (offset off a - offset off p))
  | .nop => some 0x33#32

theorem Offsets.offset_zero {off : Nat → Nat} (hoff : Offsets off) : offset off 0 = 0#32 := by
  rw [offset, hoff.zero]

/-- The section holds the code. -/
structure Represents (off : Nat → Nat) (data : Memory) (c : Code ι) : Prop where
  small : off c.ind < 2 ^ 31
  word : ∀ p, p ≠ 0 → p < c.ind → ∀ w, slotWord off p (c.slots p) = some w →
    data.load (off p) 4 = w ∧ off (p + 1) = off p + 4

section Represents

variable {off : Nat → Nat} {data : Memory} {c : Code ι} {chains : List (Nat × List Nat)}
  {t a : Nat} {sites : List Nat}

theorem Represents.toNat_offset (h : Represents off data c) (hoff : Offsets off) {p : Nat}
    (hp : p ≤ c.ind) : (offset off p).toNat = off p := by
  have hle := hoff.mono.monotone hp
  have hsmall := h.small
  rw [offset, BitVec.toNat_ofNat, Nat.mod_eq_of_lt]
  omega

/-- A word that is written for a slot is apart from those of the others. -/
theorem Represents.apart (h : Represents off data c) (hoff : Offsets off) {p q : Nat} {w w' : Word}
    (hp0 : p ≠ 0) (hp : p < c.ind) (hw : slotWord off p (c.slots p) = some w) (hq0 : q ≠ 0)
    (hq : q < c.ind) (hw' : slotWord off q (c.slots q) = some w') (hne : p ≠ q) :
    off p + 4 ≤ off q ∨ off q + 4 ≤ off p := by
  obtain hlt | hlt := Nat.lt_or_gt_of_ne hne
  · left
    rw [← (h.word p hp0 hp w hw).2]
    exact hoff.mono.monotone hlt
  · right
    rw [← (h.word q hq0 hq w' hw').2]
    exact hoff.mono.monotone hlt

theorem slotWord_link {p : Nat} (hlink : (c.slots p).isLink = true) :
    slotWord off p (c.slots p) = some (offset off (c.slots p).next) := by
  cases hslot : c.slots p with
  | link next => rfl
  | instr i =>
    rw [hslot] at hlink
    cases hlink
  | jump a =>
    rw [hslot] at hlink
    cases hlink
  | nop =>
    rw [hslot] at hlink
    cases hlink

/-- The word of a jump that was patched is the one of `gsym_addr`. -/
theorem Represents.slotWord_patched (h : Represents off data c) (hoff : Offsets off) {p : Nat}
    (hp : p < c.ind) (ha : a ≤ c.ind) (hsize : off (p + 1) = off p + 4) :
    slotWord off p (Slot.patched p a : Slot ι) =
      some (gsymWord (offset off a - offset off p)) := by
  have hpn := h.toNat_offset hoff hp.le
  have han := h.toNat_offset hoff ha
  have hiff : offset off a - offset off p = 4#32 ↔ a = p + 1 := by
    have hsmall := h.small
    have hle := hoff.mono.monotone ha
    have hle' := hoff.mono.monotone (Nat.succ_le_of_lt hp)
    rw [show p.succ = p + 1 from rfl, hsize] at hle'
    rw [← hoff.mono.injective.eq_iff, hsize, ← BitVec.toNat_inj, BitVec.toNat_sub, hpn, han]
    simp only [BitVec.toNat_ofNat]
    omega
  unfold Slot.patched gsymWord
  by_cases heq : a = p + 1
  · rw [if_pos heq, if_pos (hiff.2 heq)]
    rfl
  · rw [if_neg heq, if_neg fun h4 => heq (hiff.1 h4)]
    rfl

/-- A chain of the code is one of the section. -/
theorem Represents.chain (h : Represents off data c) (hoff : Offsets off)
    (hheld : Held c ((t, sites) :: chains)) :
    Chain data (offset off t) (sites.map (offset off)) := by
  have hlinked := hheld.linked _ List.mem_cons_self
  have hlink := hheld.isLink _ List.mem_cons_self
  have hbelow := hheld.below _ List.mem_cons_self
  have hnodup : sites.Nodup := by
    have hnodup := hheld.nodup
    rw [List.flatMap_cons] at hnodup
    exact hnodup.of_append_left
  dsimp only at hlinked hlink hbelow
  clear hheld
  have hne := ne_zero_of_linked hlinked
  constructor
  · clear hnodup
    induction sites generalizing t with
    | nil =>
      obtain rfl : t = 0 := hlinked
      show (offset off 0).toNat = 0
      rw [offset, hoff.zero]
      rfl
    | cons k sites ih =>
      obtain ⟨rfl, hk0, hrest⟩ := hlinked
      have hk := hbelow t List.mem_cons_self
      have hkn := h.toNat_offset hoff hk.le
      have hword := h.word t hk0 hk _ (slotWord_link (hlink t List.mem_cons_self))
      refine ⟨rfl, ?_, ?_⟩
      · show (offset off t).toNat ≠ 0
        rw [hkn]
        have hpos := hoff.mono (Nat.pos_of_ne_zero hk0)
        rw [hoff.zero] at hpos
        exact hpos.ne'
      · show Linked _ (data.load (offset off t).toNat 4).toNat _
        rw [hkn, hword.1]
        exact ih hrest (fun k hk => hlink k (List.mem_cons_of_mem _ hk))
          (fun k hk => hbelow k (List.mem_cons_of_mem _ hk))
          fun k hk => hne k (List.mem_cons_of_mem _ hk)
  · refine List.pairwise_map.2 (hnodup.imp_of_mem fun {k k'} hk hk' hkk => ?_)
    rw [h.toNat_offset hoff (hbelow k hk).le, h.toNat_offset hoff (hbelow k' hk').le]
    exact h.apart hoff (hne k hk) (hbelow k hk) (slotWord_link (hlink k hk)) (hne k' hk')
      (hbelow k' hk') (slotWord_link (hlink k' hk')) hkk

/-- Code that is emitted. -/
theorem Represents.emit {data' : Memory} {slot : Slot ι} (h : Represents off data c)
    (hoff : Offsets off) (hsmall : off (c.ind + 1) < 2 ^ 31)
    (hkeep : ∀ p k, p + k ≤ off c.ind → data.AgreeOn data' p k)
    (hslot : ∀ w, slotWord off c.ind slot = some w →
      data'.load (off c.ind) 4 = w ∧ off (c.ind + 1) = off c.ind + 4) :
    Represents off data' (c.emit slot) where
  small := hsmall
  word p hp0 hp w hw := by
    obtain hlt | rfl := Nat.lt_or_eq_of_le (Nat.le_of_lt_succ hp)
    · have hold : (c.emit slot).slots p = c.slots p := Function.update_of_ne hlt.ne _ _
      rw [hold] at hw
      obtain ⟨hload, hsize⟩ := h.word p hp0 hlt w hw
      refine ⟨?_, hsize⟩
      rw [← hload]
      refine Memory.load_congr (hkeep _ _ ?_)
      rw [← hsize]
      exact hoff.mono.monotone hlt
    · have hself : (c.emit slot).slots c.ind = slot := Function.update_self _ _ _
      rw [hself] at hw
      exact hslot w hw

/-- A chain that goes to a place. -/
theorem Represents.patch (h : Represents off data c) (hoff : Offsets off)
    (hheld : Held c ((t, sites) :: chains)) (ha : a ≤ c.ind) :
    Represents off (patchSites (offset off a) (sites.map (offset off)) data) (c.patch t a) where
  small := h.small
  word p hp0 hp w hw := by
    have hbelow := hheld.below _ List.mem_cons_self
    have hlink := hheld.isLink _ List.mem_cons_self
    have hne := ne_zero_of_linked (hheld.linked _ List.mem_cons_self)
    have hnodup := hheld.nodup
    rw [List.flatMap_cons] at hnodup
    obtain ⟨hin, hout⟩ := patchSlots_eq (a := a) (hheld.linked _ List.mem_cons_self)
      hnodup.of_append_left hheld.length_le
    have hpn := h.toNat_offset hoff (Nat.le_of_lt hp)
    by_cases hmem : p ∈ sites
    · have hsize := (h.word p hp0 hp _ (slotWord_link (hlink p hmem))).2
      have hslot : (c.patch t a).slots p = .patched p a := hin p hmem
      rw [hslot, h.slotWord_patched hoff hp ha hsize] at hw
      cases hw
      refine ⟨?_, hsize⟩
      have hload := load_patchSites (offset off a) data (h.chain hoff hheld).apart (offset off p)
        (List.mem_map_of_mem hmem)
      rwa [hpn] at hload
    · have hslot : (c.patch t a).slots p = c.slots p := hout p hmem
      rw [hslot] at hw
      obtain ⟨hload, hsize⟩ := h.word p hp0 hp w hw
      refine ⟨?_, hsize⟩
      rw [← hload]
      refine Memory.load_congr (patchSites_of_apart _ _ _ fun s hs => ?_)
      obtain ⟨k, hk, rfl⟩ := List.mem_map.1 hs
      rw [h.toNat_offset hoff (hbelow k hk).le]
      exact h.apart hoff hp0 hp hw (hne k hk) (hbelow k hk) (slotWord_link (hlink k hk))
        fun heq => hmem (heq ▸ hk)

/-- A chain in front of another. -/
theorem Represents.append {n : Nat} {sites' : List Nat} (h : Represents off data c)
    (hoff : Offsets off) (hheld : Held c ((n, sites) :: (t, sites') :: chains)) {fuel : Nat}
    (hfuel : c.ind ≤ fuel) :
    ∃ data', gjmpAppend fuel data (offset off n) (offset off t) =
        some (data', offset off (c.append n t).2) ∧ Represents off data' (c.append n t).1 := by
  have hchain := h.chain hoff hheld
  have hlength := hheld.length_le
  have hlinked := hheld.linked _ List.mem_cons_self
  have hlink := hheld.isLink _ List.mem_cons_self
  have hbelow := hheld.below _ List.mem_cons_self
  have hne := ne_zero_of_linked hlinked
  have hn := hheld.sites_ne_zero
  dsimp only at hlinked hlink hbelow
  rcases List.eq_nil_or_concat' sites with rfl | ⟨list, k, rfl⟩
  · obtain rfl : n = 0 := hlinked
    refine ⟨data, ?_, h⟩
    rw [hoff.offset_zero]
    rfl
  · have hn0 : n ≠ 0 := hn.1 (List.append_ne_nil_of_right_ne_nil _ (List.cons_ne_nil _ _))
    have hmem : k ∈ list ++ [k] := List.mem_append_right _ List.mem_cons_self
    rw [List.length_append, List.length_singleton] at hlength
    rw [List.map_append, List.map_singleton] at hchain
    have hoffset : offset off n ≠ 0#32 := by
      intro h0
      have hlinked' := hchain.linked
      rw [h0] at hlinked'
      cases list with
      | nil => exact hlinked'.2.1 hlinked'.1.symm
      | cons k' list => exact hlinked'.2.1 hlinked'.1.symm
    have hlast : lastJump data fuel (offset off n) = some (offset off k) :=
      lastJump_eq hchain.linked (by rw [List.length_map]; omega)
    have happend : c.append n t = ({ c with slots := Function.update c.slots k (.link t) }, n) := by
      rw [Code.append, if_pos hn0, last_eq hlinked (Nat.le_of_succ_le hlength)]
    rw [happend]
    have hk := hbelow k hmem
    have hword : slotWord off k (c.slots k) = some (offset off (c.slots k).next) :=
      slotWord_link (hlink k hmem)
    refine ⟨data.store (off k) 4 (offset off t), ?_, h.small, fun p hp0 hp w hw => ?_⟩
    · rw [gjmpAppend, if_pos hoffset, hlast]
      show some (data.store (offset off k).toNat 4 _, _) = _
      rw [h.toNat_offset hoff hk.le]
    · by_cases hpk : p = k
      · subst hpk
        have hself : Function.update c.slots p (.link t) p = .link t := Function.update_self _ _ _
        dsimp only at hw
        rw [hself] at hw
        cases hw
        exact ⟨Memory.load_store _ _ _ _, (h.word p hp0 hp _ hword).2⟩
      · have hother : Function.update c.slots k (.link t) p = c.slots p :=
          Function.update_of_ne hpk _ _
        dsimp only at hw
        rw [hother] at hw
        obtain ⟨hload, hsize⟩ := h.word p hp0 hp w hw
        refine ⟨?_, hsize⟩
        rw [← hload]
        exact Memory.load_store_of_disjoint _ _ _ _
          (h.apart hoff hp0 hp hw (hne k hmem) hk hword hpk)

end Represents

/-! ## Runs -/

/-- What happens to the code; `instr` is code of other kinds. -/
inductive CodeOp (ι : Type)
  | instr (i : ι) (bytes : List (BitVec 8))
  | gjmp (i : Nat)
  | append (i j : Nat)
  | patch (i a : Nat)

/-- The same in the section. -/
def CodeOp.text (off : Nat → Nat) : CodeOp ι → ChainOp
  | .instr _ bytes => .g bytes
  | .gjmp i => .gjmp i
  | .append i j => .gjmpAppend i j
  | .patch i a => .gsymAddr i (offset off a)

/-- The code and the chains that the compiler has. -/
def CodeOp.exec (op : CodeOp ι) (st : Code ι × List Nat) : Code ι × List Nat :=
  match op with
  | .instr i _ => (st.1.emit (.instr i), st.2)
  | .gjmp i => (st.1.emit (.link (st.2.getD i 0)), st.1.ind :: st.2.eraseIdx i)
  | .append i j =>
    let rest := st.2.eraseIdx i
    let r := st.1.append (st.2.getD i 0) (rest.getD j 0)
    (r.1, r.2 :: rest.eraseIdx j)
  | .patch i a => (st.1.patch (st.2.getD i 0) a, st.2.eraseIdx i)

/-- The places are where the code puts them, and jumps go to places that are known. -/
def CodeOp.Lays (off : Nat → Nat) (c : Code ι) : CodeOp ι → Prop
  | .instr _ bytes => off (c.ind + 1) = off c.ind + bytes.length
  | .gjmp _ => off (c.ind + 1) = off c.ind + 4
  | .append _ _ => True
  | .patch _ a => a ≤ c.ind

/-- The section and its chains are those of the code. -/
structure Relates (off : Nat → Nat) (σ : ChainState) (st : Code ι × List Nat) : Prop where
  data : Represents off σ.text.data st.1
  ind : σ.text.ind = off st.1.ind
  wanted : σ.text.nocodeWanted = false
  held : σ.held = st.2.map (offset off)
  start : st.1.ind ≠ 0
  chains : ∃ parts : List (Nat × List Nat), parts.map Prod.fst = st.2 ∧ Held st.1 parts

section Runs

variable {off : Nat → Nat} {σ : ChainState} {st : Code ι × List Nat} {fuel : Nat}

theorem held_take {c : Code ι} (front : List (Nat × List Nat)) {parts : List (Nat × List Nat)}
    (h : Held c (front ++ parts)) (i : Nat) :
    ∃ sites, Held c (front ++ ((parts.map Prod.fst).getD i 0, sites) :: parts.eraseIdx i) := by
  by_cases hi : i < parts.length
  · refine ⟨parts[i].2, ?_⟩
    have hget : (parts.map Prod.fst).getD i 0 = parts[i].1 := by
      rw [List.getD_eq_getElem _ _ (by rwa [List.length_map]), List.getElem_map]
    rw [hget]
    exact h.perm ((List.getElem_cons_eraseIdx_perm hi).symm.append_left front)
  · have hle := Nat.le_of_not_lt hi
    refine ⟨[], ?_⟩
    rw [List.getD_eq_default _ _ (by rwa [List.length_map]), List.eraseIdx_of_length_le hle]
    exact h.cons_nil.sink front

theorem Relates.head (h : Relates off σ st) (hoff : Offsets off) (i : Nat) :
    σ.held.getD i 0#32 = offset off (st.2.getD i 0) := by
  rw [h.held, ← hoff.offset_zero, List.getD_map]

theorem Relates.rest (h : Relates off σ st) (i : Nat) :
    σ.held.eraseIdx i = (st.2.eraseIdx i).map (offset off) := by
  rw [h.held, List.eraseIdx_map]

theorem put_live {text text' : Text} {n : Nat} {data : Memory} (hwanted : text.nocodeWanted = false)
    (h : text.put n data = .ok text') :
    text' = { text with data := data, ind := text.ind + n } ∧ text.ind + n < 2 ^ 31 := by
  rw [Text.put, if_neg (ne_true_of_eq_false hwanted)] at h
  split at h
  · cases h
  · rename_i hlt
    exact ⟨(Except.ok.inj h).symm, Nat.lt_of_not_le hlt⟩

theorem ok_of_map {ε α β : Type} {x : Except ε α} {f : α → β} {b : β} (h : x.map f = .ok b) :
    ∃ a, x = .ok a ∧ f a = b := by
  cases x with
  | error e => cases h
  | ok a => exact ⟨a, rfl, Except.ok.inj h⟩

/-- One step. -/
theorem Relates.step (fuel : Nat) (h : Relates off σ st) (hoff : Offsets off) (op : CodeOp ι)
    (hlays : op.Lays off st.1) (hfuel : st.1.ind ≤ fuel) :
    ∃ res, σ.step fuel (op.text off) = some res ∧
      ∀ σ', res = .ok σ' → Relates off σ' (op.exec st) := by
  obtain ⟨parts, hparts, hheld⟩ := h.chains
  cases op with
  | instr i bytes =>
    refine ⟨_, rfl, fun σ' hσ' => ?_⟩
    obtain ⟨text, hg, rfl⟩ := ok_of_map hσ'
    obtain ⟨rfl, hsmall⟩ := put_live h.wanted hg
    have hlays' : off (st.1.ind + 1) = off st.1.ind + bytes.length := hlays
    rw [h.ind, ← hlays'] at hsmall
    refine ⟨h.data.emit hoff hsmall (fun p k hp => ?_) (fun w hw => by cases hw), ?_, h.wanted,
      h.held, Nat.succ_ne_zero _, parts, hparts, hheld.emit _⟩
    · exact storeBytes_agreeOn _ _ _ (by rwa [h.ind])
    · show σ.text.ind + bytes.length = off (st.1.ind + 1)
      rw [h.ind, hlays']
  | gjmp i =>
    refine ⟨_, rfl, fun σ' hσ' => ?_⟩
    obtain ⟨r, hg, rfl⟩ := ok_of_map hσ'
    rw [Text.gjmp, if_neg (ne_true_of_eq_false h.wanted)] at hg
    obtain ⟨text, ho, rfl⟩ := ok_of_map hg
    obtain ⟨rfl, hsmall⟩ := put_live h.wanted ho
    have hlays' : off (st.1.ind + 1) = off st.1.ind + 4 := hlays
    obtain ⟨sites, htake⟩ := held_take [] hheld i
    rw [hparts] at htake
    rw [h.ind, ← hlays'] at hsmall
    refine ⟨h.data.emit hoff hsmall (fun p k hp => ?_) (fun w hw => ?_), ?_, h.wanted, ?_,
      Nat.succ_ne_zero _, _, ?_, htake.emit_link h.start⟩
    · exact Memory.agreeOn_store _ _ _ _ (Or.inl (by rwa [h.ind]))
    · cases hw
      refine ⟨?_, hlays'⟩
      rw [h.head hoff, ← h.ind]
      exact Memory.load_store _ _ _ _
    · show σ.text.ind + 4 = off (st.1.ind + 1)
      rw [h.ind, hlays']
    · show BitVec.ofNat 32 (σ.text.ind + 4 - 4) :: σ.held.eraseIdx i = _
      rw [h.rest, h.ind, Nat.add_sub_cancel]
      rfl
    · show st.1.ind :: (parts.eraseIdx i).map Prod.fst = st.1.ind :: st.2.eraseIdx i
      rw [← hparts, List.eraseIdx_map]
  | append i j =>
    obtain ⟨sites, htake⟩ := held_take [] hheld i
    obtain ⟨sites', hboth⟩ := held_take [_] htake j
    have hrest : (parts.eraseIdx i).map Prod.fst = st.2.eraseIdx i := by
      rw [← hparts, List.eraseIdx_map]
    rw [hparts, hrest] at hboth
    have hhead : (σ.held.eraseIdx i).getD j 0#32 = offset off ((st.2.eraseIdx i).getD j 0) := by
      rw [h.rest, ← hoff.offset_zero, List.getD_map]
    obtain ⟨data', hrun, hdata⟩ := h.data.append hoff hboth hfuel
    obtain ⟨hheld', -, hind⟩ := Held.append hboth
    refine ⟨.ok { σ with
      text := { σ.text with data := data' }
      held := offset off (st.1.append (st.2.getD i 0) ((st.2.eraseIdx i).getD j 0)).2 ::
        (σ.held.eraseIdx i).eraseIdx j }, ?_, fun σ' hσ' => ?_⟩
    · rw [CodeOp.text, ChainState.step]
      dsimp only
      rw [h.head hoff, hhead, hrun]
      rfl
    · obtain rfl := Except.ok.inj hσ'
      refine ⟨hdata, h.ind.trans (congrArg off hind.symm), h.wanted, ?_, ?_, _, ?_, hheld'⟩
      · show _ :: (σ.held.eraseIdx i).eraseIdx j = _
        rw [h.rest, List.eraseIdx_map]
        rfl
      · show (st.1.append _ _).1.ind ≠ 0
        rw [hind]
        exact h.start
      · show _ :: ((parts.eraseIdx i).eraseIdx j).map Prod.fst = _ :: (st.2.eraseIdx i).eraseIdx j
        rw [← hrest, List.eraseIdx_map]
  | patch i a =>
    obtain ⟨sites, htake⟩ := held_take [] hheld i
    rw [hparts] at htake
    have hchain := h.data.chain hoff htake
    have hlength : (sites.map (offset off)).length ≤ fuel := by
      rw [List.length_map]
      exact htake.length_le.trans hfuel
    have hrun := gsymAddr_eq hchain (offset off a) hlength
    refine ⟨Except.map (fun data => { σ with
      text := { σ.text with data := data }
      held := σ.held.eraseIdx i
      patched := σ.patched ++ sitesOf σ.text.data fuel (offset off (st.2.getD i 0)) })
        (if (sites.map (offset off)).any fun s => outOfJal (offset off a - s) then
          .error "out-of-range branch chain"
        else .ok (patchSites (offset off a) (sites.map (offset off)) σ.text.data)),
      ?_, fun σ' hσ' => ?_⟩
    · rw [CodeOp.text, ChainState.step]
      dsimp only
      rw [h.head hoff, hrun]
      rfl
    · obtain ⟨data', hdata', rfl⟩ := ok_of_map hσ'
      split at hdata'
      · cases hdata'
      · obtain rfl := Except.ok.inj hdata'
        refine ⟨h.data.patch hoff htake hlays, h.ind, h.wanted, h.rest i, h.start, _, ?_,
          (htake.patch a).1⟩
        show (parts.eraseIdx i).map Prod.fst = st.2.eraseIdx i
        rw [← hparts, List.eraseIdx_map]

/-- The number of places of the code goes up by one at most. -/
theorem CodeOp.exec_ind_le (op : CodeOp ι) (st : Code ι × List Nat) :
    (op.exec st).1.ind ≤ st.1.ind + 1 := by
  cases op with
  | instr i bytes => exact le_rfl
  | gjmp i => exact le_rfl
  | append i j =>
    show (st.1.append _ _).1.ind ≤ _
    unfold Code.append
    split <;> exact Nat.le_succ _
  | patch i a => exact Nat.le_succ _

/-- All operations put places where they are. -/
def LaysAll (off : Nat → Nat) : Code ι × List Nat → List (CodeOp ι) → Prop
  | _, [] => True
  | st, op :: ops => op.Lays off st.1 ∧ LaysAll off (op.exec st) ops

/-- A whole run. -/
theorem Relates.run (hoff : Offsets off) (ops : List (CodeOp ι)) (h : Relates off σ st)
    (hlays : LaysAll off st ops) (hfuel : st.1.ind + ops.length ≤ fuel) :
    ∃ res, σ.run fuel (ops.map (CodeOp.text off)) = some res ∧
      ∀ σ', res = .ok σ' → Relates off σ' (ops.foldl (fun st op => op.exec st) st) := by
  induction ops generalizing σ st with
  | nil => exact ⟨_, rfl, fun σ' hσ' => Except.ok.inj hσ' ▸ h⟩
  | cons op ops ih =>
    obtain ⟨hop, hops⟩ := hlays
    rw [List.length_cons] at hfuel
    obtain ⟨res, hres, hrelates⟩ := h.step fuel hoff op hop (by omega)
    rw [List.map_cons, ChainState.run, hres]
    cases res with
    | error e => exact ⟨_, rfl, fun σ' hσ' => by cases hσ'⟩
    | ok σ' =>
      have hind := op.exec_ind_le st
      have hfuel' : (op.exec st).1.ind + ops.length ≤ fuel := by omega
      exact ih (hrelates σ' rfl) hops hfuel'

variable (off fuel) in
/-- **The section holds the code**: whatever code with jumps a function has, the words in the
section are those of its slots, and the chains in the section are its chains. -/
theorem text_represents (hoff : Offsets off) (hsmall : off 1 < 2 ^ 31) (data : Memory)
    (ops : List (CodeOp ι)) (hlays : LaysAll off (⟨fun _ => .link 0, 1⟩, []) ops)
    (hfuel : 1 + ops.length ≤ fuel) :
    ∃ res, (ChainState.start data (off 1)).run fuel (ops.map (CodeOp.text off)) = some res ∧
      ∀ σ, res = .ok σ → Relates off σ
        (ops.foldl (fun st op => op.exec st) (⟨fun _ => .link 0, 1⟩, [])) := by
  refine Relates.run hoff ops ⟨⟨hsmall, fun p hp0 hp => ?_⟩, rfl, rfl, rfl, Nat.one_ne_zero, [],
    rfl, ?_⟩ hlays hfuel
  · exact absurd (Nat.lt_one_iff.1 hp) hp0
  · exact ⟨fun _ h => absurd h List.not_mem_nil, fun _ h => absurd h List.not_mem_nil, .nil,
      fun _ h => absurd h List.not_mem_nil⟩

/-- A jump over one instruction. -/
theorem text_represents_forward :
    ∃ res, (ChainState.start (fun _ => 0#8) 4).run 4
        [.gjmp 0, .g [0x13#8, 0#8, 0#8, 0#8], .gsymAddr 0 12#32] = some res ∧
      ∀ σ, res = .ok σ → Represents (4 * ·) σ.text.data
        ((⟨fun _ => .link 0, 1⟩ : Code Unit).emit (.link 0) |>.emit (.instr ()) |>.patch 1 3) := by
  obtain ⟨res, hres, h⟩ := text_represents (4 * ·) 4
    ⟨rfl, fun p q h => Nat.mul_lt_mul_of_pos_left h (by decide)⟩ (by decide) (fun _ => 0#8)
    ([.gjmp 0, .instr () [0x13#8, 0#8, 0#8, 0#8], .patch 0 3] : List (CodeOp Unit))
    ⟨rfl, rfl, (by decide : 3 ≤ 3), trivial⟩ (by decide)
  exact ⟨res, hres, fun σ hσ => (h σ hσ).data⟩

end Runs

end TccRiscv64.Gen.SectionCode
