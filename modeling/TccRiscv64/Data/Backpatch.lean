import TccRiscv64.Data.Chain

set_option autoImplicit false

/-! # Code with jumps to be patched

A compiler of one pass emits a jump before it knows its target. The jumps with the same target are a
chain: each one holds the place of the next until the target is known. -/

namespace TccRiscv64.Data.Backpatch

/-! ## The operations -/

/-- A place in the code. A jump to the next place is none. -/
inductive Slot (ι : Type)
  | instr (i : ι)
  | link (next : Nat)
  | jump (target : Nat)
  | nop

/-- The next jump of the chain. -/
def Slot.next {ι : Type} : Slot ι → Nat
  | .link next => next
  | _ => 0

def Slot.isLink {ι : Type} : Slot ι → Bool
  | .link _ => true
  | _ => false

/-- The jump at `site` to `a`. -/
def Slot.patched {ι : Type} (site a : Nat) : Slot ι := if a = site + 1 then .nop else .jump a

/-- The code and the place behind it. -/
structure Code (ι : Type) where
  slots : Nat → Slot ι
  ind : Nat

namespace Code

variable {ι : Type}

def emit (c : Code ι) (slot : Slot ι) : Code ι := ⟨Function.update c.slots c.ind slot, c.ind + 1⟩

/-- The last jump of a chain. -/
def last (c : Code ι) : Nat → Nat → Nat
  | 0, n => n
  | fuel + 1, n => if (c.slots n).next ≠ 0 then c.last fuel (c.slots n).next else n

/-- The chain `n`, and `t` behind it. -/
def append (c : Code ι) (n t : Nat) : Code ι × Nat :=
  if n ≠ 0 then ({ c with slots := Function.update c.slots (c.last c.ind n) (.link t) }, n)
  else (c, t)

/-- All jumps of a chain are to go to `a`. -/
def patchSlots (a : Nat) : Nat → (Nat → Slot ι) → Nat → Nat → Slot ι
  | 0, slots, _ => slots
  | fuel + 1, slots, t =>
    if t = 0 then slots
    else patchSlots a fuel (Function.update slots t (.patched t a)) (slots t).next

def patch (c : Code ι) (t a : Nat) : Code ι := { c with slots := patchSlots a c.ind c.slots t }

/-! ## Chains -/

/-- The chains that a compiler has, each with its jumps. -/
structure Held (c : Code ι) (chains : List (Nat × List Nat)) : Prop where
  linked : ∀ x ∈ chains, Linked (fun k => (c.slots k).next) x.1 x.2
  isLink : ∀ x ∈ chains, ∀ k ∈ x.2, (c.slots k).isLink = true
  nodup : (chains.flatMap Prod.snd).Nodup
  below : ∀ x ∈ chains, ∀ k ∈ x.2, k < c.ind

/-- What is emitted stays, up to the jumps that are to be patched. -/
structure Extends (c c' : Code ι) : Prop where
  ind_le : c.ind ≤ c'.ind
  slots_eq : ∀ p < c.ind, (c.slots p).isLink = false → c'.slots p = c.slots p

/-- The code in the end, when all chains are patched. -/
def Final (P : Nat → Slot ι) (c : Code ι) : Prop :=
  ∀ p < c.ind, (c.slots p).isLink = false → P p = c.slots p

/-- In the end the jumps go to `a`. -/
def Lead (P : Nat → Slot ι) (sites : List Nat) (a : Nat) : Prop := ∀ k ∈ sites, P k = .patched k a

variable {c c' c'' : Code ι} {P : Nat → Slot ι} {chains chains' : List (Nat × List Nat)}
  {t n a : Nat} {sites sites' : List Nat}

@[simp] theorem isLink_patched (site a : Nat) :
    (Slot.patched site a : Slot ι).isLink = false := by
  unfold Slot.patched
  split <;> rfl

theorem Extends.refl (c : Code ι) : Extends c c := ⟨le_rfl, fun _ _ _ => rfl⟩

theorem Extends.trans (h : Extends c c') (h' : Extends c' c'') : Extends c c'' := by
  refine ⟨h.ind_le.trans h'.ind_le, fun p hp hlink => ?_⟩
  have heq := h.slots_eq p hp hlink
  rw [h'.slots_eq p (hp.trans_le h.ind_le) (heq ▸ hlink), heq]

theorem Extends.final (h : Extends c c') (hfinal : Final P c') : Final P c := by
  intro p hp hlink
  have heq := h.slots_eq p hp hlink
  rw [hfinal p (hp.trans_le h.ind_le) (heq ▸ hlink), heq]

theorem Lead.nil : Lead P [] a := by
  intro k hk
  cases hk

theorem lead_append : Lead P (sites ++ sites') a ↔ Lead P sites a ∧ Lead P sites' a :=
  List.forall_mem_append

theorem lead_cons {k : Nat} : Lead P (k :: sites) a ↔ P k = .patched k a ∧ Lead P sites a :=
  List.forall_mem_cons

namespace Held

theorem perm (h : Held c chains) (hperm : chains.Perm chains') : Held c chains' where
  linked x hx := h.linked x (hperm.mem_iff.2 hx)
  isLink x hx := h.isLink x (hperm.mem_iff.2 hx)
  nodup := (hperm.flatMap_right Prod.snd).nodup_iff.1 h.nodup
  below x hx := h.below x (hperm.mem_iff.2 hx)

/-- A chain is put in front. -/
theorem bring (list : List (Nat × List Nat)) {x : Nat × List Nat}
    (h : Held c (list ++ x :: chains)) : Held c (x :: (list ++ chains)) := h.perm List.perm_middle

theorem sink (list : List (Nat × List Nat)) {x : Nat × List Nat}
    (h : Held c (x :: (list ++ chains))) : Held c (list ++ x :: chains) :=
  h.perm List.perm_middle.symm

/-- A chain that is not needed. -/
theorem tail {x : Nat × List Nat} (h : Held c (x :: chains)) : Held c chains where
  linked y hy := h.linked y (List.mem_cons_of_mem x hy)
  isLink y hy := h.isLink y (List.mem_cons_of_mem x hy)
  nodup := by
    have hnodup := h.nodup
    rw [List.flatMap_cons] at hnodup
    exact hnodup.of_append_right
  below y hy := h.below y (List.mem_cons_of_mem x hy)

/-- The empty chain. -/
theorem cons_nil (h : Held c chains) : Held c ((0, []) :: chains) where
  linked := List.forall_mem_cons.2 ⟨rfl, h.linked⟩
  isLink := List.forall_mem_cons.2 ⟨fun _ hk => absurd hk List.not_mem_nil, h.isLink⟩
  nodup := h.nodup
  below := List.forall_mem_cons.2 ⟨fun _ hk => absurd hk List.not_mem_nil, h.below⟩

theorem sites_ne_zero (h : Held c ((t, sites) :: chains)) : sites ≠ [] ↔ t ≠ 0 := by
  have hlinked := h.linked _ List.mem_cons_self
  cases sites with
  | nil => exact iff_of_false (fun hne => hne rfl) fun hne => hne hlinked
  | cons k sites =>
    obtain ⟨hhead, hk, -⟩ := hlinked
    exact iff_of_true (List.cons_ne_nil k sites) fun h0 => hk (hhead.symm.trans h0)

/-- The jumps of a chain are as many as there are places at most. -/
theorem length_le (h : Held c ((t, sites) :: chains)) : sites.length ≤ c.ind := by
  have hnodup := h.nodup
  rw [List.flatMap_cons] at hnodup
  have hsub : sites ⊆ List.range c.ind := fun k hk =>
    List.mem_range.2 (h.below _ List.mem_cons_self k hk)
  have hle := (hnodup.of_append_left.subperm hsub).length_le
  rwa [List.length_range] at hle

/-- The jumps of the first chain are in no other one. -/
theorem not_mem (h : Held c ((t, sites) :: chains)) {x : Nat × List Nat} (hx : x ∈ chains) {k : Nat}
    (hk : k ∈ x.2) : k ∉ sites := by
  have hnodup := h.nodup
  rw [List.flatMap_cons] at hnodup
  exact fun hmem => (List.disjoint_of_nodup_append hnodup) hmem (List.mem_flatMap.2 ⟨x, hx, hk⟩)

/-- Chains whose jumps are as before, among those of a code that is as long at least. -/
theorem congr (h : Held c chains) (hind : c.ind ≤ c'.ind)
    (hslots : ∀ x ∈ chains, ∀ k ∈ x.2, c'.slots k = c.slots k) : Held c' chains where
  linked x hx := (h.linked x hx).congr fun k hk => by rw [hslots x hx k hk]
  isLink x hx k hk := by
    rw [hslots x hx k hk]
    exact h.isLink x hx k hk
  nodup := h.nodup
  below x hx k hk := (h.below x hx k hk).trans_le hind

theorem emit (h : Held c chains) (slot : Slot ι) : Held (c.emit slot) chains :=
  h.congr (Nat.le_succ c.ind) fun x hx k hk =>
    Function.update_of_ne (h.below x hx k hk).ne _ _

end Held

theorem extends_emit (c : Code ι) (slot : Slot ι) : Extends c (c.emit slot) :=
  ⟨Nat.le_succ c.ind, fun _ hp _ => Function.update_of_ne hp.ne _ _⟩

theorem Final.emit {slot : Slot ι} (h : Final P (c.emit slot)) (hslot : slot.isLink = false) :
    P c.ind = slot := by
  have hself : (c.emit slot).slots c.ind = slot := Function.update_self _ _ _
  have hlink : ((c.emit slot).slots c.ind).isLink = false := by rwa [hself]
  rw [h c.ind (Nat.lt_succ_self _) hlink, hself]

/-- A jump is put in front of a chain. -/
theorem Held.emit_link (h : Held c ((t, sites) :: chains)) (hind : c.ind ≠ 0) :
    Held (c.emit (.link t)) ((c.ind, c.ind :: sites) :: chains) := by
  have hkeep := h.emit (.link t)
  have hself : (c.emit (.link t)).slots c.ind = .link t := Function.update_self _ _ _
  refine ⟨List.forall_mem_cons.2 ⟨?_, fun x hx => hkeep.linked x (List.mem_cons_of_mem _ hx)⟩,
    List.forall_mem_cons.2 ⟨?_, fun x hx => hkeep.isLink x (List.mem_cons_of_mem _ hx)⟩, ?_,
    List.forall_mem_cons.2 ⟨?_, fun x hx => hkeep.below x (List.mem_cons_of_mem _ hx)⟩⟩
  · refine ⟨rfl, hind, ?_⟩
    show Linked _ ((c.emit (.link t)).slots c.ind).next sites
    rw [hself]
    exact hkeep.linked _ List.mem_cons_self
  · refine List.forall_mem_cons.2 ⟨?_, hkeep.isLink _ List.mem_cons_self⟩
    rw [hself]
    rfl
  · show (c.ind :: (sites ++ chains.flatMap Prod.snd)).Nodup
    refine List.nodup_cons.2 ⟨fun hmem => ?_, h.nodup⟩
    obtain ⟨x, hx, hk⟩ := List.mem_flatMap.1 
      (show c.ind ∈ ((t, sites) :: chains).flatMap Prod.snd from hmem)
    exact absurd (h.below x hx c.ind hk) (lt_irrefl _)
  · exact List.forall_mem_cons.2 ⟨Nat.lt_succ_self _, hkeep.below _ List.mem_cons_self⟩

theorem last_eq {k : Nat} {fuel : Nat}
    (h : Linked (fun k => (c.slots k).next) n (sites ++ [k])) (hfuel : sites.length ≤ fuel) :
    c.last fuel n = k := by
  induction sites generalizing n fuel with
  | nil =>
    obtain ⟨rfl, -, hend⟩ := h
    cases fuel with
    | zero => rfl
    | succ fuel => exact if_neg (not_not_intro hend)
  | cons s sites ih =>
    obtain ⟨rfl, -, hrest⟩ := h
    cases fuel with
    | zero => exact absurd hfuel (Nat.not_succ_le_zero _)
    | succ fuel =>
      have hne : (c.slots n).next ≠ 0 := by
        cases sites with
        | nil => exact fun h0 => hrest.2.1 (hrest.1.symm.trans h0)
        | cons s' sites => exact fun h0 => hrest.2.1 (hrest.1.symm.trans h0)
      rw [last, if_pos hne]
      exact ih hrest (Nat.le_of_succ_le_succ hfuel)

/-- Two chains become one. -/
theorem Held.append (h : Held c ((n, sites) :: (t, sites') :: chains)) :
    Held (c.append n t).1 (((c.append n t).2, sites ++ sites') :: chains) ∧
      Extends c (c.append n t).1 ∧ (c.append n t).1.ind = c.ind := by
  rcases List.eq_nil_or_concat' sites with rfl | ⟨list, k, rfl⟩
  · obtain rfl : n = 0 := h.linked _ List.mem_cons_self
    exact ⟨h.tail, .refl c, rfl⟩
  · have hne : n ≠ 0 := h.sites_ne_zero.1 (by simp)
    have hlinked := h.linked _ List.mem_cons_self
    have hlast : c.last c.ind n = k := by
      refine last_eq hlinked ?_
      have hle := h.length_le
      rw [List.length_append] at hle
      exact (Nat.le_add_right _ _).trans hle
    rw [Code.append, if_pos hne, hlast]
    have hnodup := h.nodup
    rw [List.flatMap_cons] at hnodup
    have hk : k ∉ list := by
      have hleft := hnodup.of_append_left
      rw [List.nodup_append] at hleft
      exact fun hmem => hleft.2.2 k hmem k List.mem_cons_self rfl
    have hother : ∀ x ∈ (t, sites') :: chains, ∀ k' ∈ x.2, k' ≠ k := by
      rintro x hx k' hk' rfl
      exact h.not_mem hx hk' (List.mem_append_right _ List.mem_cons_self)
    have hkeep : Held { c with slots := Function.update c.slots k (.link t) }
        ((t, sites') :: chains) :=
      h.tail.congr le_rfl fun x hx k' hk' => Function.update_of_ne (hother x hx k' hk') _ _
    refine ⟨⟨List.forall_mem_cons.2 ⟨?_, fun x hx => hkeep.linked x (List.mem_cons_of_mem _ hx)⟩,
      List.forall_mem_cons.2 ⟨?_, fun x hx => hkeep.isLink x (List.mem_cons_of_mem _ hx)⟩, ?_,
      List.forall_mem_cons.2 ⟨?_, fun x hx => hkeep.below x (List.mem_cons_of_mem _ hx)⟩⟩,
      ⟨le_rfl, fun p _ hp => Function.update_of_ne ?_ _ _⟩, rfl⟩
    · rw [List.append_assoc]
      refine hlinked.append (hkeep.linked _ List.mem_cons_self) (fun k' hk' => ?_) ?_
      · show (Function.update c.slots k _ k').next = _
        rw [Function.update_of_ne (ne_of_mem_of_not_mem hk' hk)]
      · show (Function.update c.slots k _ k).next = _
        rw [Function.update_self]
        rfl
    · intro k' hk'
      rcases List.mem_append.1 hk' with hk' | hk'
      · by_cases heq : k' = k
        · subst heq
          show (Function.update c.slots k' _ k').isLink = true
          rw [Function.update_self]
          rfl
        · show (Function.update c.slots k _ k').isLink = true
          rw [Function.update_of_ne heq]
          exact h.isLink _ List.mem_cons_self k' hk'
      · exact hkeep.isLink _ List.mem_cons_self k' hk'
    · rw [List.flatMap_cons, List.append_assoc]
      exact hnodup
    · intro k' hk'
      rcases List.mem_append.1 hk' with hk' | hk'
      · exact h.below _ List.mem_cons_self k' hk'
      · exact hkeep.below _ List.mem_cons_self k' hk'
    · rintro rfl
      have hlink := h.isLink _ List.mem_cons_self p (List.mem_append_right _ List.mem_cons_self)
      rw [hp] at hlink
      cases hlink

theorem patchSlots_eq {fuel : Nat} {slots : Nat → Slot ι}
    (h : Linked (fun k => (slots k).next) t sites) (hnodup : sites.Nodup)
    (hfuel : sites.length ≤ fuel) :
    (∀ k ∈ sites, patchSlots a fuel slots t k = .patched k a) ∧
      ∀ k, k ∉ sites → patchSlots a fuel slots t k = slots k := by
  induction sites generalizing t fuel slots with
  | nil =>
    obtain rfl : t = 0 := h
    refine ⟨fun k hk => absurd hk List.not_mem_nil, fun k _ => ?_⟩
    cases fuel <;> rfl
  | cons s sites ih =>
    obtain ⟨rfl, hne, hrest⟩ := h
    obtain ⟨hmem, hnodup⟩ := List.nodup_cons.1 hnodup
    cases fuel with
    | zero => exact absurd hfuel (Nat.not_succ_le_zero _)
    | succ fuel =>
      rw [patchSlots, if_neg hne]
      have hother : ∀ k ∈ sites, k ≠ t := by
        rintro k hk rfl
        exact hmem hk
      have hrest' : Linked (fun k => (Function.update slots t (.patched t a) k).next)
          (slots t).next sites :=
        hrest.congr fun k hk => by rw [Function.update_of_ne (hother k hk)]
      obtain ⟨hin, hout⟩ := ih hrest' hnodup (Nat.le_of_succ_le_succ hfuel)
      refine ⟨List.forall_mem_cons.2 ⟨?_, hin⟩, fun k hk => ?_⟩
      · rw [hout t hmem, Function.update_self]
      · rw [hout k fun hk' => hk (List.mem_cons_of_mem t hk'),
          Function.update_of_ne (ne_of_mem_of_not_mem List.mem_cons_self hk).symm]

/-- A chain is taken apart. -/
theorem Held.patch (h : Held c ((t, sites) :: chains)) (a : Nat) :
    Held (c.patch t a) chains ∧ Extends c (c.patch t a) ∧
      ∀ P, Final P (c.patch t a) → Lead P sites a := by
  have hnodup := h.nodup
  rw [List.flatMap_cons] at hnodup
  obtain ⟨hin, hout⟩ := patchSlots_eq (a := a) (h.linked _ List.mem_cons_self)
    hnodup.of_append_left h.length_le
  refine ⟨h.tail.congr le_rfl fun x hx k hk => hout k (h.not_mem hx hk),
    ⟨le_rfl, fun p _ hp => hout p fun hmem => ?_⟩, fun P hP k hk => ?_⟩
  · have hlink := h.isLink _ List.mem_cons_self p hmem
    rw [hp] at hlink
    cases hlink
  · have heq : (c.patch t a).slots k = .patched k a := hin k hk
    rw [hP k (h.below _ List.mem_cons_self k hk) (by rw [heq, isLink_patched]), heq]

end Code

end TccRiscv64.Data.Backpatch
