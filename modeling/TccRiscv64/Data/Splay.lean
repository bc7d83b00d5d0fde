import Mathlib

set_option autoImplicit false

/-! # Top-down splaying

Splaying looks for an entry from the root on, takes the tree apart into what is before the entry and
what is behind it, and puts the tree together again with the last entry that it came to as the root.
How an entry compares with what is looked for is a parameter. -/

namespace TccRiscv64.Data

/-- A binary tree with an entry at each node. -/
inductive BinTree (α : Type)
  | nil
  | node (left : BinTree α) (entry : α) (right : BinTree α)
  deriving DecidableEq

namespace BinTree

variable {α : Type}

def inorder : BinTree α → List α
  | nil => []
  | node left x right => left.inorder ++ x :: right.inorder

def root? : BinTree α → Option α
  | nil => none
  | node _ x _ => some x

/-- The trees that are linked on the left, the last one first; each still lacks its right part. -/
abbrev LeftSpine (α : Type) := List (BinTree α × α)

/-- The trees that are linked on the right, the last one first; each still lacks its left part. -/
abbrev RightSpine (α : Type) := List (α × BinTree α)

/-- The tree on the left, when the last one gets its right part. -/
def closeLeft (l : LeftSpine α) (t : BinTree α) : BinTree α :=
  l.foldl (fun t e => node e.1 e.2 t) t

/-- The tree on the right, when the last one gets its left part. -/
def closeRight (r : RightSpine α) (t : BinTree α) : BinTree α :=
  r.foldl (fun t e => node t e.1 e.2) t

/-- The root gets the trees on the left and on the right. -/
def assemble (l : LeftSpine α) (r : RightSpine α) (left : BinTree α) (x : α)
    (right : BinTree α) : BinTree α :=
  node (closeLeft l left) x (closeRight r right)

/-- The loop of splaying, where `cmp x` is `lt` if what is looked for is before entry `x`. -/
def splayLoop (cmp : α → Ordering) (l : LeftSpine α) (r : RightSpine α) : BinTree α → BinTree α
  | nil => nil
  | node left x right =>
    match cmp x with
    | .lt =>
      match left with
      | nil => assemble l r nil x right
      | node yl y yr =>
        if cmp y = .lt then
          -- rotate right
          match yl with
          | nil => assemble l r nil y (node yr x right)
          | node zl z zr => splayLoop cmp l ((y, node yr x right) :: r) (node zl z zr)
        else splayLoop cmp l ((x, right) :: r) (node yl y yr)
    | .gt =>
      match right with
      | nil => assemble l r left x nil
      | node yl y yr =>
        if cmp y = .gt then
          -- rotate left
          match yr with
          | nil => assemble l r (node left x yl) y nil
          | node zl z zr => splayLoop cmp ((node left x yl, y) :: l) r (node zl z zr)
        else splayLoop cmp ((left, x) :: l) r (node yl y yr)
    | .eq => assemble l r left x right

/-- Splaying. -/
def splayBy (cmp : α → Ordering) (t : BinTree α) : BinTree α := splayLoop cmp [] [] t

/-! ## The entries -/

/-- The entries of the trees that are linked on the left. -/
def leftEntries (l : LeftSpine α) : List α :=
  l.foldr (fun e entries => entries ++ (e.1.inorder ++ [e.2])) []

/-- The entries of the trees that are linked on the right. -/
def rightEntries (r : RightSpine α) : List α :=
  r.foldr (fun e entries => e.1 :: e.2.inorder ++ entries) []

theorem leftEntries_cons (e : BinTree α × α) (l : LeftSpine α) :
    leftEntries (e :: l) = leftEntries l ++ (e.1.inorder ++ [e.2]) := rfl

theorem rightEntries_cons (e : α × BinTree α) (r : RightSpine α) :
    rightEntries (e :: r) = e.1 :: e.2.inorder ++ rightEntries r := rfl

theorem inorder_closeLeft (l : LeftSpine α) (t : BinTree α) :
    (closeLeft l t).inorder = leftEntries l ++ t.inorder := by
  induction l generalizing t with
  | nil => rfl
  | cons e l ih =>
      show (closeLeft l (node e.1 e.2 t)).inorder = _
      rw [ih, leftEntries_cons]
      simp [inorder]

theorem inorder_closeRight (r : RightSpine α) (t : BinTree α) :
    (closeRight r t).inorder = t.inorder ++ rightEntries r := by
  induction r generalizing t with
  | nil => exact (List.append_nil _).symm
  | cons e r ih =>
      show (closeRight r (node t e.1 e.2)).inorder = _
      rw [ih, rightEntries_cons]
      simp [inorder]

theorem inorder_assemble (l : LeftSpine α) (r : RightSpine α) (left : BinTree α) (x : α)
    (right : BinTree α) : (assemble l r left x right).inorder =
      leftEntries l ++ (node left x right).inorder ++ rightEntries r := by
  unfold assemble
  simp [inorder, inorder_closeLeft, inorder_closeRight]

/-- The loop neither loses an entry nor changes their order. -/
theorem inorder_splayLoop (cmp : α → Ordering) (l : LeftSpine α) (r : RightSpine α)
    {t : BinTree α} (ht : t ≠ nil) :
    (splayLoop cmp l r t).inorder = leftEntries l ++ t.inorder ++ rightEntries r := by
  fun_induction splayLoop cmp l r t with
  | case1 => exact absurd rfl ht
  | case2 => exact inorder_assemble ..
  | case3 =>
      rw [inorder_assemble]
      simp [inorder]
  | case4 l r x right y yr _ _ zl z zr ih =>
      rw [ih (by simp), rightEntries_cons]
      simp [inorder]
  | case5 l r x right yl y yr _ _ ih =>
      rw [ih (by simp), rightEntries_cons]
      simp [inorder]
  | case6 => exact inorder_assemble ..
  | case7 =>
      rw [inorder_assemble]
      simp [inorder]
  | case8 l r left x yl y _ _ zl z zr ih =>
      rw [ih (by simp), leftEntries_cons]
      simp [inorder]
  | case9 l r left x yl y yr _ _ ih =>
      rw [ih (by simp), leftEntries_cons]
      simp [inorder]
  | case10 => exact inorder_assemble ..

theorem forall_mem_node {p : α → Prop} {left right : BinTree α} {x : α} :
    (∀ a ∈ (node left x right).inorder, p a) ↔
      (∀ a ∈ left.inorder, p a) ∧ p x ∧ ∀ a ∈ right.inorder, p a := by
  rw [inorder, List.forall_mem_append, List.forall_mem_cons]

theorem forall_mem_leftEntries_cons {p : α → Prop} {e : BinTree α × α} {l : LeftSpine α} :
    (∀ a ∈ leftEntries (e :: l), p a) ↔
      (∀ a ∈ leftEntries l, p a) ∧ (∀ a ∈ e.1.inorder, p a) ∧ p e.2 := by
  rw [leftEntries_cons, List.forall_mem_append, List.forall_mem_append, List.forall_mem_singleton]

theorem forall_mem_rightEntries_cons {p : α → Prop} {e : α × BinTree α} {r : RightSpine α} :
    (∀ a ∈ rightEntries (e :: r), p a) ↔
      p e.1 ∧ (∀ a ∈ e.2.inorder, p a) ∧ ∀ a ∈ rightEntries r, p a := by
  rw [rightEntries_cons, List.forall_mem_append, List.forall_mem_cons, and_assoc]

/-! ## What is looked for -/

/-- Entries before what is looked for come first, and entries behind it last; at most one entry is
neither. -/
def Ordered (cmp : α → Ordering) (entries : List α) : Prop :=
  entries.Pairwise fun a b => cmp a = .gt ∨ cmp b = .lt

theorem Ordered.parts {cmp : α → Ordering} {left right : BinTree α} {x : α}
    (h : Ordered cmp (node left x right).inorder) :
    Ordered cmp left.inorder ∧ Ordered cmp right.inorder ∧
      (cmp x ≠ .gt → ∀ b ∈ right.inorder, cmp b = .lt) ∧
      (cmp x ≠ .lt → ∀ a ∈ left.inorder, cmp a = .gt) := by
  obtain ⟨hleft, hrest, hcross⟩ := List.pairwise_append.mp h
  obtain ⟨hx, hright⟩ := List.pairwise_cons.mp hrest
  refine ⟨hleft, hright, fun hne b hb => (hx b hb).resolve_left hne, fun hne a ha => ?_⟩
  exact (hcross a ha x List.mem_cons_self).resolve_right hne

/-- What a tree is when splaying is done: its left part is before what is looked for, and its right
part is behind it. -/
structure Splayed (cmp : α → Ordering) (left : BinTree α) (right : BinTree α) : Prop where
  left : ∀ a ∈ left.inorder, cmp a = .gt
  right : ∀ b ∈ right.inorder, cmp b = .lt

theorem splayed_assemble {cmp : α → Ordering} {l : LeftSpine α} {r : RightSpine α}
    (hl : ∀ a ∈ leftEntries l, cmp a = .gt) (hr : ∀ b ∈ rightEntries r, cmp b = .lt)
    {left : BinTree α} {x : α} {right : BinTree α} (h : Splayed cmp left right) :
    ∃ left' x' right', assemble l r left x right = node left' x' right' ∧
      Splayed cmp left' right' := by
  refine ⟨_, _, _, rfl, fun a ha => ?_, fun b hb => ?_⟩
  · rw [inorder_closeLeft] at ha
    exact (List.mem_append.mp ha).elim (hl a) (h.left a)
  · rw [inorder_closeRight] at hb
    exact (List.mem_append.mp hb).elim (h.right b) (hr b)

/-- The loop keeps on the left what is before, and on the right what is behind. -/
theorem splayLoop_splayed {cmp : α → Ordering} {l : LeftSpine α} {r : RightSpine α}
    {t : BinTree α} (ht : t ≠ nil) (h : Ordered cmp t.inorder)
    (hl : ∀ a ∈ leftEntries l, cmp a = .gt) (hr : ∀ b ∈ rightEntries r, cmp b = .lt) :
    ∃ left x right, splayLoop cmp l r t = node left x right ∧ Splayed cmp left right := by
  fun_induction splayLoop cmp l r t with
  | case1 => exact absurd rfl ht
  | case2 l r x right hx =>
      obtain ⟨-, -, hright, -⟩ := h.parts
      refine splayed_assemble hl hr ⟨fun a ha => absurd ha List.not_mem_nil, ?_⟩
      exact hright (by rw [hx]; decide)
  | case3 l r x right hx y yr hy =>
      obtain ⟨hleft, -, hright, -⟩ := h.parts
      obtain ⟨-, -, hyr, -⟩ := hleft.parts
      refine splayed_assemble hl hr ⟨fun a ha => absurd ha List.not_mem_nil, ?_⟩
      exact forall_mem_node.mpr
        ⟨hyr (by rw [hy]; decide), hx, hright (by rw [hx]; decide)⟩
  | case4 l r x right hx y yr hy zl z zr ih =>
      obtain ⟨hleft, -, hright, -⟩ := h.parts
      obtain ⟨hz, -, hyr, -⟩ := hleft.parts
      refine ih (by simp) hz hl (forall_mem_rightEntries_cons.mpr ⟨hy, ?_, hr⟩)
      exact forall_mem_node.mpr
        ⟨hyr (by rw [hy]; decide), hx, hright (by rw [hx]; decide)⟩
  | case5 l r x right hx yl y yr hy ih =>
      obtain ⟨hleft, -, hright, -⟩ := h.parts
      refine ih (by simp) hleft hl (forall_mem_rightEntries_cons.mpr ⟨hx, ?_, hr⟩)
      exact hright (by rw [hx]; decide)
  | case6 l r left x hx =>
      obtain ⟨-, -, -, hleft⟩ := h.parts
      refine splayed_assemble hl hr ⟨?_, fun b hb => absurd hb List.not_mem_nil⟩
      exact hleft (by rw [hx]; decide)
  | case7 l r left x hx yl y hy =>
      obtain ⟨-, hright, -, hleft⟩ := h.parts
      obtain ⟨-, -, -, hyl⟩ := hright.parts
      refine splayed_assemble hl hr ⟨?_, fun b hb => absurd hb List.not_mem_nil⟩
      exact forall_mem_node.mpr
        ⟨hleft (by rw [hx]; decide), hx, hyl (by rw [hy]; decide)⟩
  | case8 l r left x hx yl y hy zl z zr ih =>
      obtain ⟨-, hright, -, hleft⟩ := h.parts
      obtain ⟨-, hz, -, hyl⟩ := hright.parts
      refine ih (by simp) hz (forall_mem_leftEntries_cons.mpr ⟨hl, ?_, hy⟩) hr
      exact forall_mem_node.mpr
        ⟨hleft (by rw [hx]; decide), hx, hyl (by rw [hy]; decide)⟩
  | case9 l r left x hx yl y yr hy ih =>
      obtain ⟨-, hright, -, hleft⟩ := h.parts
      refine ih (by simp) hright (forall_mem_leftEntries_cons.mpr ⟨hl, ?_, hx⟩) hr
      exact hleft (by rw [hx]; decide)
  | case10 l r left x right hx =>
      obtain ⟨-, -, hright, hleft⟩ := h.parts
      exact splayed_assemble hl hr ⟨hleft (by rw [hx]; decide), hright (by rw [hx]; decide)⟩

/-! ## Splaying -/

theorem inorder_splayBy (cmp : α → Ordering) (t : BinTree α) :
    (splayBy cmp t).inorder = t.inorder := by
  cases t with
  | nil => rfl
  | node left x right =>
      rw [splayBy, inorder_splayLoop cmp [] [] (by simp)]
      exact List.append_nil _

theorem splayBy_splayed {cmp : α → Ordering} {t : BinTree α} (ht : t ≠ nil)
    (h : Ordered cmp t.inorder) :
    ∃ left x right, splayBy cmp t = node left x right ∧ Splayed cmp left right :=
  splayLoop_splayed ht h (fun _ ha => absurd ha List.not_mem_nil)
    fun _ hb => absurd hb List.not_mem_nil

/-- An entry that is looked for becomes the root. -/
theorem root?_splayBy {cmp : α → Ordering} {t : BinTree α} (h : Ordered cmp t.inorder) {x : α}
    (hx : x ∈ t.inorder) (hcmp : cmp x = .eq) : (splayBy cmp t).root? = some x := by
  have ht : t ≠ nil := by
    rintro rfl
    exact absurd hx List.not_mem_nil
  obtain ⟨left, y, right, heq, hsplayed⟩ := splayBy_splayed ht h
  rw [← inorder_splayBy cmp, heq] at hx
  rw [heq]
  rcases List.mem_append.mp hx with hx | hx
  · exact absurd ((hsplayed.left x hx).symm.trans hcmp) (by decide)
  · rcases List.mem_cons.mp hx with rfl | hx
    · rfl
    · exact absurd ((hsplayed.right x hx).symm.trans hcmp) (by decide)

/-- If everything is before what is looked for, nothing is on the right of the root. -/
theorem splayBy_all_before {cmp : α → Ordering} {t : BinTree α} (ht : t ≠ nil)
    (h : ∀ a ∈ t.inorder, cmp a = .gt) : ∃ left x, splayBy cmp t = node left x nil := by
  have hordered : Ordered cmp t.inorder :=
    List.pairwise_of_forall_mem_list fun a ha _ _ => .inl (h a ha)
  obtain ⟨left, x, right, heq, hsplayed⟩ := splayBy_splayed ht hordered
  have hright : right = nil := by
    cases right with
    | nil => rfl
    | node rl y rr =>
        have hy : y ∈ (node rl y rr).inorder := List.mem_append_right _ List.mem_cons_self
        have hmem : y ∈ t.inorder := by
          rw [← inorder_splayBy cmp, heq]
          exact List.mem_append_right _ (List.mem_cons_of_mem _ hy)
        exact absurd ((hsplayed.right y hy).symm.trans (h y hmem)) (by decide)
  exact ⟨left, x, hright ▸ heq⟩

/-! ## Neighbours of what is looked for -/

section Neighbours

variable {cmp : α → Ordering}

/-- Where everything is before what is looked for, the loop goes on to the last entry. -/
theorem splayLoop_all_before (l : LeftSpine α) (r : RightSpine α) {t : BinTree α} (ht : t ≠ nil)
    (h : ∀ a ∈ t.inorder, cmp a = .gt) :
    ∃ l' left x, splayLoop cmp l r t = assemble l' r left x nil := by
  have hlt : ∀ {a : α}, cmp a = .gt → cmp a ≠ .lt := fun hgt hlt => by
    rw [hgt] at hlt
    cases hlt
  fun_induction splayLoop cmp l r t with
  | case1 => exact absurd rfl ht
  | case2 l r x right hx => exact absurd hx (hlt (forall_mem_node.mp h).2.1)
  | case3 l r x right hx => exact absurd hx (hlt (forall_mem_node.mp h).2.1)
  | case4 l r x right hx => exact absurd hx (hlt (forall_mem_node.mp h).2.1)
  | case5 l r x right hx => exact absurd hx (hlt (forall_mem_node.mp h).2.1)
  | case6 => exact ⟨_, _, _, rfl⟩
  | case7 => exact ⟨_, _, _, rfl⟩
  | case8 l r left x hx yl y hy zl z zr ih =>
      exact ih (by simp) (forall_mem_node.mp (forall_mem_node.mp h).2.2).2.2
  | case9 l r left x hx yl y yr hy =>
      exact absurd (forall_mem_node.mp (forall_mem_node.mp h).2.2).2.1 hy
  | case10 l r left x right hx =>
      have hgt := (forall_mem_node.mp h).2.1
      rw [hx] at hgt
      cases hgt

/-- Where everything is behind it, to the first. -/
theorem splayLoop_all_behind (l : LeftSpine α) (r : RightSpine α) {t : BinTree α} (ht : t ≠ nil)
    (h : ∀ a ∈ t.inorder, cmp a = .lt) :
    ∃ r' x right, splayLoop cmp l r t = assemble l r' nil x right := by
  have hgt : ∀ {a : α}, cmp a = .lt → cmp a ≠ .gt := fun hlt hgt => by
    rw [hgt] at hlt
    cases hlt
  fun_induction splayLoop cmp l r t with
  | case1 => exact absurd rfl ht
  | case2 => exact ⟨_, _, _, rfl⟩
  | case3 => exact ⟨_, _, _, rfl⟩
  | case4 l r x right hx y yr hy zl z zr ih =>
      exact ih (by simp) (forall_mem_node.mp (forall_mem_node.mp h).1).1
  | case5 l r x right hx yl y yr hy =>
      exact absurd (forall_mem_node.mp (forall_mem_node.mp h).1).2.1 hy
  | case6 l r left x hx => exact absurd hx (hgt (forall_mem_node.mp h).2.1)
  | case7 l r left x hx => exact absurd hx (hgt (forall_mem_node.mp h).2.1)
  | case8 l r left x hx => exact absurd hx (hgt (forall_mem_node.mp h).2.1)
  | case9 l r left x hx => exact absurd hx (hgt (forall_mem_node.mp h).2.1)
  | case10 l r left x right hx =>
      have hlt := (forall_mem_node.mp h).2.1
      rw [hx] at hlt
      cases hlt

/-- The root is before what is looked for, and everything on its right behind it: the first entry
there becomes the root, and the root keeps nothing on its right. -/
theorem splayBy_next {left right : BinTree α} {x : α} (hx : cmp x = .gt) (hright : right ≠ nil)
    (h : ∀ a ∈ right.inorder, cmp a = .lt) :
    ∃ y right', splayBy cmp (node left x right) = node (node left x nil) y right' := by
  cases right with
  | nil => exact absurd rfl hright
  | node yl y yr =>
      have hy : cmp y ≠ .gt := by
        rw [(forall_mem_node.mp h).2.1]
        decide
      obtain ⟨r', z, right, heq⟩ := splayLoop_all_behind [(left, x)] [] hright h
      refine ⟨z, closeRight r' right, ?_⟩
      rw [splayBy, splayLoop.eq_def]
      dsimp only
      rw [hx]
      dsimp only
      rw [if_neg hy]
      exact heq

/-- The root is behind what is looked for, and everything on its left before it: the last entry
there becomes the root. -/
theorem splayBy_previous {left right : BinTree α} {x : α} (hx : cmp x = .lt) (hleft : left ≠ nil)
    (h : ∀ a ∈ left.inorder, cmp a = .gt) :
    ∃ left' y, splayBy cmp (node left x right) = node left' y (node nil x right) ∧
      left.inorder = left'.inorder ++ [y] := by
  cases left with
  | nil => exact absurd rfl hleft
  | node yl y yr =>
      have hy : cmp y ≠ .lt := by
        rw [(forall_mem_node.mp h).2.1]
        decide
      obtain ⟨l', left, z, heq⟩ := splayLoop_all_before [] [(x, right)] hleft h
      have hsplay : splayBy cmp (node (node yl y yr) x right) =
          node (closeLeft l' left) z (node nil x right) := by
        rw [splayBy, splayLoop.eq_def]
        dsimp only
        rw [hx]
        dsimp only
        rw [if_neg hy]
        exact heq
      refine ⟨_, z, hsplay, ?_⟩
      have hinorder := inorder_splayBy cmp (node (node yl y yr) x right)
      rw [hsplay] at hinorder
      have happend : (closeLeft l' left).inorder ++ [z] ++ x :: right.inorder =
          (node yl y yr).inorder ++ x :: right.inorder := by
        rw [List.append_assoc]
        exact hinorder
      exact (List.append_cancel_right happend).symm

end Neighbours

end BinTree

end TccRiscv64.Data
