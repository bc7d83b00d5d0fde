import Mathlib

set_option autoImplicit false

/-! # The define stack

`define_push`, `define_undef`, `define_find` and the pragmas `push_macro` and `pop_macro`. A saved
definition stays where it is on the define stack: its symbol is marked by a pointer `type.ref` to
itself. The symbols of the parameters, which no name finds, are left off the stack. -/

namespace TccRiscv64.Macro

/-! ## Symbols -/

/-- What a definition consists of. The token stream is `NULL` for a built-in macro. -/
structure Definition where
  macroType : Nat
  d : Option (List Int)
  args : List (Nat × Bool)
  deriving DecidableEq, Repr

/-- A symbol on the define stack, where `saved` stands for `type.ref == s`. -/
structure Sym where
  v : Nat
  definition : Definition
  saved : Bool
  deriving DecidableEq, Repr

/-- The symbols by their addresses, `define_stack` from its top on, and the field `sym_define` of
each name. -/
structure State where
  heap : Nat → Sym
  stack : List Nat
  symDefine : Nat → Option Nat

namespace State

/-- The address of the next symbol. -/
def fresh (σ : State) : Nat := σ.stack.length

/-- `define_push`. -/
def definePush (σ : State) (v : Nat) (definition : Definition) : State where
  heap := Function.update σ.heap σ.fresh ⟨v, definition, false⟩
  stack := σ.fresh :: σ.stack
  symDefine := Function.update σ.symDefine v (some σ.fresh)

/-- `define_undef`. -/
def defineUndef (σ : State) (v : Nat) : State :=
  { σ with symDefine := Function.update σ.symDefine v none }

/-- What `push_macro` saves if there is no definition. -/
def undefined : Definition := ⟨0, none, []⟩

/-- Set or clear the mark of a symbol, and let the name have its definition, if it is one. -/
def setMark (σ : State) (v a : Nat) (saved : Bool) : State :=
  { σ with
    heap := Function.update σ.heap a { σ.heap a with saved := saved }
    symDefine := Function.update σ.symDefine v
      (if (σ.heap a).definition.d.isSome then some a else none) }

/-- `#pragma push_macro`. -/
def pushMacro (σ : State) (v : Nat) : State :=
  match σ.symDefine v with
  | some a => σ.setMark v a true
  | none => (σ.definePush v undefined).setMark v σ.fresh true

/-- A symbol of the name that is marked. -/
def marked (σ : State) (v a : Nat) : Bool := (σ.heap a).v == v && (σ.heap a).saved

/-- `#pragma pop_macro`, which changes nothing but for a warning if there is no mark. -/
def popMacro (σ : State) (v : Nat) : State :=
  match σ.stack.find? (σ.marked v) with
  | some a => σ.setMark v a false
  | none => σ

end State

/-- The directives. -/
inductive Step
  | define (v macroType : Nat) (str : List Int) (args : List (Nat × Bool))
  | undef (v : Nat)
  | pushMacro (v : Nat)
  | popMacro (v : Nat)
  deriving DecidableEq, Repr

def State.step (σ : State) : Step → State
  | .define v macroType str args => σ.definePush v ⟨macroType, some str, args⟩
  | .undef v => if (σ.symDefine v).isSome then σ.defineUndef v else σ
  | .pushMacro v => σ.pushMacro v
  | .popMacro v => σ.popMacro v

def State.run (σ : State) (steps : List Step) : State := steps.foldl State.step σ

/-- The definition that a name has. -/
def State.inForce (σ : State) (v : Nat) : Option Definition :=
  (σ.symDefine v).map fun a => (σ.heap a).definition

/-- After `tccpp_new`, with the names of the built-in macros. -/
def State.start (builtins : List Nat) : State :=
  builtins.foldl (fun σ v => σ.definePush v ⟨0, none, []⟩)
    ⟨fun _ => ⟨0, State.undefined, false⟩, [], fun _ => none⟩

/-! ## Saved definitions on stacks of their own -/

/-- The definition that each name has, and those that are saved for it, the last one first. -/
structure Reference where
  current : Nat → Option Definition
  saved : Nat → List (Option Definition)

namespace Reference

def step (ρ : Reference) : Step → Reference
  | .define v macroType str args =>
    { ρ with current := Function.update ρ.current v (some ⟨macroType, some str, args⟩) }
  | .undef v => { ρ with current := Function.update ρ.current v none }
  | .pushMacro v => { ρ with saved := Function.update ρ.saved v (ρ.current v :: ρ.saved v) }
  | .popMacro v =>
    match ρ.saved v with
    | [] => ρ
    | definition :: rest => {
        current := Function.update ρ.current v definition
        saved := Function.update ρ.saved v rest }

def run (ρ : Reference) (steps : List Step) : Reference := steps.foldl step ρ

def start (builtins : List Nat) : Reference where
  current v := if v ∈ builtins then some ⟨0, none, []⟩ else none
  saved _ := []

end Reference

/-! ## Marks against stacks -/

/-- What `pop_macro` makes of a symbol. -/
def Sym.restored (s : Sym) : Option Definition :=
  if s.definition.d.isSome then some s.definition else none

/-- The definitions of a name that are marked, the one on top first. -/
def State.savedOf (σ : State) (v : Nat) : List (Option Definition) :=
  (σ.stack.filter (σ.marked v)).map fun a => (σ.heap a).restored

/-- The marks keep the stacks of saved definitions, and no mark is above the definition that a name
has. -/
structure Related (σ : State) (ρ : Reference) : Prop where
  nodup : σ.stack.Nodup
  below : ∀ a ∈ σ.stack, a < σ.fresh
  current : ∀ v, σ.inForce v = ρ.current v
  saved : ∀ v, σ.savedOf v = ρ.saved v
  defined : ∀ v a, σ.symDefine v = some a → (σ.heap a).v = v ∧
    ∃ above below, σ.stack = above ++ a :: below ∧ ∀ b ∈ above, σ.marked v b = false

/-- A step that loses nothing: `push_macro` does not meet a definition that is saved already, nor a
built-in one. -/
def Keeps (σ : State) : Step → Bool
  | .pushMacro v =>
    (σ.symDefine v).all fun a => !(σ.heap a).saved && (σ.heap a).definition.d.isSome
  | _ => true

/-- All steps lose nothing. -/
def KeepsAll (σ : State) : List Step → Bool
  | [] => true
  | s :: steps => Keeps σ s && KeepsAll (σ.step s) steps

/-! ## A new definition -/

theorem Related.mem_of_defined {σ : State} {ρ : Reference} (h : Related σ ρ) {v a : Nat}
    (ha : σ.symDefine v = some a) : a ∈ σ.stack := by
  obtain ⟨-, above, below, hstack, -⟩ := h.defined v a ha
  rw [hstack]
  exact List.mem_append_right _ List.mem_cons_self

theorem heap_definePush {σ : State} {v a : Nat} {definition : Definition} (ha : a ≠ σ.fresh) :
    (σ.definePush v definition).heap a = σ.heap a :=
  Function.update_of_ne ha _ _

theorem marked_definePush {σ : State} {v w a : Nat} {definition : Definition} (ha : a ≠ σ.fresh) :
    (σ.definePush v definition).marked w a = σ.marked w a := by
  rw [State.marked, heap_definePush ha, State.marked]

theorem marked_fresh (σ : State) (v w : Nat) (definition : Definition) :
    (σ.definePush v definition).marked w σ.fresh = false := by
  simp [State.marked, State.definePush]

theorem Related.definePush {σ : State} {ρ : Reference} (h : Related σ ρ) (v : Nat)
    (definition : Definition) : Related (σ.definePush v definition)
      { ρ with current := Function.update ρ.current v (some definition) } := by
  have hne : ∀ a ∈ σ.stack, a ≠ σ.fresh := fun a ha => (h.below a ha).ne
  have hfresh : (σ.definePush v definition).heap σ.fresh = ⟨v, definition, false⟩ :=
    Function.update_self _ _ _
  constructor
  · exact List.nodup_cons.2 ⟨fun hmem => hne _ hmem rfl, h.nodup⟩
  · intro a ha
    have hlength : (σ.definePush v definition).fresh = σ.fresh + 1 := rfl
    rw [hlength]
    rcases List.mem_cons.1 ha with rfl | ha
    · exact Nat.lt_succ_self _
    · exact (h.below a ha).trans (Nat.lt_succ_self _)
  · intro w
    by_cases hw : w = v
    · subst hw
      have hdef : (σ.definePush w definition).symDefine w = some σ.fresh :=
        Function.update_self _ _ _
      dsimp only
      rw [State.inForce, hdef, Option.map_some, hfresh, Function.update_self]
    · have hdef : (σ.definePush v definition).symDefine w = σ.symDefine w :=
        Function.update_of_ne hw _ _
      dsimp only
      rw [Function.update_of_ne hw, State.inForce, hdef, ← h.current, State.inForce]
      refine Option.map_congr fun a ha => ?_
      rw [heap_definePush (hne a (h.mem_of_defined ha))]
  · intro w
    have hstack : (σ.definePush v definition).stack = σ.fresh :: σ.stack := rfl
    rw [← h.saved, State.savedOf, State.savedOf, hstack,
      List.filter_cons_of_neg (by rw [marked_fresh]; exact Bool.false_ne_true),
      List.filter_congr fun a ha => marked_definePush (hne a ha)]
    refine List.map_congr_left fun a ha => ?_
    rw [heap_definePush (hne a (List.mem_of_mem_filter ha))]
  · intro w a ha
    by_cases hw : w = v
    · subst hw
      have hdef : (σ.definePush w definition).symDefine w = some σ.fresh :=
        Function.update_self _ _ _
      obtain rfl : σ.fresh = a := Option.some.inj (hdef.symm.trans ha)
      rw [hfresh]
      exact ⟨rfl, [], σ.stack, rfl, by simp⟩
    · have hdef : σ.symDefine w = some a := (Function.update_of_ne hw _ _).symm.trans ha
      obtain ⟨hname, above, below, hstack, habove⟩ := h.defined w a hdef
      rw [heap_definePush (hne a (h.mem_of_defined hdef))]
      refine ⟨hname, σ.fresh :: above, below, congrArg (σ.fresh :: ·) hstack, ?_⟩
      refine List.forall_mem_cons.2 ⟨marked_fresh σ v w definition, fun b hb => ?_⟩
      have hmem : b ∈ σ.stack := hstack ▸ List.mem_append_left _ hb
      rw [marked_definePush (hne b hmem), habove b hb]

theorem Related.defineUndef {σ : State} {ρ : Reference} (h : Related σ ρ) (v : Nat) :
    Related (σ.defineUndef v) { ρ with current := Function.update ρ.current v none } := by
  refine ⟨h.nodup, h.below, fun w => ?_, h.saved, fun w a ha => ?_⟩
  · by_cases hw : w = v
    · subst hw
      simp [State.inForce, State.defineUndef]
    · have hcurrent := h.current w
      simpa [State.inForce, State.defineUndef, Function.update_of_ne hw] using hcurrent
  · have hw : w ≠ v := by
      rintro rfl
      simp [State.defineUndef] at ha
    exact h.defined w a ((Function.update_of_ne hw _ _).symm.trans ha)

/-! ## A mark that is set or cleared -/

section Mark

variable {σ : State} {v a : Nat}

theorem definition_setMark (m : Bool) (b : Nat) :
    ((σ.setMark v a m).heap b).definition = (σ.heap b).definition := by
  by_cases hb : b = a
  · subst hb
    simp [State.setMark]
  · simp [State.setMark, Function.update_of_ne hb]

theorem v_setMark (m : Bool) (b : Nat) : ((σ.setMark v a m).heap b).v = (σ.heap b).v := by
  by_cases hb : b = a
  · subst hb
    simp [State.setMark]
  · simp [State.setMark, Function.update_of_ne hb]

theorem restored_setMark (m : Bool) (b : Nat) :
    ((σ.setMark v a m).heap b).restored = (σ.heap b).restored := by
  rw [Sym.restored, definition_setMark, Sym.restored]

theorem marked_setMark_of_ne {m : Bool} {w b : Nat} (h : b ≠ a) :
    (σ.setMark v a m).marked w b = σ.marked w b := by
  simp [State.marked, State.setMark, Function.update_of_ne h]

theorem marked_setMark_name {m : Bool} {w : Nat} (hw : w ≠ (σ.heap a).v) (b : Nat) :
    (σ.setMark v a m).marked w b = σ.marked w b := by
  by_cases hb : b = a
  · subst hb
    have hname : ((σ.heap b).v == w) = false := beq_eq_false_iff_ne.2 hw.symm
    rw [State.marked, v_setMark, hname, Bool.false_and, State.marked, hname, Bool.false_and]
  · exact marked_setMark_of_ne hb

theorem marked_setMark_self {m : Bool} (hv : (σ.heap a).v = v) :
    (σ.setMark v a m).marked v a = m := by
  simp [State.marked, State.setMark, hv]

/-- What is saved, where the first symbol that may be marked is known. -/
theorem savedOf_split {above below : List Nat} (hstack : σ.stack = above ++ a :: below)
    (habove : ∀ b ∈ above, σ.marked v b = false) :
    σ.savedOf v = (if σ.marked v a then [(σ.heap a).restored] else []) ++
      (below.filter (σ.marked v)).map fun b => (σ.heap b).restored := by
  have hnil : above.filter (σ.marked v) = [] :=
    List.filter_eq_nil_iff.2 fun b hb => by rw [habove b hb]; exact Bool.false_ne_true
  rw [State.savedOf, hstack, List.filter_append, hnil, List.nil_append, List.filter_cons]
  split
  · rw [List.map_cons]
    rfl
  · rfl

theorem Related.setMark {ρ : Reference} (h : Related σ ρ) (hv : (σ.heap a).v = v)
    {above below : List Nat} (hstack : σ.stack = above ++ a :: below)
    (habove : ∀ b ∈ above, σ.marked v b = false) (m : Bool) :
    Related (σ.setMark v a m) {
      current := Function.update ρ.current v (σ.heap a).restored
      saved := Function.update ρ.saved v ((if m then [(σ.heap a).restored] else []) ++
        (below.filter (σ.marked v)).map fun b => (σ.heap b).restored) } := by
  have hnodup := h.nodup
  rw [hstack] at hnodup
  have hnot : a ∉ above ∧ a ∉ below := by
    rw [List.nodup_append, List.nodup_cons] at hnodup
    exact ⟨fun ha => hnodup.2.2 a ha a List.mem_cons_self rfl, hnodup.2.1.1⟩
  have habove' : ∀ b ∈ above, (σ.setMark v a m).marked v b = false := fun b hb => by
    have hne : b ≠ a := fun heq => hnot.1 (heq ▸ hb)
    rw [marked_setMark_of_ne hne, habove b hb]
  refine ⟨h.nodup, h.below, fun w => ?_, fun w => ?_, fun w b hb => ?_⟩
  · by_cases hw : w = v
    · subst hw
      have hdef : (σ.setMark w a m).symDefine w =
          if (σ.heap a).definition.d.isSome then some a else none := Function.update_self _ _ _
      dsimp only
      rw [Function.update_self, State.inForce, hdef, Sym.restored]
      split
      · rw [Option.map_some, definition_setMark]
      · rfl
    · have hdef : (σ.setMark v a m).symDefine w = σ.symDefine w := Function.update_of_ne hw _ _
      dsimp only
      rw [Function.update_of_ne hw, State.inForce, hdef, ← h.current, State.inForce]
      exact Option.map_congr fun b _ => definition_setMark m b
  · by_cases hw : w = v
    · subst hw
      have hstack' : (σ.setMark w a m).stack = above ++ a :: below := hstack
      have hbelow : ∀ b ∈ below, (σ.setMark w a m).marked w b = σ.marked w b := fun b hb =>
        marked_setMark_of_ne fun heq => hnot.2 (heq ▸ hb)
      dsimp only
      rw [Function.update_self, savedOf_split hstack' habove', marked_setMark_self hv,
        restored_setMark, List.filter_congr hbelow]
      exact congrArg (_ ++ ·) (List.map_congr_left fun b _ => restored_setMark m b)
    · have hname : w ≠ (σ.heap a).v := hv ▸ hw
      have hstack' : (σ.setMark v a m).stack = σ.stack := rfl
      dsimp only
      rw [Function.update_of_ne hw, ← h.saved, State.savedOf, State.savedOf, hstack',
        List.filter_congr fun b _ => marked_setMark_name hname b]
      exact List.map_congr_left fun b _ => restored_setMark m b
  · rw [v_setMark]
    by_cases hw : w = v
    · subst hw
      have hself : (σ.setMark w a m).symDefine w =
          if (σ.heap a).definition.d.isSome then some a else none := Function.update_self _ _ _
      have hdef := hself.symm.trans hb
      split at hdef
      · obtain rfl := Option.some.inj hdef
        exact ⟨hv, above, below, hstack, habove'⟩
      · cases hdef
    · have hdef : σ.symDefine w = some b := (Function.update_of_ne hw _ _).symm.trans hb
      obtain ⟨hname, above1, below1, hstack1, habove1⟩ := h.defined w b hdef
      refine ⟨hname, above1, below1, hstack1, fun c hc => ?_⟩
      rw [marked_setMark_name (hv ▸ hw), habove1 c hc]

end Mark

/-! ## Steps and runs -/

/-- `push_macro` where the name has no definition: a symbol without a definition is marked. -/
theorem Related.pushMacro_none {σ : State} {ρ : Reference} (h : Related σ ρ) {v : Nat}
    (hv : σ.symDefine v = none) : Related (σ.pushMacro v) (ρ.step (.pushMacro v)) := by
  have hcurrent : ρ.current v = none := by
    rw [← h.current, State.inForce, hv, Option.map_none]
  have hpush := h.definePush v State.undefined
  have hheap : (σ.definePush v State.undefined).heap σ.fresh = ⟨v, State.undefined, false⟩ :=
    Function.update_self _ _ _
  have hstack : (σ.definePush v State.undefined).stack = [] ++ σ.fresh :: σ.stack := rfl
  have hsplit := savedOf_split (v := v) hstack (by simp)
  rw [hpush.saved, marked_fresh, if_neg Bool.false_ne_true, List.nil_append] at hsplit
  have hmark := hpush.setMark (congrArg Sym.v hheap) hstack (by simp) true
  rw [hheap, ← hsplit] at hmark
  have hpushed : σ.pushMacro v = (σ.definePush v State.undefined).setMark v σ.fresh true := by
    rw [State.pushMacro, hv]
  have hundone : Function.update ρ.current v none = ρ.current := by
    rw [← hcurrent, Function.update_eq_self]
  rw [hpushed, Reference.step, hcurrent]
  simpa [Sym.restored, State.undefined, hundone] using hmark

/-- `push_macro` where the name has a definition that is not saved yet. -/
theorem Related.pushMacro_some {σ : State} {ρ : Reference} (h : Related σ ρ) {v a : Nat}
    (hv : σ.symDefine v = some a) (hsaved : (σ.heap a).saved = false)
    (hd : (σ.heap a).definition.d.isSome) :
    Related (σ.pushMacro v) (ρ.step (.pushMacro v)) := by
  obtain ⟨hname, above, below, hstack, habove⟩ := h.defined v a hv
  have hrestored : (σ.heap a).restored = ρ.current v := by
    rw [Sym.restored, if_pos hd, ← h.current, State.inForce, hv, Option.map_some]
  have hunmarked : σ.marked v a = false := by rw [State.marked, hsaved, Bool.and_false]
  have hsplit := savedOf_split hstack habove
  rw [hunmarked, h.saved, if_neg Bool.false_ne_true, List.nil_append] at hsplit
  have hmark := h.setMark hname hstack habove true
  have hpushed : σ.pushMacro v = σ.setMark v a true := by rw [State.pushMacro, hv]
  rw [hrestored, Function.update_eq_self, ← hsplit, if_pos rfl] at hmark
  rw [hpushed]
  exact hmark

/-- `pop_macro` finds the mark that was set last. -/
theorem Related.popMacro {σ : State} {ρ : Reference} (h : Related σ ρ) (v : Nat) :
    Related (σ.popMacro v) (ρ.step (.popMacro v)) := by
  have hsaved := h.saved v
  rw [State.popMacro, Reference.step]
  cases hfind : σ.stack.find? (σ.marked v) with
  | none =>
    have hnil : σ.stack.filter (σ.marked v) = [] :=
      List.filter_eq_nil_iff.2 (List.find?_eq_none.1 hfind)
    rw [State.savedOf, hnil, List.map_nil] at hsaved
    rw [← hsaved]
    exact h
  | some a =>
    obtain ⟨hmarked, above, below, hstack, habove⟩ := List.find?_eq_some_iff_append.1 hfind
    have hunmarked : ∀ b ∈ above, σ.marked v b = false := fun b hb => by simpa using habove b hb
    have hname : (σ.heap a).v = v := by
      simp only [State.marked, Bool.and_eq_true, beq_iff_eq] at hmarked
      exact hmarked.1
    have hsplit := savedOf_split hstack hunmarked
    rw [hmarked, if_pos rfl, hsaved] at hsplit
    rw [hsplit]
    exact h.setMark hname hstack hunmarked false

/-- A step that loses nothing keeps the marks as the stacks say. -/
theorem Related.step {σ : State} {ρ : Reference} (h : Related σ ρ) {s : Step}
    (hs : Keeps σ s = true) : Related (σ.step s) (ρ.step s) := by
  cases s with
  | define v macroType str args => exact h.definePush v _
  | undef v =>
    by_cases hv : (σ.symDefine v).isSome
    · rw [State.step, if_pos hv]
      exact h.defineUndef v
    · have hnone : ρ.current v = none := by
        rw [← h.current, State.inForce, Option.not_isSome_iff_eq_none.1 hv, Option.map_none]
      rw [State.step, if_neg hv, Reference.step, ← hnone, Function.update_eq_self]
      exact h
  | pushMacro v =>
    cases hv : σ.symDefine v with
    | none => exact h.pushMacro_none hv
    | some a =>
      simp only [Keeps, hv, Option.all_some, Bool.and_eq_true, Bool.not_eq_true'] at hs
      exact h.pushMacro_some hv hs.1 hs.2
  | popMacro v => exact h.popMacro v

theorem Related.run {σ : State} {ρ : Reference} (h : Related σ ρ) {steps : List Step}
    (hs : KeepsAll σ steps = true) (k : Nat) :
    Related (σ.run (steps.take k)) (ρ.run (steps.take k)) := by
  induction steps generalizing σ ρ k with
  | nil =>
    rw [List.take_nil]
    exact h
  | cons s steps ih =>
    cases k with
    | zero => exact h
    | succ k =>
      rw [KeepsAll, Bool.and_eq_true] at hs
      exact ih (h.step hs.1) hs.2 k

theorem Related.builtins {σ : State} {ρ : Reference} (h : Related σ ρ) (builtins : List Nat) :
    Related (builtins.foldl (fun σ v => σ.definePush v ⟨0, none, []⟩) σ)
      { ρ with current := fun v => if v ∈ builtins then some ⟨0, none, []⟩ else ρ.current v } := by
  induction builtins generalizing σ ρ with
  | nil => simpa using h
  | cons w builtins ih =>
    have hrest := ih (h.definePush w ⟨0, none, []⟩)
    have hcurrent : (fun v => if v ∈ builtins then some ⟨0, none, []⟩ else
        Function.update ρ.current w (some ⟨0, none, []⟩) v) =
        fun v => if v ∈ w :: builtins then some (⟨0, none, []⟩ : Definition) else ρ.current v := by
      funext v
      by_cases hv : v = w
      · subst hv
        simp
      · simp [List.mem_cons, hv]
    dsimp only at hrest
    rwa [hcurrent] at hrest

theorem related_start (builtins : List Nat) :
    Related (State.start builtins) (Reference.start builtins) := by
  have hempty : Related ⟨fun _ => ⟨0, State.undefined, false⟩, [], fun _ => none⟩
      ⟨fun _ => none, fun _ => []⟩ :=
    ⟨List.nodup_nil, by simp, fun _ => rfl, fun _ => rfl, by simp⟩
  exact hempty.builtins builtins

/-- **Saved definitions.** In a run whose steps lose nothing, each name has after each step the
definition that stacks of saved definitions give it. -/
theorem inForce_eq_reference (builtins : List Nat) {steps : List Step}
    (hs : KeepsAll (State.start builtins) steps = true) (k v : Nat) :
    ((State.start builtins).run (steps.take k)).inForce v =
      ((Reference.start builtins).run (steps.take k)).current v :=
  ((related_start builtins).run hs k).current v

/-- A definition that is saved and restored, with the name undefined in between. -/
def nested : List Step :=
  [.define 256 0 [1] [], .pushMacro 256, .undef 256, .pushMacro 256, .define 256 0 [2] [],
    .popMacro 256, .popMacro 256]

theorem inForce_eq_reference_nested :
    KeepsAll (State.start [300]) nested = true ∧
      ((State.start [300]).run nested).inForce 256 = some ⟨0, some [1], []⟩ := by
  have hs : KeepsAll (State.start [300]) nested = true := by decide
  exact ⟨hs, inForce_eq_reference [300] hs 7 256⟩

/-- `push_macro` twice, with other definitions in between the `pop_macro`s. -/
def twicePushed : List Step :=
  [.define 256 0 [1] [], .pushMacro 256, .pushMacro 256, .define 256 0 [2] [], .popMacro 256,
    .define 256 0 [3] [], .popMacro 256]

/-- The second `pop_macro` restores nothing. -/
theorem twicePushed_lost :
    ((State.start []).run twicePushed).inForce 256 ≠
      ((Reference.start []).run twicePushed).current 256 := by
  decide

end TccRiscv64.Macro
