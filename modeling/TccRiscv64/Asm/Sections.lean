import Mathlib.Data.BitVec
import Mathlib.Data.List.Basic
import Mathlib.Logic.Function.Basic

set_option autoImplicit false

/-! # Section directives

The assembler has no stack of sections: `.pushsection` stores the section to return to in the section
that it enters. The directives are compared with a reference that keeps a stack. A section is what
`find_section` finds under its name; one that is new has no bytes and no link. -/

namespace TccRiscv64.Asm.Sections

variable {Name : Type} [DecidableEq Name]

/-- The directives that change the section, and the emission of bytes. -/
inductive Directive (Name : Type)
  /-- `.section` -/
  | section (sname : Name)
  /-- `.text`, `.data` and `.bss` -/
  | use (sname : Name)
  | previous
  | pushsection (sname : Name)
  | popsection
  /-- Instructions and data of `n` bytes. -/
  | emit (n : ℕ)

/-! ## The assembler -/

inductive Failure
  | error (msg : String)
  /-- An `int` overflows. -/
  | undefined
  deriving DecidableEq, Repr

/-- `Section` -/
structure Section (Name : Type) where
  dataOffset : BitVec 64
  prev : Option Name

structure State (Name : Type) where
  sections : Name → Section Name
  curTextSection : Name
  lastTextSection : Option Name
  ind : BitVec 32

/-- At the beginning of a file. -/
def State.start (text : Name) : State Name where
  sections := fun _ => ⟨0#64, none⟩
  curTextSection := text
  lastTextSection := none
  ind := 0#32

/-- `use_section1` -/
def useSection1 (s : State Name) (sec : Name) : State Name :=
  let cur := { s.sections s.curTextSection with dataOffset := s.ind.signExtend 64 }
  let sections := Function.update s.sections s.curTextSection cur
  { s with sections, curTextSection := sec, ind := (sections sec).dataOffset.setWidth 32 }

/-- `sec->prev = prev` -/
def setPrev (s : State Name) (sec : Name) (prev : Option Name) : State Name :=
  { s with sections := Function.update s.sections sec { s.sections sec with prev } }

/-- `push_section` -/
def pushSection (s : State Name) (sec : Name) : State Name :=
  useSection1 (setPrev s sec (some s.curTextSection)) sec

/-- `pop_section` -/
def popSection (s : State Name) : Except Failure (State Name) :=
  match (s.sections s.curTextSection).prev with
  | none => .error (.error ".popsection without .pushsection")
  | some prev => .ok (useSection1 (setPrev s s.curTextSection none) prev)

/-- The cases of `asm_parse_directive`, and `ind += n`. -/
def step (s : State Name) : Directive Name → Except Failure (State Name)
  | .section sname => .ok (useSection1 { s with lastTextSection := some s.curTextSection } sname)
  | .use sname => .ok (useSection1 s sname)
  | .previous =>
    match s.lastTextSection with
    | none => .error (.error "no previous section referenced")
    | some last =>
      .ok { useSection1 s last with lastTextSection := some s.curTextSection }
  | .pushsection sname =>
    .ok (pushSection { s with lastTextSection := some s.curTextSection } sname)
  | .popsection => popSection s
  | .emit n =>
    if s.ind.toInt + n ≤ 2 ^ 31 - 1 then .ok { s with ind := s.ind + BitVec.ofNat 32 n }
    else .error .undefined

/-! ## The reference -/

/-- The current section, the one before it, the saved sections and the bytes of each section. -/
structure Reference (Name : Type) where
  cur : Name
  last : Option Name
  stack : List Name
  total : Name → ℕ

namespace Reference

def start (text : Name) : Reference Name := ⟨text, none, [], fun _ => 0⟩

/-- `none` is an error. -/
def step (r : Reference Name) : Directive Name → Option (Reference Name)
  | .section sname => some { r with last := some r.cur, cur := sname }
  | .use sname => some { r with cur := sname }
  | .previous => r.last.map fun last => { r with last := some r.cur, cur := last }
  | .pushsection sname =>
    some { r with stack := r.cur :: r.stack, last := some r.cur, cur := sname }
  | .popsection =>
    match r.stack with
    | [] => none
    | saved :: stack => some { r with stack, cur := saved }
  | .emit n => some { r with total := Function.update r.total r.cur (r.total r.cur + n) }

end Reference

/-- The same current section, and the offset of every other section is the number of its bytes. -/
structure Same (s : State Name) (r : Reference Name) : Prop where
  cur : s.curTextSection = r.cur
  offset : ∀ sec, sec ≠ s.curTextSection → (s.sections sec).dataOffset.toNat = r.total sec

/-- The assembler follows the reference: after each step it is in the same section, or both report an
error. -/
def Follows (s : State Name) (r : Reference Name) : List (Directive Name) → Prop
  | [] => True
  | d :: ds =>
    match step s d, r.step d with
    | .ok s', some r' => Same s' r' ∧ Follows s' r' ds
    | .error (.error _), none => True
    | _, _ => False

/-! ## When it does -/

/-- Where the last `.pushsection` of each section was issued, unless a `.popsection` was executed in
the section since. -/
def entered (r : Reference Name) (e : Name → Option Name) : Directive Name → Name → Option Name
  | .pushsection sname => Function.update e sname (some r.cur)
  | .popsection => Function.update e r.cur none
  | _ => e

/-- A `.popsection` is executed where the last `.pushsection` of the current section saved what is on
top of the stack, and sections do not outgrow an `int`. -/
def Matched (r : Reference Name) (e : Name → Option Name) : Directive Name → Prop
  | .popsection => e r.cur = r.stack.head?
  | .emit n => r.total r.cur + n ≤ 2 ^ 31 - 1
  | _ => True

instance (r : Reference Name) (e : Name → Option Name) (d : Directive Name) :
    Decidable (Matched r e d) :=
  match d with
  | .popsection => inferInstanceAs (Decidable (e r.cur = r.stack.head?))
  | .emit n => inferInstanceAs (Decidable (r.total r.cur + n ≤ 2 ^ 31 - 1))
  | .section _ | .use _ | .previous | .pushsection _ => inferInstanceAs (Decidable True)

/-- Every directive is `Matched`, up to the end or an error. -/
def AllMatched (r : Reference Name) (e : Name → Option Name) : List (Directive Name) → Prop
  | [] => True
  | d :: ds => Matched r e d ∧
    match r.step d with
    | none => True
    | some r' => AllMatched r' (entered r e d) ds

instance decidableAllMatched (r : Reference Name) (e : Name → Option Name) :
    (ds : List (Directive Name)) → Decidable (AllMatched r e ds)
  | [] => inferInstanceAs (Decidable True)
  | d :: ds =>
    match h : r.step d with
    | none => decidable_of_iff (Matched r e d) (by rw [AllMatched, h, and_true])
    | some r' =>
      have := decidableAllMatched r' (entered r e d) ds
      decidable_of_iff (Matched r e d ∧ AllMatched r' (entered r e d) ds) (by rw [AllMatched, h])

/-- The assembler and the reference after the same directives. -/
structure Sim (s : State Name) (r : Reference Name) (e : Name → Option Name) : Prop extends
    Same s r where
  last : s.lastTextSection = r.last
  link : ∀ sec, (s.sections sec).prev = e sec
  ind : s.ind.toNat = r.total r.cur
  small : ∀ sec, r.total sec < 2 ^ 31

omit [DecidableEq Name] in
theorem sim_start (text : Name) : Sim (State.start text) (.start text) fun _ => none where
  cur := rfl
  offset _ _ := rfl
  last := rfl
  link _ := rfl
  ind := rfl
  small _ := by
    show 0 < 2 ^ 31
    decide

theorem toNat_signExtend {a : BitVec 32} (h : a.toNat < 2 ^ 31) :
    (a.signExtend 64).toNat = a.toNat := by
  have hmsb : a.msb = false := BitVec.msb_eq_false_iff_two_mul_lt.2 (by omega)
  rw [BitVec.signExtend_eq_setWidth_of_msb_false hmsb, BitVec.toNat_setWidth]
  omega

theorem prev_useSection1 (s : State Name) (sec x : Name) :
    ((useSection1 s sec).sections x).prev = (s.sections x).prev := by
  rw [useSection1]
  dsimp only
  by_cases hx : x = s.curTextSection
  · subst hx
    rw [Function.update_self]
  · rw [Function.update_of_ne hx]

theorem dataOffset_setPrev (s : State Name) (sec : Name) (prev : Option Name) (x : Name) :
    ((setPrev s sec prev).sections x).dataOffset = (s.sections x).dataOffset := by
  rw [setPrev]
  dsimp only
  by_cases hx : x = sec
  · subst hx
    rw [Function.update_self]
  · rw [Function.update_of_ne hx]

theorem prev_setPrev (s : State Name) (sec : Name) (prev : Option Name) (x : Name) :
    ((setPrev s sec prev).sections x).prev = if x = sec then prev else (s.sections x).prev := by
  rw [setPrev]
  dsimp only
  split
  · rename_i hx
    rw [hx, Function.update_self]
  · rename_i hx
    rw [Function.update_of_ne hx]

section Steps

variable {s : State Name} {r : Reference Name} {e : Name → Option Name}

/-- Leaving the section for another one. -/
theorem Sim.useSection1 (h : Sim s r e) (sec : Name) :
    Sim (useSection1 s sec) { r with cur := sec } e := by
  have hind : s.ind.toNat < 2 ^ 31 := by
    rw [h.ind]
    exact h.small r.cur
  have hoffset (x : Name) : (Function.update s.sections s.curTextSection
      { s.sections s.curTextSection with dataOffset := s.ind.signExtend 64 } x).dataOffset.toNat =
      r.total x := by
    by_cases hx : x = s.curTextSection
    · subst hx
      rw [Function.update_self, toNat_signExtend hind, h.ind, h.cur]
    · rw [Function.update_of_ne hx, h.offset x hx]
  refine ⟨⟨rfl, fun x _ => hoffset x⟩, h.last, fun x => ?_, ?_, h.small⟩
  · rw [prev_useSection1, h.link]
  · have hlt := h.small sec
    show ((Function.update s.sections s.curTextSection _ sec).dataOffset.setWidth 32).toNat = _
    rw [BitVec.toNat_setWidth, hoffset]
    exact Nat.mod_eq_of_lt (by omega)

theorem Sim.setPrev (h : Sim s r e) (sec : Name) (prev : Option Name) :
    Sim (setPrev s sec prev) r (Function.update e sec prev) := by
  refine ⟨⟨h.cur, fun x hx => ?_⟩, h.last, fun x => ?_, h.ind, h.small⟩
  · rw [dataOffset_setPrev, h.offset x hx]
  · rw [prev_setPrev, Function.update_apply, h.link]

omit [DecidableEq Name] in
theorem Sim.setLast (h : Sim s r e) (last : Option Name) :
    Sim { s with lastTextSection := last } { r with last := last } e :=
  ⟨⟨h.cur, h.offset⟩, rfl, h.link, h.ind, h.small⟩

theorem Sim.emit (h : Sim s r e) {n : ℕ} (hmax : r.total r.cur + n ≤ 2 ^ 31 - 1) :
    Sim { s with ind := s.ind + BitVec.ofNat 32 n }
      { r with total := Function.update r.total r.cur (r.total r.cur + n) } e := by
  refine ⟨⟨h.cur, fun x hx => ?_⟩, h.last, h.link, ?_, fun x => ?_⟩
  · have hx : x ≠ s.curTextSection := hx
    rw [h.offset x hx]
    exact (Function.update_of_ne (h.cur ▸ hx) ..).symm
  · show (s.ind + BitVec.ofNat 32 n).toNat = Function.update r.total r.cur _ r.cur
    rw [Function.update_self, BitVec.toNat_add, BitVec.toNat_ofNat, h.ind]
    omega
  · have hsmall := h.small x
    show Function.update r.total r.cur _ x < 2 ^ 31
    by_cases hx : x = r.cur
    · rw [hx, Function.update_self]
      omega
    · rwa [Function.update_of_ne hx]

omit [DecidableEq Name] in
/-- The test for an overflow. -/
theorem Sim.ind_le_iff (h : Sim s r e) (n : ℕ) :
    s.ind.toInt + n ≤ 2 ^ 31 - 1 ↔ r.total r.cur + n ≤ 2 ^ 31 - 1 := by
  have hsmall := h.small r.cur
  have hind := h.ind
  rw [BitVec.toInt_eq_toNat_of_lt (by omega)]
  omega

/-- A matched directive that the reference accepts is carried out like there. -/
theorem Sim.step_ok (h : Sim s r e) {d : Directive Name} {r' : Reference Name}
    (hm : Matched r e d) (hr : r.step d = some r') :
    ∃ s', step s d = .ok s' ∧ Sim s' r' (entered r e d) := by
  cases d with
  | «section» sname =>
    cases hr
    refine ⟨_, rfl, ?_⟩
    have hlast := (h.setLast (some s.curTextSection)).useSection1 sname
    rwa [h.cur] at hlast ⊢
  | use sname =>
    cases hr
    exact ⟨_, rfl, h.useSection1 sname⟩
  | previous =>
    obtain ⟨last, hlast, rfl⟩ := Option.map_eq_some_iff.1 hr
    refine ⟨_, by rw [step, h.last, hlast], ?_⟩
    have hnext := (h.useSection1 last).setLast (some s.curTextSection)
    rwa [h.cur] at hnext ⊢
  | pushsection sname =>
    cases hr
    refine ⟨_, rfl, ?_⟩
    have hlast := h.setLast (some s.curTextSection)
    have hlink := (hlast.setPrev sname (some s.curTextSection)).useSection1 sname
    rw [h.cur] at hlink
    rw [pushSection, h.cur]
    exact ⟨⟨rfl, hlink.offset⟩, hlink.last, hlink.link, hlink.ind, hlink.small⟩
  | popsection =>
    have hprev : (s.sections s.curTextSection).prev = r.stack.head? := by
      rw [h.link, h.cur]
      exact hm
    rw [Reference.step] at hr
    cases hstack : r.stack with
    | nil =>
      rw [hstack] at hr
      cases hr
    | cons saved stack =>
      rw [hstack] at hr hprev
      cases hr
      refine ⟨_, by rw [step, popSection, hprev, List.head?_cons], ?_⟩
      have hlink := (h.setPrev s.curTextSection none).useSection1 saved
      rw [h.cur] at hlink ⊢
      exact ⟨⟨rfl, hlink.offset⟩, hlink.last, hlink.link, hlink.ind, hlink.small⟩
  | emit n =>
    cases hr
    exact ⟨_, if_pos ((h.ind_le_iff n).2 hm), h.emit hm⟩

/-- A matched directive that the reference refuses is reported. -/
theorem Sim.step_error (h : Sim s r e) {d : Directive Name} (hm : Matched r e d)
    (hr : r.step d = none) : ∃ msg, step s d = .error (.error msg) := by
  cases d with
  | «section» sname => cases hr
  | use sname => cases hr
  | previous =>
    have hlast := Option.map_eq_none_iff.1 hr
    exact ⟨_, by rw [step, h.last, hlast]⟩
  | pushsection sname => cases hr
  | popsection =>
    have hprev : (s.sections s.curTextSection).prev = r.stack.head? := by
      rw [h.link, h.cur]
      exact hm
    rw [Reference.step] at hr
    cases hstack : r.stack with
    | nil =>
      rw [hstack] at hprev
      exact ⟨_, by rw [step, popSection, hprev, List.head?_nil]⟩
    | cons saved stack =>
      rw [hstack] at hr
      cases hr
  | emit n => cases hr

/-- A directive that is not matched parts the two. -/
theorem Sim.not_follows (h : Sim s r e) {d : Directive Name} (hm : ¬ Matched r e d)
    (ds : List (Directive Name)) : ¬ Follows s r (d :: ds) := by
  cases d with
  | «section» sname => exact absurd trivial hm
  | use sname => exact absurd trivial hm
  | previous => exact absurd trivial hm
  | pushsection sname => exact absurd trivial hm
  | popsection =>
    have hne : (s.sections s.curTextSection).prev ≠ r.stack.head? := by
      rw [h.link, h.cur]
      exact hm
    rw [Follows, step, popSection, Reference.step]
    cases hprev : (s.sections s.curTextSection).prev with
    | none =>
      cases hstack : r.stack with
      | nil =>
        rw [hprev, hstack] at hne
        exact absurd rfl hne
      | cons saved stack => exact id
    | some prev =>
      cases hstack : r.stack with
      | nil => exact id
      | cons saved stack =>
        rw [hprev, hstack] at hne
        rintro ⟨hsame, -⟩
        have hcur : prev = saved := hsame.cur
        exact hne (congrArg some hcur)
  | emit n =>
    have hstep : step s (.emit n) = .error .undefined := if_neg fun hle => hm ((h.ind_le_iff n).1 hle)
    rw [Follows, hstep]
    exact id

end Steps

theorem Sim.follows_iff {s : State Name} {r : Reference Name} {e : Name → Option Name}
    (h : Sim s r e) (ds : List (Directive Name)) : Follows s r ds ↔ AllMatched r e ds := by
  induction ds generalizing s r e with
  | nil => exact Iff.rfl
  | cons d ds ih =>
    by_cases hm : Matched r e d
    · rw [AllMatched, and_iff_right hm]
      cases hr : r.step d with
      | none =>
        obtain ⟨msg, hs⟩ := h.step_error hm hr
        rw [Follows, hs, hr]
      | some r' =>
        obtain ⟨s', hs, hsim⟩ := h.step_ok hm hr
        rw [Follows, hs, hr]
        dsimp only
        rw [and_iff_right hsim.toSame, ih hsim]
    · exact iff_of_false (h.not_follows hm ds) fun hall => hm hall.1

/-- **The assembler follows the reference exactly in the runs whose `.popsection`s match.** -/
theorem follows_iff_allMatched (text : Name) (ds : List (Directive Name)) :
    Follows (State.start text) (.start text) ds ↔ AllMatched (.start text) (fun _ => none) ds :=
  (sim_start text).follows_iff ds

/-- Sections pushed inside each other. -/
example : AllMatched (.start 0) (fun _ => none)
    [.pushsection 1, .emit 4, .pushsection 2, .emit 8, .popsection, .popsection] := by
  decide

/-- Pushing a section twice, and leaving a pushed section with `.section` before `.popsection`. -/
theorem not_follows_pushTwice :
    ¬ Follows (State.start 0) (.start 0)
      [.pushsection 1, .emit 4, .pushsection 1, .popsection, .popsection] ∧
    ¬ Follows (State.start 0) (.start 0) [.pushsection 1, .section 2, .popsection] := by
  rw [(sim_start 0).follows_iff, (sim_start 0).follows_iff]
  decide

end TccRiscv64.Asm.Sections
