import TccRiscv64.Scope.SymTab

set_option autoImplicit false

/-! # Scopes

What the symbol tables are for: the declarations of the scopes that are open, each live or removed
from lookup, and those of the global scope. A name stands for its innermost live declaration. -/

namespace TccRiscv64.Scope

/-- A declaration in an inner scope. A symbol without a name has no key. -/
structure Entry where
  id : SymId
  key : Option Key
  live : Bool

/-- The declaration once it is removed. -/
def Entry.kill (e : Entry) : Entry := { e with live := false }

/-- The declarations, the last one first. -/
structure Scopes where
  /-- Those in inner scopes. -/
  entries : List Entry
  /-- Those in the global scope. -/
  globals : List (Key × SymId)
  /-- For each open scope, how many entries there were at its beginning. -/
  marks : List Nat
  inFunction : Bool

/-- The last declaration of a name in a list of global ones. -/
def globalLookup : List (Key × SymId) → Key → Option SymId
  | [], _ => none
  | (k', s) :: rest, k => if k' = k then some s else globalLookup rest k

/-- The innermost live declaration of a name among entries, and the global one `g` behind them. -/
def look (g : Key → Option SymId) (k : Key) : List Entry → Option SymId
  | [] => g k
  | e :: rest => if e.live ∧ e.key = some k then some e.id else look g k rest

namespace Scopes

variable (a : Scopes)

/-- The innermost live declaration of a name. -/
def lookup (k : Key) : Option SymId := look (globalLookup a.globals) k a.entries

/-- Whether a scope other than the global one is open. -/
def inner : Bool := a.inFunction || !a.marks.isEmpty

/-- A declaration in the innermost scope. -/
def declare (s : SymId) (key : Option Key) : Scopes :=
  if a.inner then { a with entries := { id := s, key, live := true } :: a.entries }
  else
    match key with
    | some k => { a with globals := (k, s) :: a.globals }
    | none => a

theorem declare_of_inner {a : Scopes} (h : a.inner = true) (s : SymId) (key : Option Key) :
    a.declare s key = { a with entries := { id := s, key, live := true } :: a.entries } := by
  unfold declare
  rw [if_pos h]

theorem declare_of_outer {a : Scopes} (h : a.inner = false) (s : SymId) (key : Option Key) :
    a.declare s key
      = { a with
          globals := match key with
            | some k => (k, s) :: a.globals
            | none => a.globals } := by
  unfold declare
  rw [if_neg (Bool.eq_false_iff.1 h)]
  cases key <;> rfl

/-- The entries after those above the first `m` have left their scope. -/
def cut (entries : List Entry) (m : Nat) (keep : Bool) : List Entry :=
  let n := entries.length - m
  (if keep then (entries.take n).map Entry.kill else []) ++ entries.drop n

def step : Op → Scopes
  | .push s v => a.declare s v.key
  | .pushEnum s v _ _ => a.declare s v.key
  | .copy s _ v => a.declare s v.key
  | .globalPush s tok =>
    if tok < symFirstAnom then { a with globals := (.ident tok, s) :: a.globals }
    else if a.inFunction then a
    else a.declare s none
  | .push2 onLocal s _ => if onLocal = a.inFunction then a.declare s none else a
  | .enter => { a with marks := a.entries.length :: a.marks }
  | .leave keep =>
    match a.marks with
    | [] => a
    | m :: marks =>
      -- what is left of a parameter list in the global scope is not looked at again
      let entries := if a.inFunction ∨ marks ≠ [] then cut a.entries m keep else []
      { a with entries, marks }
  | .enterFunction s _ => { a with inFunction := true, entries := [⟨s, none, true⟩] }
  | .startBody => a
  | .leaveFunction => { a with inFunction := false, entries := [] }

def init : Scopes where
  entries := []
  globals := []
  marks := []
  inFunction := false

end Scopes

end TccRiscv64.Scope
