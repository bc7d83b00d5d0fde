import TccRiscv64.Lex.IntConst

set_option autoImplicit false

/-! # The text of floating constants

The floating constants of the grammar, and those that `parse_number` accepts. -/

namespace TccRiscv64.Lex

/-! ## The grammar -/

/-- An exponent with one of the letters `e` and `e'`. -/
def IsExponent (e e' : Byte) (text : List Byte) : Prop :=
  ∃ c sign digits, text = c :: sign ++ digits ∧ (c = e ∨ c = e') ∧
    sign ∈ [[], [ch '+'], [ch '-']] ∧ digits ≠ [] ∧ ∀ d ∈ digits, isNum d = true

def IsFloatSuffix (s : List Byte) : Prop :=
  s ∈ [[], [ch 'f'], [ch 'F'], [ch 'l'], [ch 'L']]

/-- A decimal floating constant: digits with a point or an exponent. -/
def IsDecFloat (text : List Byte) : Prop :=
  ∃ int frac exp s, (∀ d ∈ int ++ frac, isNum d = true) ∧ int ++ frac ≠ [] ∧ IsFloatSuffix s ∧
    (text = int ++ ch '.' :: frac ++ exp ++ s ∧ (exp = [] ∨ IsExponent (ch 'e') (ch 'E') exp) ∨
      text = int ++ exp ++ s ∧ frac = [] ∧ IsExponent (ch 'e') (ch 'E') exp)

/-- The parts of a hexadecimal or binary floating constant. -/
structure BinaryFloat (tccExt : Bool) where
  base : Base
  x : Byte
  int : List Byte
  /-- the digits behind the point, if there is one -/
  frac : Option (List Byte)
  p : Byte
  sign : List Byte
  exp : List Byte
  suffix : List Byte
  x_ok : base = .hex ∧ (x = ch 'x' ∨ x = ch 'X') ∨
    base = .bin ∧ tccExt = true ∧ (x = ch 'b' ∨ x = ch 'B')
  int_ok : ∀ d ∈ int, isDigitOf base.num d = true
  frac_ok : ∀ d ∈ frac.getD [], isDigitOf base.num d = true
  p_ok : p = ch 'p' ∨ p = ch 'P'
  sign_ok : sign ∈ [[], [ch '+'], [ch '-']]
  exp_ok : exp ≠ [] ∧ ∀ d ∈ exp, isNum d = true
  suffix_ok : IsFloatSuffix suffix

namespace BinaryFloat

variable {tccExt : Bool} (f : BinaryFloat tccExt)

/-- The point and the digits behind it. -/
def fracText : List Byte :=
  match f.frac with
  | none => []
  | some digits => ch '.' :: digits

/-- The exponent. -/
def expText : List Byte := f.p :: f.sign ++ f.exp

/-- The text behind the leading zero. -/
def text : List Byte := f.x :: f.int ++ f.fracText ++ f.expText ++ f.suffix

/-- All digits of the significand. -/
def digits : List Byte := f.int ++ f.frac.getD []

end BinaryFloat

/-! ## Suffix and exponent -/

theorem toup_F_iff : ∀ c, toup c = ch 'F' ↔ c = ch 'f' ∨ c = ch 'F' := by
  decide

theorem floatSuffix_nil {text : List Byte} {kind : FloatKind} (h : floatSuffix text = (kind, [])) :
    IsFloatSuffix text := by
  cases text with
  | nil => simp [IsFloatSuffix]
  | cons c rest =>
    rw [floatSuffix] at h
    split_ifs at h with hf hl
    · obtain rfl := (Prod.ext_iff.1 h).2
      rcases (toup_F_iff c).1 hf with rfl | rfl <;> simp [IsFloatSuffix]
    · obtain rfl := (Prod.ext_iff.1 h).2
      rcases (toup_eq_iff c).1.1 hl with rfl | rfl <;> simp [IsFloatSuffix]
    · cases (Prod.ext_iff.1 h).2

theorem floatSuffix_letter {c : Byte} {s : List Byte} (h : IsFloatSuffix (c :: s)) :
    isNum c = false ∧ c ≠ ch 'e' ∧ c ≠ ch 'E' := by
  simp only [IsFloatSuffix, List.mem_cons, List.cons.injEq, List.not_mem_nil, or_false,
    reduceCtorEq, false_or] at h
  rcases h with ⟨rfl, -⟩ | ⟨rfl, -⟩ | ⟨rfl, -⟩ | ⟨rfl, -⟩ <;> decide

theorem expSign_eq (text : List Byte) :
    ∃ sign ∈ [[], [ch '+'], [ch '-']], text = sign ++ (expSign text).2 := by
  cases text with
  | nil => exact ⟨[], by simp, rfl⟩
  | cons c rest =>
    rw [expSign]
    split_ifs with h1 h2
    · exact ⟨[ch '+'], by simp, by rw [h1]; rfl⟩
    · exact ⟨[ch '-'], by simp, by rw [h2]; rfl⟩
    · exact ⟨[], by simp, rfl⟩

theorem expDigits_eq (v : Option Int) (text : List Byte) :
    ∃ ds, text = ds ++ (expDigits v text).2 ∧ (∀ d ∈ ds, isNum d = true) ∧
      (text.head?.any isNum = true → ds ≠ []) := by
  induction text generalizing v with
  | nil => exact ⟨[], rfl, by simp, by simp⟩
  | cons c rest ih =>
    rw [expDigits]
    split
    · next hc =>
      obtain ⟨ds, heq, hds, -⟩ := ih (v.bind fun n => do
        checkedInt ((← checkedInt ((← checkedInt (n * 10)) + c.toNat)) - 0x30))
      refine ⟨c :: ds, ?_, List.forall_mem_cons.2 ⟨hc, hds⟩, fun _ => List.cons_ne_nil _ _⟩
      rw [List.cons_append, ← heq]
    · next hc => exact ⟨[], rfl, by simp, fun h => absurd h (by simpa using hc)⟩

theorem any_of_getD {text : List Byte} (h : ¬ (text.head?.map isNum).getD false = false) :
    text.head?.any isNum = true := by
  cases text with
  | nil => simp at h
  | cons c rest => simpa using h

/-- The exponent that is accepted. -/
theorem hexExponent_ok {bn : Bn} {fracBits : Option Int} {text : List Byte} {x : HexFloat}
    (h : hexExponent bn fracBits text = .ok (x, [])) :
    ∃ p sign exp s, text = p :: sign ++ exp ++ s ∧ (p = ch 'p' ∨ p = ch 'P') ∧
      sign ∈ [[], [ch '+'], [ch '-']] ∧ exp ≠ [] ∧ (∀ d ∈ exp, isNum d = true) ∧
      IsFloatSuffix s := by
  cases text with
  | nil => cases h
  | cons p rest =>
    rw [hexExponent] at h
    split at h
    · cases h
    · next hp =>
      obtain ⟨sign, hsign, heq⟩ := expSign_eq rest
      obtain ⟨ds, hds, hnum, hne⟩ := expDigits_eq (some 0) (expSign rest).2
      dsimp only at h
      split at h
      · cases h
      · next hhead =>
        refine ⟨p, sign, ds, _, ?_, by tauto, hsign, hne (any_of_getD hhead), hnum,
          floatSuffix_nil (Prod.ext rfl (Prod.ext_iff.1 (Except.ok.inj h)).2)⟩
        rw [List.cons_append, List.cons_append, List.append_assoc, ← hds, ← heq]

/-- The digits behind the point that are accepted. -/
theorem fracDigits_ok {b shift : Nat} {bn bn' : Bn} {n n' : Option Int} {text rest : List Byte}
    (h : fracDigits b shift bn n text = .ok (bn', n', rest)) :
    ∃ ds, text = ds ++ rest ∧ ∀ d ∈ ds, isDigitOf b d = true := by
  induction text generalizing bn n with
  | nil =>
    cases h
    exact ⟨[], rfl, by simp⟩
  | cons c text ih =>
    rw [fracDigits] at h
    split at h
    · cases h
      exact ⟨[], rfl, by simp⟩
    · next t hc =>
      split at h
      · cases h
      · next hlt =>
        obtain ⟨ds, rfl, hds⟩ := ih h
        refine ⟨c :: ds, rfl, List.forall_mem_cons.2 ⟨?_, hds⟩⟩
        simpa [isDigitOf, hc] using hlt

/-- What is accepted behind the digits of a hexadecimal or binary floating constant. -/
theorem hexFloat_ok {b : Nat} {buf text : List Byte} {x : HexFloat}
    (h : hexFloat b buf text = .ok (x, [])) :
    ∃ frac : Option (List Byte), ∃ p sign exp s,
      text = (match frac with
        | none => []
        | some digits => ch '.' :: digits) ++ (p :: sign ++ exp) ++ s ∧
      (∀ d ∈ frac.getD [], isDigitOf b d = true) ∧ (p = ch 'p' ∨ p = ch 'P') ∧
      sign ∈ [[], [ch '+'], [ch '-']] ∧ exp ≠ [] ∧ (∀ d ∈ exp, isNum d = true) ∧
      IsFloatSuffix s := by
  rw [hexFloat] at h
  dsimp only at h
  split at h
  · next hdot =>
    obtain ⟨⟨bn, n, rest⟩, hfrac, hexp⟩ := bind_eq_ok h
    obtain ⟨ds, hds, hdigits⟩ := fracDigits_ok hfrac
    obtain ⟨p, sign, exp, s, rfl, hp, hsign, hne, hnum, hs⟩ := hexExponent_ok hexp
    refine ⟨some ds, p, sign, exp, s, ?_, hdigits, hp, hsign, hne, hnum, hs⟩
    cases text with
    | nil => cases hdot
    | cons c text =>
      obtain rfl := Option.some.inj hdot
      rw [List.tail_cons] at hds
      simp only [hds, List.cons_append, List.append_assoc]
  · obtain ⟨p, sign, exp, s, rfl, hp, hsign, hne, hnum, hs⟩ := hexExponent_ok h
    exact ⟨none, p, sign, exp, s, by simp, by simp, hp, hsign, hne, hnum, hs⟩

theorem storeSign_ok {buf buf' text rest : List Byte}
    (h : storeSign buf text = .ok (buf', rest)) :
    ∃ sign ∈ [[], [ch '+'], [ch '-']], text = sign ++ rest := by
  cases text with
  | nil =>
    cases h
    exact ⟨[], by simp, rfl⟩
  | cons c text =>
    rw [storeSign] at h
    split at h
    · next hc =>
      obtain ⟨buf1, -, h⟩ := bind_eq_ok h
      cases h
      rcases hc with rfl | rfl
      · exact ⟨[ch '-'], by simp, rfl⟩
      · exact ⟨[ch '+'], by simp, rfl⟩
    · cases h
      exact ⟨[], by simp, rfl⟩

theorem decExponent_ok {buf buf' text rest : List Byte}
    (h : decExponent buf text = .ok (buf', rest)) :
    ∃ exp, text = exp ++ rest ∧ (exp = [] ∨ IsExponent (ch 'e') (ch 'E') exp) := by
  cases text with
  | nil =>
    cases h
    exact ⟨[], rfl, .inl rfl⟩
  | cons c text =>
    rw [decExponent] at h
    split at h
    · next he =>
      obtain ⟨buf1, -, h⟩ := bind_eq_ok h
      obtain ⟨⟨buf2, text2⟩, hsign, hrest⟩ := bind_eq_ok h
      obtain ⟨sign, hmem, rfl⟩ := storeSign_ok hsign
      dsimp only at hrest
      split at hrest
      · cases hrest
      · next hhead =>
        obtain ⟨ds, -, rfl, hds, hstop⟩ := storeWhile_ok hrest
        refine ⟨c :: sign ++ ds, by simp, .inr ⟨c, sign, ds, rfl, he, hmem, ?_, hds⟩⟩
        rintro rfl
        exact absurd (any_of_getD hhead) (by simpa using hstop)
    · cases h
      exact ⟨[], rfl, .inl rfl⟩

/-- What is accepted of a decimal floating constant from the digits behind its point on. -/
theorem decFloat_ok {buf text : List Byte} {x : FloatKind × List Byte}
    (h : decFloat buf text = .ok (x, [])) :
    ∃ frac exp s, text = frac ++ exp ++ s ∧ (∀ d ∈ frac, isNum d = true) ∧
      (exp = [] ∨ IsExponent (ch 'e') (ch 'E') exp) ∧ IsFloatSuffix s := by
  obtain ⟨⟨buf1, text1⟩, hstore, h1⟩ := bind_eq_ok h
  obtain ⟨⟨buf2, text2⟩, hexp, h2⟩ := bind_eq_ok h1
  obtain ⟨frac, -, rfl, hfrac, -⟩ := storeWhile_ok hstore
  obtain ⟨exp, rfl, hok⟩ := decExponent_ok hexp
  refine ⟨frac, exp, text2, by simp, hfrac, hok, ?_⟩
  exact floatSuffix_nil (Prod.ext rfl (Prod.ext_iff.1 (Except.ok.inj h2)).2)

end TccRiscv64.Lex
