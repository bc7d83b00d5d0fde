import TccRiscv64.Lex.FloatText

set_option autoImplicit false

/-! # Which numbers are constants

A preprocessing number that `parse_number` accepts is a constant of the grammar, but for two slips in
its checks of integer constants and one more for floating ones. -/

namespace TccRiscv64.Lex

variable {tccExt : Bool}

/-! ## Constants and slips -/

/-- An integer constant of the grammar. -/
def IsIntConst (tccExt : Bool) (text : List Byte) : Prop :=
  ∃ base digits s unsigned longs, IntText tccExt base digits s text ∧ HasDigits base digits ∧
    IsSuffix unsigned longs s

/-- A constant of the grammar. -/
def IsConstant (tccExt : Bool) (text : List Byte) : Prop :=
  IsIntConst tccExt text ∨ IsDecFloat text ∨
    ∃ f : BinaryFloat tccExt, ch '0' :: f.text = text ∧ f.digits ≠ []

/-- A number whose suffix has two `l`s that differ or are apart, and at most one `u`. -/
def HasMixedSuffix (tccExt : Bool) (text : List Byte) : Prop :=
  ∃ base digits s, IntText tccExt base digits s text ∧ Accepted s ∧
    ∀ unsigned longs, ¬ IsSuffix unsigned longs s

/-- A number without any digit behind its prefix. -/
def LacksDigits (tccExt : Bool) (text : List Byte) : Prop :=
  (∃ base s, IntText tccExt base [] s text ∧ (base = .hex ∨ base = .bin) ∧ Accepted s) ∨
    ∃ f : BinaryFloat tccExt, ch '0' :: f.text = text ∧ f.digits = []

/-- A text that starts like a preprocessing number. -/
def StartsNumber (t : Byte) (rest : List Byte) : Prop :=
  isNum t = true ∨ t = ch '.' ∧ rest.head?.any isNum = true

/-! ## The characters of constants -/

/-- The characters that a constant may have. -/
def isNumberChar (c : Byte) : Bool :=
  (digitValue c).isSome || isL c || isU c || [ch '.', ch 'e', ch 'E', ch 'p', ch 'P', ch 'x', ch 'X',
    ch 'b', ch 'B', ch 'f', ch 'F', ch '+', ch '-'].contains c

theorem isNumberChar_of_isDigitOf {b : Nat} {c : Byte} (h : isDigitOf b c = true) :
    isNumberChar c = true := by
  unfold isDigitOf at h
  cases hc : digitValue c with
  | none => simp [hc] at h
  | some t => simp [isNumberChar, hc]

theorem isNumberChar_of_isNum : ∀ c, isNum c = true → isNumberChar c = true := by
  decide +kernel

theorem isNumberChar_of_letter {c : Byte} (h : isL c = true ∨ isU c = true) :
    isNumberChar c = true := by
  rcases h with h | h <;> simp [isNumberChar, h]

theorem intText_chars {base : Base} {digits s text : List Byte}
    (h : IntText tccExt base digits s text) (hs : ∀ c ∈ s, isL c = true ∨ isU c = true) :
    ∀ c ∈ text, isNumberChar c = true := by
  have hsplit {b : Nat} {ds : List Byte} (hds : ∀ d ∈ ds, isDigitOf b d = true) :
      ∀ c ∈ ds ++ s, isNumberChar c = true := fun c hc =>
    (List.mem_append.1 hc).elim (fun hc => isNumberChar_of_isDigitOf (hds c hc))
      fun hc => isNumberChar_of_letter (hs c hc)
  cases h with
  | dec _ hds => exact hsplit hds
  | oct hds => exact List.forall_mem_cons.2 ⟨by decide, hsplit hds⟩
  | hex hx hds =>
    refine List.forall_mem_cons.2 ⟨by decide, List.forall_mem_cons.2 ⟨?_, hsplit hds⟩⟩
    rcases hx with rfl | rfl <;> decide
  | bin _ hx hds =>
    refine List.forall_mem_cons.2 ⟨by decide, List.forall_mem_cons.2 ⟨?_, hsplit hds⟩⟩
    rcases hx with rfl | rfl <;> decide

theorem floatSuffix_chars {s : List Byte} (h : IsFloatSuffix s) :
    ∀ c ∈ s, isNumberChar c = true := by
  revert s
  unfold IsFloatSuffix
  decide

theorem sign_chars {sign : List Byte} (h : sign ∈ [[], [ch '+'], [ch '-']]) :
    ∀ c ∈ sign, isNumberChar c = true := by
  revert sign
  decide

theorem exponent_chars {e e' : Byte} (he : isNumberChar e = true) (he' : isNumberChar e' = true)
    {text : List Byte} (h : IsExponent e e' text) : ∀ c ∈ text, isNumberChar c = true := by
  obtain ⟨c, sign, ds, rfl, hc, hsign, -, hds⟩ := h
  refine List.forall_mem_cons.2 ⟨?_, fun d hd => ?_⟩
  · rcases hc with rfl | rfl
    · exact he
    · exact he'
  · exact (List.mem_append.1 hd).elim (sign_chars hsign d) fun hd => isNumberChar_of_isNum d (hds d hd)

theorem decFloat_chars {text : List Byte} (h : IsDecFloat text) :
    ∀ c ∈ text, isNumberChar c = true := by
  obtain ⟨int, frac, exp, s, hds, -, hs, hform⟩ := h
  have hnum (c : Byte) (hc : c ∈ int ∨ c ∈ frac) : isNumberChar c = true :=
    isNumberChar_of_isNum c (hds c (List.mem_append.2 hc))
  have hexp (he : IsExponent (ch 'e') (ch 'E') exp) := exponent_chars (by decide) (by decide) he
  have hsuffix := floatSuffix_chars hs
  intro c hc
  rcases hform with ⟨rfl, hnone | he⟩ | ⟨rfl, -, he⟩
  · subst hnone
    simp only [List.append_nil, List.mem_append, List.mem_cons] at hc
    rcases hc with (hc | rfl | hc) | hc
    · exact hnum c (.inl hc)
    · decide
    · exact hnum c (.inr hc)
    · exact hsuffix c hc
  · simp only [List.mem_append, List.mem_cons] at hc
    rcases hc with ((hc | rfl | hc) | hc) | hc
    · exact hnum c (.inl hc)
    · decide
    · exact hnum c (.inr hc)
    · exact hexp he c hc
    · exact hsuffix c hc
  · simp only [List.mem_append] at hc
    rcases hc with (hc | hc) | hc
    · exact hnum c (.inl hc)
    · exact hexp he c hc
    · exact hsuffix c hc

theorem binaryFloat_chars (f : BinaryFloat tccExt) :
    ∀ c ∈ ch '0' :: f.text, isNumberChar c = true := by
  have hx : isNumberChar f.x = true := by
    rcases f.x_ok with ⟨-, h⟩ | ⟨-, -, h⟩ <;> rcases h with h | h <;> rw [h] <;> decide
  have hfrac : ∀ c ∈ f.fracText, isNumberChar c = true := by
    have hok := f.frac_ok
    unfold BinaryFloat.fracText
    cases hf : f.frac with
    | none => simp
    | some ds =>
      rw [hf] at hok
      exact List.forall_mem_cons.2 ⟨by decide, fun c hc => isNumberChar_of_isDigitOf (hok c hc)⟩
  have hform : IsExponent (ch 'p') (ch 'P') f.expText :=
    ⟨f.p, f.sign, f.exp, rfl, f.p_ok, f.sign_ok, f.exp_ok⟩
  have hexp := exponent_chars (by decide) (by decide) hform
  intro c hc
  simp only [BinaryFloat.text, BinaryFloat.expText, List.mem_cons, List.mem_append] at hc hexp
  rcases hc with rfl | (((rfl | hc) | hc) | hc) | hc
  · decide
  · exact hx
  · exact isNumberChar_of_isDigitOf (f.int_ok c hc)
  · exact hfrac c hc
  · exact hexp c (by simpa [or_assoc] using hc)
  · exact floatSuffix_chars f.suffix_ok c hc

/-! ## What is accepted -/

theorem isNum_eq : ∀ c, isNum c = isDigitOf 10 c := by
  decide +kernel

theorem isNum_ne : ∀ c, isNum c = true → c ≠ ch '.' ∧ c ≠ ch 'e' ∧ c ≠ ch 'E' ∧ c ≠ ch 'f' ∧
    c ≠ ch 'F' ∧ c ≠ ch 'l' ∧ c ≠ ch 'L' := by
  decide +kernel

theorem accepted_of_intSuffix {p1 s : List Byte} {l u : Nat}
    (h : intSuffix p1 0 0 s = .ok (l, u, [])) : Accepted s := by
  obtain ⟨hletters, rfl, hl, rfl, hu⟩ := (intSuffix_eq_ok_iff p1 s (by omega) (by omega)).1 h
  exact ⟨hletters, by omega, by omega⟩

/-- What is accepted behind the digits of a number. -/
theorem numberRest_ok {b : Nat} {buf text : List Byte} {x : Number}
    (h : numberRest b buf text = .ok (x, [])) :
    (∃ n, intNumber b buf text = .ok (n, [])) ∨
      (b ≠ 10 ∧ ∃ y, hexFloat b buf text = .ok (y, [])) ∨
      b = 10 ∧ ∃ frac exp s, IsFloatSuffix s ∧ (∀ d ∈ frac, isNum d = true) ∧
        (text = ch '.' :: frac ++ exp ++ s ∧ (exp = [] ∨ IsExponent (ch 'e') (ch 'E') exp) ∨
          text = exp ++ s ∧ frac = [] ∧ IsExponent (ch 'e') (ch 'E') exp) := by
  cases text with
  | nil =>
    obtain ⟨⟨n, rest⟩, hint, h⟩ := bind_eq_ok h
    cases h
    exact .inl ⟨n, hint⟩
  | cons c text =>
    rw [numberRest] at h
    split at h
    · next hc =>
      split at h
      · next hb =>
        obtain ⟨⟨y, rest⟩, hhex, h⟩ := bind_eq_ok h
        cases h
        exact .inr (.inl ⟨hb, y, hhex⟩)
      · next hb =>
        obtain rfl : b = 10 := by omega
        obtain ⟨⟨⟨kind, buf'⟩, rest⟩, hdec, h⟩ := bind_eq_ok h
        cases h
        refine .inr (.inr ⟨rfl, ?_⟩)
        rw [decFloatAt] at hdec
        split at hdec
        · next hdot =>
          obtain rfl := hdot
          obtain ⟨buf1, -, hdec⟩ := bind_eq_ok hdec
          obtain ⟨frac, exp, s, rfl, hfrac, hexp, hs⟩ := decFloat_ok hdec
          exact ⟨frac, exp, s, hs, hfrac, .inl ⟨by simp, hexp⟩⟩
        · next hdot =>
          obtain ⟨⟨buf1, rest1⟩, hexp, hsuffix⟩ := bind_eq_ok hdec
          obtain ⟨exp, heq, hok⟩ := decExponent_ok hexp
          have hs : IsFloatSuffix rest1 :=
            floatSuffix_nil (Prod.ext rfl (Prod.ext_iff.1 (Except.ok.inj hsuffix)).2)
          refine ⟨[], exp, rest1, hs, by simp, .inr ⟨heq, rfl, hok.resolve_left ?_⟩⟩
          -- the exponent starts with the letter that was seen
          rintro rfl
          rw [List.nil_append] at heq
          subst heq
          obtain ⟨-, he, he'⟩ := floatSuffix_letter hs
          rcases hc with h | ⟨h, -⟩ | ⟨-, h⟩
          · exact hdot h
          · exact h.elim he he'
          · omega
    · obtain ⟨⟨n, rest⟩, hint, h⟩ := bind_eq_ok h
      cases h
      exact .inl ⟨n, hint⟩

/-- A number with a prefix that is accepted. -/
theorem prefixed_cases {base : Base} {x : Byte} {digits text : List Byte} {y : Number}
    (hbase : base = .hex ∧ (x = ch 'x' ∨ x = ch 'X') ∨
      base = .bin ∧ tccExt = true ∧ (x = ch 'b' ∨ x = ch 'B'))
    (hdigits : ∀ d ∈ digits, isDigitOf base.num d = true)
    (h : numberRest base.num digits text = .ok (y, [])) :
    (IntText tccExt base digits text (ch '0' :: x :: digits ++ text) ∧ Accepted text) ∨
      ∃ f : BinaryFloat tccExt, ch '0' :: f.text = ch '0' :: x :: digits ++ text := by
  have hnum : base.num ≠ 10 := by
    rcases hbase with ⟨rfl, -⟩ | ⟨rfl, -⟩ <;> decide
  rcases numberRest_ok h with ⟨n, hint⟩ | ⟨-, z, hhex⟩ | ⟨hten, -⟩
  · obtain ⟨-, l, u, hsuffix⟩ := intNumber_ok (fun d hd => ⟨_, hdigits d hd⟩) hint
    refine .inl ⟨?_, accepted_of_intSuffix hsuffix⟩
    rcases hbase with ⟨rfl, hx⟩ | ⟨rfl, hext, hx⟩
    · exact .hex hx hdigits
    · exact .bin hext hx hdigits
  · obtain ⟨frac, p, sign, exp, s, rfl, hfrac, hp, hsign, hne, hexp, hs⟩ := hexFloat_ok hhex
    refine .inr ⟨⟨base, x, digits, frac, p, sign, exp, s, hbase, hdigits, hfrac, hp, hsign,
      ⟨hne, hexp⟩, hs⟩, ?_⟩
    simp only [BinaryFloat.text, BinaryFloat.fracText, BinaryFloat.expText, List.cons_append,
      List.append_assoc]
  · exact absurd hten hnum

/-- A number without a prefix that is accepted. -/
theorem plain_cases {t : Byte} {digits text : List Byte} {y : Number}
    (hdigits : ∀ d ∈ t :: digits, isDigitOf 10 d = true)
    (h : numberRest 10 (t :: digits) text = .ok (y, [])) :
    (∃ base ds, IntText tccExt base ds text (t :: digits ++ text) ∧ HasDigits base ds ∧
      Accepted text) ∨ IsDecFloat (t :: digits ++ text) := by
  rcases numberRest_ok h with ⟨n, hint⟩ | ⟨hten, -⟩ | ⟨-, frac, exp, s, hs, hfrac, hform⟩
  · obtain ⟨heff, l, u, hsuffix⟩ := intNumber_ok (fun d hd => ⟨_, hdigits d hd⟩) hint
    have haccepted := accepted_of_intSuffix hsuffix
    by_cases ht : t = ch '0'
    · subst ht
      exact .inl ⟨.oct, digits, .oct heff, fun h => by simp at h, haccepted⟩
    · exact .inl ⟨.dec, t :: digits, .dec ht hdigits, fun h => by simp at h, haccepted⟩
  · exact absurd rfl hten
  · refine .inr ⟨t :: digits, frac, exp, s, ?_, by simp, hs, ?_⟩
    · intro d hd
      rcases List.mem_append.1 hd with hd | hd
      · rw [isNum_eq]
        exact hdigits d hd
      · exact hfrac d hd
    · rcases hform with ⟨rfl, hexp⟩ | ⟨rfl, rfl, hexp⟩
      · exact .inl ⟨by simp, hexp⟩
      · exact .inr ⟨by simp, rfl, hexp⟩

/-- A number that starts with the point. -/
theorem parseNumber_of_point (rest : List Byte) :
    parseNumber tccExt (ch '.') rest = ((decFloat [ch '.'] rest).bind fun r =>
      .ok (.decFloat r.1.1 r.1.2, r.2)).bind atEnd := by
  rw [parseNumber, if_pos rfl]
  cases h : decFloat [ch '.'] rest with
  | error e => rfl
  | ok r => rfl

theorem atEnd_ok {x : Number × List Byte} {y : Number} (h : atEnd x = .ok y) : x = (y, []) := by
  rw [atEnd] at h
  split at h
  · cases h
  · next hnil => exact Prod.ext (Except.ok.inj h) (by simpa using hnil)

/-- What `parse_number` accepts. -/
theorem parseNumber_ok {t : Byte} {rest : List Byte} {y : Number} (hstart : StartsNumber t rest)
    (h : parseNumber tccExt t rest = .ok y) :
    (∃ base digits s, IntText tccExt base digits s (t :: rest) ∧ Accepted s) ∨
      IsDecFloat (t :: rest) ∨ ∃ f : BinaryFloat tccExt, ch '0' :: f.text = t :: rest := by
  by_cases ht : t = ch '.'
  · subst ht
    have hdigit : rest.head?.any isNum = true :=
      hstart.resolve_left (by decide) |>.2
    rw [parseNumber_of_point] at h
    obtain ⟨⟨x, rest1⟩, hdec, hend⟩ := bind_eq_ok h
    obtain ⟨⟨⟨kind, buf⟩, rest2⟩, hfloat, hpair⟩ := bind_eq_ok hdec
    obtain ⟨rfl, rfl⟩ := Prod.mk.inj (atEnd_ok hend)
    obtain ⟨-, rfl⟩ := Prod.mk.inj (Except.ok.inj hpair)
    obtain ⟨frac, exp, s, rfl, hfrac, hexp, hs⟩ := decFloat_ok hfloat
    refine .inr (.inl ⟨[], frac, exp, s, hfrac, ?_, hs, .inl ⟨by simp, hexp⟩⟩)
    -- neither an exponent nor a suffix starts with a digit
    rintro rfl
    rcases hexp with rfl | ⟨c, sign, ds, rfl, hc, -⟩
    · cases s with
      | nil => simp at hdigit
      | cons c s =>
        have hnum : isNum c = true := by simpa using hdigit
        rw [(floatSuffix_letter hs).1] at hnum
        cases hnum
    · have hnum : isNum c = true := by simpa using hdigit
      obtain ⟨-, he, he', -⟩ := isNum_ne c hnum
      exact hc.elim he he'
  · have hnum : isNum t = true := hstart.resolve_right fun h => ht h.1
    have hsplit {b : Nat} {buf text : List Byte} (hbase : numberBase tccExt t rest = (b, buf, text)) :
        ∃ ds rest', text = ds ++ rest' ∧ (∀ d ∈ ds, isDigitOf b d = true) ∧
          numberRest b (buf ++ ds) rest' = .ok (y, []) := by
      rw [parseNumber_of_digit ht hbase] at h
      obtain ⟨⟨x, rest1⟩, h1, hend⟩ := bind_eq_ok h
      obtain ⟨⟨buf1, rest2⟩, hstore, hrest⟩ := bind_eq_ok h1
      obtain ⟨ds, rfl, rfl, hds, -⟩ := storeWhile_ok hstore
      obtain ⟨rfl, rfl⟩ := Prod.mk.inj (atEnd_ok hend)
      exact ⟨ds, rest2, rfl, hds, hrest⟩
    have hplain (hbase : numberBase tccExt t rest = (10, [t], rest)) :
        (∃ base digits s, IntText tccExt base digits s (t :: rest) ∧ Accepted s) ∨
          IsDecFloat (t :: rest) ∨ ∃ f : BinaryFloat tccExt, ch '0' :: f.text = t :: rest := by
      obtain ⟨ds, rest', rfl, hds, hrest⟩ := hsplit hbase
      have hdigits : ∀ d ∈ t :: ds, isDigitOf 10 d = true :=
        List.forall_mem_cons.2 ⟨(isNum_eq t).symm.trans hnum, hds⟩
      have hcases : (∃ base digits, IntText tccExt base digits rest' (t :: ds ++ rest') ∧
          HasDigits base digits ∧ Accepted rest') ∨ IsDecFloat (t :: ds ++ rest') :=
        plain_cases hdigits hrest
      rcases hcases with ⟨base, digits, htext, -, hok⟩ | hdec
      · exact .inl ⟨base, digits, rest', htext, hok⟩
      · exact .inr (.inl hdec)
    have hprefixed {base : Base} {x : Byte} {text : List Byte}
        (hx : base = .hex ∧ (x = ch 'x' ∨ x = ch 'X') ∨
          base = .bin ∧ tccExt = true ∧ (x = ch 'b' ∨ x = ch 'B'))
        (hbase : numberBase tccExt t rest = (base.num, [], text)) (htext : rest = x :: text)
        (ht0 : t = ch '0') :
        (∃ base digits s, IntText tccExt base digits s (t :: rest) ∧ Accepted s) ∨
          IsDecFloat (t :: rest) ∨ ∃ f : BinaryFloat tccExt, ch '0' :: f.text = t :: rest := by
      obtain ⟨ds, rest', rfl, hds, hrest⟩ := hsplit hbase
      subst ht0 htext
      rcases prefixed_cases hx hds hrest with ⟨hint, hok⟩ | hfloat
      · exact .inl ⟨base, ds, rest', hint, hok⟩
      · exact .inr (.inr hfloat)
    cases rest with
    | nil => exact hplain rfl
    | cons c rest =>
      by_cases hx : t = ch '0' ∧ (c = ch 'x' ∨ c = ch 'X')
      · exact hprefixed (.inl ⟨rfl, hx.2⟩) (if_pos hx) rfl hx.1
      · by_cases hb : t = ch '0' ∧ tccExt = true ∧ (c = ch 'b' ∨ c = ch 'B')
        · exact hprefixed (.inr ⟨rfl, hb.2⟩) ((if_neg hx).trans (if_pos hb)) rfl hb.1
        · exact hplain ((if_neg hx).trans (if_neg hb))

/-! ## Numbers against the grammar -/

/-- **Numbers.** An integer constant of the grammar with at most 1024 digits gives its value modulo
2^64 and the first type that holds it, with a warning if there is none; one with more digits is
refused. A number that is no constant is refused, unless its suffix has two unlike `l`s or it has no
digits behind its prefix. -/
theorem parseNumber_correct {t : Byte} {rest : List Byte} (hstart : StartsNumber t rest) :
    (∀ base digits s unsigned longs, IntText tccExt base digits s (t :: rest) →
      HasDigits base digits → IsSuffix unsigned longs s →
      if storedDigits base digits ≤ stringMaxSize then
        ∃ n, parseNumber tccExt t rest = .ok (.int n) ∧
          IsToken base unsigned longs (valueOf base.num digits) n
      else parseNumber tccExt t rest = .error "number too long") ∧
    (¬ IsConstant tccExt (t :: rest) → ¬ HasMixedSuffix tccExt (t :: rest) →
      ¬ LacksDigits tccExt (t :: rest) → ∃ msg, parseNumber tccExt t rest = .error msg) := by
  refine ⟨fun base digits s unsigned longs h _ hs => parseNumber_intText h hs,
    fun hconst hmixed hlacks => ?_⟩
  cases hparse : parseNumber tccExt t rest with
  | error msg => exact ⟨msg, rfl⟩
  | ok y =>
    exfalso
    rcases parseNumber_ok hstart hparse with ⟨base, digits, s, htext, hs⟩ | hdec | ⟨f, hf⟩
    · by_cases hdigits : HasDigits base digits
      · by_cases hsuffix : ∃ unsigned longs, IsSuffix unsigned longs s
        · obtain ⟨unsigned, longs, hsuffix⟩ := hsuffix
          exact hconst (.inl ⟨base, digits, s, unsigned, longs, htext, hdigits, hsuffix⟩)
        · exact hmixed ⟨base, digits, s, htext, hs, fun u l h => hsuffix ⟨u, l, h⟩⟩
      · obtain ⟨hbase, rfl⟩ : (base = .hex ∨ base = .bin) ∧ digits = [] := by
          simpa [HasDigits] using hdigits
        exact hlacks (.inl ⟨base, s, htext, hbase, hs⟩)
    · exact hconst (.inr (.inl hdec))
    · by_cases hdigits : f.digits = []
      · exact hlacks (.inr ⟨f, hf, hdigits⟩)
      · exact hconst (.inr (.inr ⟨f, hf, hdigits⟩))

/-- A text with any other character is neither a constant nor one that slips through. -/
theorem not_constant_of_char {text : List Byte} {c : Byte} (hc : c ∈ text)
    (hno : isNumberChar c = false) :
    ¬ IsConstant tccExt text ∧ ¬ HasMixedSuffix tccExt text ∧ ¬ LacksDigits tccExt text := by
  have habsurd (h : ∀ c ∈ text, isNumberChar c = true) : False := by
    rw [h c hc] at hno
    cases hno
  refine ⟨?_, ?_, ?_⟩
  · rintro (⟨base, digits, s, u, l, htext, -, hs⟩ | hdec | ⟨f, rfl, -⟩)
    · exact habsurd (intText_chars htext (isSuffix_counts hs).1)
    · exact habsurd (decFloat_chars hdec)
    · exact habsurd (binaryFloat_chars f)
  · rintro ⟨base, digits, s, htext, hs, -⟩
    exact habsurd (intText_chars htext hs.1)
  · rintro (⟨base, s, htext, -, hs⟩ | ⟨f, rfl, -⟩)
    · exact habsurd (intText_chars htext hs.1)
    · exact habsurd (binaryFloat_chars f)

theorem intText_hex : IntText true .hex [ch '1', ch 'F'] [ch 'u', ch 'L', ch 'L']
    (ch '0' :: ch 'x' :: [ch '1', ch 'F'] ++ [ch 'u', ch 'L', ch 'L']) :=
  .hex (.inl rfl) (by decide)

theorem isSuffix_uLL : IsSuffix true 2 [ch 'u', ch 'L', ch 'L'] :=
  ⟨le_rfl, [ch 'u'], by simp, [ch 'L', ch 'L'], by simp, .inl rfl⟩

/-- The constant `0x1FuLL` and the number `1z`. -/
theorem parseNumber_correct_hex :
    (∃ n, parseNumber true (ch '0') [ch 'x', ch '1', ch 'F', ch 'u', ch 'L', ch 'L'] = .ok (.int n) ∧
      IsToken .hex true 2 31 n) ∧
    ∃ msg, parseNumber true (ch '1') [ch 'z'] = .error msg := by
  have hmem : ch 'z' ∈ [ch '1', ch 'z'] := by decide
  have h : ¬ IsConstant true _ ∧ ¬ HasMixedSuffix true _ ∧ ¬ LacksDigits true _ :=
    not_constant_of_char hmem (by decide)
  exact ⟨(parseNumber_correct (.inl (by decide))).1 _ _ _ _ _ intText_hex (fun _ => by decide)
      isSuffix_uLL,
    (parseNumber_correct (.inl (by decide))).2 h.1 h.2.1 h.2.2⟩

/-- A decimal constant that fills the buffer is a constant all the same. -/
theorem long_decimal_refused {c : Byte} {digits : List Byte} (hc : c ≠ ch '0')
    (hdigits : ∀ d ∈ c :: digits, isDigitOf 10 d = true) (hlong : stringMaxSize ≤ digits.length) :
    IsIntConst tccExt (c :: digits) ∧ ∀ n, parseNumber tccExt c digits ≠ .ok (.int n) := by
  have htext : IntText tccExt .dec (c :: digits) [] (c :: digits) := by
    have h : IntText tccExt .dec (c :: digits) [] (c :: digits ++ []) := .dec hc hdigits
    rwa [List.append_nil] at h
  have hsuffix : IsSuffix false 0 [] := ⟨by decide, [], by simp, [], by simp, .inl rfl⟩
  refine ⟨⟨.dec, _, [], false, 0, htext, fun h => by simp at h, hsuffix⟩, fun n hn => ?_⟩
  have hparse := parseNumber_intText htext hsuffix
  have hlength : ¬ storedDigits .dec (c :: digits) ≤ stringMaxSize := by
    rw [storedDigits, if_neg (by decide), List.length_cons]
    omega
  rw [if_neg hlength, hn] at hparse
  cases hparse

/-- A constant of 1025 digits. -/
theorem long_constant_refused :
    IsIntConst true (ch '1' :: List.replicate 1024 (ch '1')) ∧
      ∀ n, parseNumber true (ch '1') (List.replicate 1024 (ch '1')) ≠ .ok (.int n) := by
  have hdigits : ∀ d ∈ ch '1' :: List.replicate 1024 (ch '1'), isDigitOf 10 d = true := by
    rw [← List.replicate_succ]
    intro d hd
    rw [List.eq_of_mem_replicate hd]
    decide
  exact long_decimal_refused (by decide) hdigits (by rw [List.length_replicate, stringMaxSize])

end TccRiscv64.Lex
