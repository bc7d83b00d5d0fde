import TccRiscv64.Lex.Escape

set_option autoImplicit false

/-! # Stringizing

The operator `#` writes the spelling of its argument as a string literal, which `parse_string` reads
later on. -/

namespace TccRiscv64.Lex

/-! ## Writing -/

/-- `add_char`. -/
def addChar (c : BitVec 32) : List Byte :=
  let octalDigit (n : BitVec 32) : Byte := (0x30#32 + (n &&& 7#32)).setWidth 8
  let start :=
    if c = (ch '\'').setWidth 32 ∨ c = (ch '"').setWidth 32 ∨ c = (ch '\\').setWidth 32 then
      [ch '\\']
    else []
  if (32#32).sle c ∧ c.sle 126#32 then start ++ [c.setWidth 8]
  else if c = (ch '\n').setWidth 32 then start ++ [ch '\\', ch 'n']
  else start ++ [ch '\\', octalDigit (c.sshiftRight 6), octalDigit (c.sshiftRight 3), octalDigit c]

/-- The value of a `char`, whose sign is that of the machine the compiler runs on. -/
def charValue (signedChar : Bool) (b : Byte) : BitVec 32 :=
  if signedChar then b.signExtend 32 else b.setWidth 32

/-- A token of a macro argument, as `get_tok_str` spells it. -/
structure ArgToken where
  /-- `TOK_PPSTR` -/
  isStr : Bool
  spelling : List Byte
  deriving DecidableEq, Repr

/-- The loop over the spelling of a token in `macro_arg_subst`. It ends at a zero byte. -/
def stringizeToken (signedChar : Bool) (t : ArgToken) : List Byte :=
  (t.spelling.takeWhile (· ≠ 0#8)).flatMap fun b =>
    if t.isStr ∧ b ≠ ch '\'' then addChar (charValue signedChar b) else [b]

/-- The string that `#` makes of an argument. -/
def stringize (signedChar : Bool) (arg : List ArgToken) : List Byte :=
  ch '"' :: arg.flatMap (stringizeToken signedChar) ++ [ch '"']

/-! ## Reading -/

/-- The token that a literal becomes. Strings are held with their terminator. -/
inductive LiteralToken
  /-- `TOK_STR` -/
  | str (data : List Byte)
  /-- `TOK_LSTR` -/
  | lstr (data : List Byte)
  /-- `TOK_CCHAR` -/
  | cchar (c : BitVec 32)
  /-- `TOK_LCHAR` -/
  | lchar (c : BitVec 32)
  deriving DecidableEq, Repr

/-- The last of the wide characters in front of the terminator, `((nwchar_t *)tokcstr.data)[n - 1]`. -/
def lastWide (data : List Byte) (n : Nat) : BitVec 32 :=
  let byteAt (i : Nat) : Byte := data.getD (4 * (n - 1) + i) 0#8
  byteAt 3 ++ byteAt 2 ++ byteAt 1 ++ byteAt 0

/-- A character constant that was evaluated to `l`. -/
def charConstant (signedChar warnAll isLong : Bool) (l : Literal) :
    Except String (LiteralToken × List String) :=
  let n : Int := l.data.length / (if isLong then 4 else 1) - 1
  if n < 1 then .error "empty character constant"
  else
    let warnings :=
      l.warnings ++ if n > 1 ∧ warnAll then ["multi-character character constant"] else []
    if isLong then .ok (.lchar (lastWide l.data n.toNat), warnings)
    else
      let c := (l.data.take n.toNat).foldl (fun (c : BitVec 32) b => c <<< 8 ||| charValue signedChar b) 0#32
      .ok (.cchar c, warnings)

/-- `parse_string`, for the spelling of a literal with its quotes. -/
def parseString (gnuExt signedChar warnAll : Bool) (s : List Byte) :
    Option (Except String (LiteralToken × List String)) :=
  let isLong : Bool := s.head? = some (ch 'L')
  let s := if isLong then s.tail else s
  let sep := s.headD 0#8
  (parseEscapeString gnuExt isLong (s.tail.take (s.length - 2))).map fun r => do
    let l ← r
    if sep = ch '\'' then charConstant signedChar warnAll isLong l
    else .ok (if isLong then .lstr l.data else .str l.data, l.warnings)

/-! ## A byte and its escape -/

/-- What is written for a byte of a literal. -/
def stringizeByte (signedChar : Bool) (b : Byte) : List Byte :=
  if b ≠ ch '\'' then addChar (charValue signedChar b) else [b]

/-- An octal digit of a character. -/
def octalDigit (signedChar : Bool) (b : Byte) (k : Nat) : Byte :=
  (0x30#32 + ((charValue signedChar b).sshiftRight k &&& 7#32)).setWidth 8

theorem isOct_octalDigit : ∀ signedChar b, isOct (octalDigit signedChar b 6) = true ∧
    isOct (octalDigit signedChar b 3) = true ∧ isOct (octalDigit signedChar b 0) = true := by
  decide +kernel

/-- Three octal digits hold nine bits, of which a byte keeps eight. -/
theorem octal_value : ∀ signedChar b, ((digit (octalDigit signedChar b 6) * 8#32 +
    digit (octalDigit signedChar b 3)) * 8#32 + digit (octalDigit signedChar b 0)).setWidth 8 = b := by
  decide +kernel

/-- A byte is written as it is, behind a backslash, as `\n` or in octal. -/
theorem stringizeByte_cases : ∀ signedChar b, b ≠ 0#8 →
    stringizeByte signedChar b = [b] ∧ b ≠ ch '\\' ∨
      stringizeByte signedChar b = [ch '\\', b] ∧ (b = ch '"' ∨ b = ch '\\') ∨
      stringizeByte signedChar b = [ch '\\', ch 'n'] ∧ b = ch '\n' ∨
      stringizeByte signedChar b = [ch '\\', octalDigit signedChar b 6, octalDigit signedChar b 3,
        octalDigit signedChar b 0] := by
  decide +kernel

theorem round_octal (gnuExt isLong : Bool) {d1 d2 d3 : Byte} (h1 : isOct d1 = true)
    (h2 : isOct d2 = true) (h3 : isOct d3 = true) (rest : List Byte) :
    round gnuExt isLong (ch '\\' :: d1 :: d2 :: d3 :: rest) =
      .char ((digit d1 * 8#32 + digit d2) * 8#32 + digit d3) 4 none := by
  rw [round, if_neg (by decide), if_pos rfl, escape, if_pos h1, octal, if_pos h2]
  exact if_pos h3

/-- A round reads the byte back. -/
theorem round_stringizeByte (gnuExt signedChar : Bool) {b : Byte} (hb : b ≠ 0#8)
    (rest : List Byte) :
    ∃ c, round gnuExt false (stringizeByte signedChar b ++ rest) =
      .char c (stringizeByte signedChar b).length none ∧ storeChar false c = [b] := by
  have hstore {c : BitVec 32} (h : c.setWidth 8 = b) : storeChar false c = [b] :=
    congrArg (fun b => [b]) h
  rcases stringizeByte_cases signedChar b hb with ⟨heq, hslash⟩ | ⟨heq, hquote⟩ | ⟨heq, rfl⟩ | heq
  · refine ⟨b.setWidth 32, ?_, hstore (by simp)⟩
    rw [heq, List.singleton_append, round, if_neg hb, if_neg hslash]
    rfl
  · refine ⟨b.setWidth 32, ?_, hstore (by simp)⟩
    rw [heq]
    rcases hquote with rfl | rfl <;> rfl
  · rw [heq]
    exact ⟨10#32, rfl, rfl⟩
  · obtain ⟨h1, h2, h3⟩ := isOct_octalDigit signedChar b
    refine ⟨_, ?_, hstore (octal_value signedChar b)⟩
    rw [heq]
    exact round_octal gnuExt false h1 h2 h3 rest

/-! ## A literal -/

theorem stringizeByte_length_pos (signedChar : Bool) (b : Byte) :
    1 ≤ (stringizeByte signedChar b).length := by
  by_cases hb : b = 0#8
  · subst hb
    revert signedChar
    decide
  · rcases stringizeByte_cases signedChar b hb with ⟨heq, -⟩ | ⟨heq, -⟩ | ⟨heq, -⟩ | heq <;>
      simp [heq]

/-- The loop reads back all bytes that were written. -/
theorem parseEscapeString_stringize (gnuExt signedChar : Bool) {bytes : List Byte}
    (h : 0#8 ∉ bytes) :
    parseEscapeString gnuExt false (bytes.flatMap (stringizeByte signedChar)) =
      some (.ok ⟨bytes ++ [0#8], []⟩) := by
  have hloop : ∀ fuel, bytes.length < fuel →
      escapeLoop gnuExt false fuel (bytes.flatMap (stringizeByte signedChar) ++ [0#8]) =
        some (.ok ⟨bytes ++ [0#8], []⟩) := by
    induction bytes with
    | nil =>
      intro fuel hfuel
      obtain ⟨fuel, rfl⟩ := Nat.exists_eq_add_of_lt hfuel
      rfl
    | cons b bytes ih =>
      intro fuel hfuel
      obtain ⟨fuel, rfl⟩ := Nat.exists_eq_add_of_lt hfuel
      have hb : b ≠ 0#8 := fun hb => h (hb ▸ List.mem_cons_self)
      obtain ⟨c, hround, hstore⟩ := round_stringizeByte gnuExt signedChar hb
        (bytes.flatMap (stringizeByte signedChar) ++ [0#8])
      have hrest := ih (fun hmem => h (List.mem_cons_of_mem b hmem)) (bytes.length + 1 + fuel)
        (by omega)
      rw [List.flatMap_cons, List.append_assoc, List.length_cons, escapeLoop_char hround,
        List.drop_left, hrest, hstore]
      rfl
  refine hloop _ ?_
  have hlen : bytes.length ≤ (bytes.flatMap (stringizeByte signedChar)).length := by
    rw [List.length_flatMap]
    calc bytes.length = (bytes.map fun _ => 1).sum := by simp
      _ ≤ (bytes.map fun b => (stringizeByte signedChar b).length).sum :=
        List.sum_le_sum fun b _ => stringizeByte_length_pos signedChar b
  omega

/-- The bytes of a literal that `#` sees: those in front of the first zero byte. -/
def seen (spelling : List Byte) : List Byte := spelling.takeWhile (· ≠ 0#8)

theorem stringizeToken_str (signedChar : Bool) (spelling : List Byte) :
    stringizeToken signedChar ⟨true, spelling⟩ =
      (seen spelling).flatMap (stringizeByte signedChar) := by
  unfold stringizeToken seen
  congr 1
  funext b
  rw [stringizeByte]
  exact if_congr (and_iff_right rfl) rfl rfl

/-- Stringized and read, a literal gives its spelling up to the first zero byte. -/
theorem parseString_stringize (gnuExt signedChar warnAll : Bool) (spelling : List Byte) :
    parseString gnuExt signedChar warnAll (stringize signedChar [⟨true, spelling⟩]) =
      some (.ok (.str (seen spelling ++ [0#8]), [])) := by
  have hclean : 0#8 ∉ seen spelling := fun hmem => by
    have := List.mem_takeWhile_imp hmem
    simp at this
  have hbody (text : List Byte) :
      (text ++ [ch '"']).take ((ch '"' :: text ++ [ch '"']).length - 2) = text := by
    rw [List.length_append, List.length_cons, List.length_singleton]
    exact List.take_left
  have hparse := parseEscapeString_stringize gnuExt signedChar hclean
  rw [stringize, List.flatMap_singleton, stringizeToken_str, parseString]
  generalize (seen spelling).flatMap (stringizeByte signedChar) = text at hparse
  show Option.map _ (parseEscapeString gnuExt false
    ((text ++ [ch '"']).take ((ch '"' :: text ++ [ch '"']).length - 2))) = _
  rw [hbody, hparse]
  rfl

/-- The literal that `#` makes of a literal stands for its spelling. -/
def ReadsBack (gnuExt signedChar warnAll : Bool) (spelling : List Byte) : Prop :=
  parseString gnuExt signedChar warnAll (stringize signedChar [⟨true, spelling⟩]) =
    some (.ok (.str (spelling ++ [0#8]), []))

/-- **Stringizing.** The literal that `#` makes of a string or a character constant stands for its
spelling exactly when there is no zero byte in it. -/
theorem readsBack_iff_no_zero (gnuExt signedChar warnAll : Bool) (spelling : List Byte) :
    ReadsBack gnuExt signedChar warnAll spelling ↔ 0#8 ∉ spelling := by
  rw [ReadsBack, parseString_stringize]
  constructor
  · intro h hmem
    have hseen : seen spelling ++ [0#8] = spelling ++ [0#8] := by
      simpa using h
    have hall := List.takeWhile_eq_self_iff.1 (List.append_cancel_right hseen)
    simpa using hall 0#8 hmem
  · intro h
    have hseen : seen spelling = spelling :=
      List.takeWhile_eq_self_iff.2 fun b hb => by
        simpa using fun hzero : b = 0#8 => h (hzero ▸ hb)
    rw [hseen]

/-- A string with a zero byte between two letters. -/
theorem zero_not_readsBack :
    ¬ ReadsBack true true false [ch '"', ch 'a', 0#8, ch 'b', ch '"'] := by
  rw [ReadsBack, parseString_stringize]
  decide

end TccRiscv64.Lex
