import Mathlib

set_option autoImplicit false

/-! # Escape sequences and UTF-8 in literals

`parse_escape_string` reads the text between the quotes of a literal up to the zero byte that
`parse_string` puts behind it. One round of its loop reads one character. In wide literals the bytes
from 0x80 on are read as UTF-8; in narrow ones they are kept, and UTF-8 is written for a universal
character name. -/

namespace TccRiscv64.Lex

abbrev Byte := BitVec 8

/-- A character constant of the source. -/
abbrev ch (c : Char) : Byte := BitVec.ofNat 8 c.toNat

/-- The number of a digit, `*p - '0'`. -/
def digit (c : Byte) : BitVec 32 := c.setWidth 32 - 0x30#32

/-- `isoct`. -/
def isOct (c : Byte) : Bool := ch '0' ≤ c && c ≤ ch '7'

/-- `%x`. -/
def hexText (n : Nat) : String := String.ofList (Nat.toDigits 16 n)

/-! ## Writing UTF-8 -/

/-- `unicode_to_utf8`. -/
def unicodeToUtf8 (uc : BitVec 32) : Except String (List Byte) :=
  let byte (n : Nat) : Byte := BitVec.ofNat 8 n
  let error := .error ("0x" ++ hexText uc.toNat ++ " is not a valid universal character")
  let u := uc.toNat
  if uc < 0x80#32 then .ok [byte u]
  else if uc < 0x800#32 then .ok [byte (192 + u / 64), byte (128 + u % 64)]
  else if uc - 0xd800#32 < 0x800#32 then error
  else if uc < 0x10000#32 then
    .ok [byte (224 + u / 4096), byte (128 + u / 64 % 64), byte (128 + u % 64)]
  else if uc < 0x110000#32 then
    .ok [byte (240 + u / 262144), byte (128 + u / 4096 % 64), byte (128 + u / 64 % 64),
      byte (128 + u % 64)]
  else error

/-! ## One round of the loop -/

/-- What a round of the loop of `parse_escape_string` comes to. -/
inductive Round
  /-- the terminating zero -/
  | done
  /-- a byte behind the terminating zero was read -/
  | outside
  | error (msg : String)
  /-- `add_char_nonext`: a character, read from `used` bytes -/
  | char (c : BitVec 32) (used : Nat) (warning : Option String)
  /-- `cstr_u8cat` -/
  | ucn (n : BitVec 32) (used : Nat)
  deriving DecidableEq, Repr

/-- An octal escape: at most three digits, the first of which is `c`. -/
def octal (c : Byte) : List Byte → Round
  | [] => .outside
  | c2 :: rest =>
    if isOct c2 then
      match rest with
      | [] => .outside
      | c3 :: _ =>
        if isOct c3 then .char ((digit c * 8#32 + digit c2) * 8#32 + digit c3) 4 none
        else .char (digit c * 8#32 + digit c2) 3 none
    else .char (digit c) 2 none

/-- The value of a hexadecimal digit. -/
def hexDigit (c : Byte) : Option (BitVec 32) :=
  if ch 'a' ≤ c ∧ c ≤ ch 'f' then some (c.setWidth 32 - 0x61#32 + 10#32)
  else if ch 'A' ≤ c ∧ c ≤ ch 'F' then some (c.setWidth 32 - 0x41#32 + 10#32)
  else if ch '0' ≤ c ∧ c ≤ ch '9' then some (digit c)
  else none

/-- `parse_hex_or_ucn`, with `i` digits to come; a `\x` starts at 0 and goes on to the first other
character. -/
def hexOrUcn (isLong : Bool) (i : Int) (n : BitVec 32) (used : Nat) : List Byte → Round
  | [] => .outside
  | c :: rest =>
    match hexDigit c with
    | some v =>
      let n := n * 16#32 + v
      if i - 1 = 0 then if isLong then .char n (used + 1) none else .ucn n (used + 1)
      else hexOrUcn isLong (i - 1) n (used + 1) rest
    | none =>
      if i > 0 then .error "more hex digits in universal-character-name expected"
      else .char n used none

/-- The escapes of one letter. -/
def simpleEscape (gnuExt : Bool) (c : Byte) : Option (BitVec 32) :=
  if c = ch 'a' then some 7#32
  else if c = ch 'b' then some 8#32
  else if c = ch 'f' then some 12#32
  else if c = ch 'n' then some 10#32
  else if c = ch 'r' then some 13#32
  else if c = ch 't' then some 9#32
  else if c = ch 'v' then some 11#32
  else if c = ch 'e' ∧ gnuExt then some 27#32
  else if c = ch '\'' ∨ c = ch '"' ∨ c = ch '\\' ∨ c = ch '?' then some (c.setWidth 32)
  else none

/-- The warning at `invalid_escape`. -/
def unknownEscape (c : Byte) : String :=
  if ch '!' ≤ c ∧ c ≤ ch '~' then
    "unknown escape sequence: '\\" ++ String.ofList [Char.ofNat c.toNat] ++ "'"
  else "unknown escape sequence: '\\x" ++ hexText c.toNat ++ "'"

/-- An escape sequence, behind its backslash. -/
def escape (gnuExt isLong : Bool) : List Byte → Round
  | [] => .outside
  | c :: rest =>
    if isOct c then octal c rest
    else if c = ch 'x' then hexOrUcn isLong 0 0#32 2 rest
    else if c = ch 'u' then hexOrUcn isLong 4 0#32 2 rest
    else if c = ch 'U' then hexOrUcn isLong 8 0#32 2 rest
    else
      match simpleEscape gnuExt c with
      | some v => .char v 2 none
      | none => .char (c.setWidth 32) 2 (some (unknownEscape c))

/-! ## Reading UTF-8 -/

/-- `invalid_utf8_sequence`, in a sequence that starts with `c`. -/
def illFormed (c : Byte) (skip : Nat) : Round :=
  .char 0xFFFD#32 skip
    (some ("ill-formed UTF-8 subsequence starting with: '\\x" ++ hexText c.toNat ++ "'"))

/-- The limits `l` and `h` for the byte `i` of a sequence that starts with `c`. -/
def limits (c : Byte) (i : Nat) : Byte × Byte :=
  if i = 1 then
    if c = 0xE0#8 then (0xA0#8, 0xBF#8)
    else if c = 0xED#8 then (0x80#8, 0x9F#8)
    else if c = 0xF0#8 then (0x90#8, 0xBF#8)
    else if c = 0xF4#8 then (0x80#8, 0x8F#8)
    else (0x80#8, 0xBF#8)
  else (0x80#8, 0xBF#8)

/-- The loop over the continuation bytes, of which `cont` are to come. -/
def continuation (c : Byte) (i : Nat) (n : BitVec 32) : Nat → List Byte → Round
  | 0, _ => .char n i none
  | _ + 1, [] => .outside
  | cont + 1, b :: rest =>
    if b < (limits c i).1 ∨ (limits c i).2 < b then illFormed c i
    else continuation c (i + 1) (n <<< 6 ||| b.setWidth 32 &&& 0x3f#32) cont rest

/-- A sequence that starts with the byte `c`, which is not ASCII. -/
def decodeUtf8 (c : Byte) (rest : List Byte) : Round :=
  if c < 0xC2#8 then illFormed c 1
  else if c ≤ 0xDF#8 then continuation c 1 (c.setWidth 32 &&& 0x1f#32) 1 rest
  else if c ≤ 0xEF#8 then continuation c 1 (c.setWidth 32 &&& 0xf#32) 2 rest
  else if c ≤ 0xF4#8 then continuation c 1 (c.setWidth 32 &&& 0x7#32) 3 rest
  else illFormed c 1

/-! ## The loop -/

/-- One round of the loop of `parse_escape_string`. -/
def round (gnuExt isLong : Bool) : List Byte → Round
  | [] => .outside
  | c :: rest =>
    if c = 0#8 then .done
    else if c = ch '\\' then escape gnuExt isLong rest
    else if isLong ∧ 0x80#8 ≤ c then decodeUtf8 c rest
    else .char (c.setWidth 32) 1 none

/-- `cstr_ccat` or `cstr_wccat`: the bytes in memory of a character of the literal. -/
def storeChar (isLong : Bool) (c : BitVec 32) : List Byte :=
  if isLong then [c.extractLsb' 0 8, c.extractLsb' 8 8, c.extractLsb' 16 8, c.extractLsb' 24 8]
  else [c.setWidth 8]

/-- What the literal comes to: its bytes and the warnings. -/
structure Literal where
  data : List Byte
  warnings : List String
  deriving DecidableEq, Repr

/-- A literal that starts with some bytes. -/
def Literal.prepend (data : List Byte) (warnings : List String) (l : Literal) : Literal :=
  ⟨data ++ l.data, warnings ++ l.warnings⟩

/-- The loop of `parse_escape_string`, for at most `fuel` characters. A round takes at least one byte,
so that the fuel is used up only behind the end of the text: `none` stands for reading there. -/
def escapeLoop (gnuExt isLong : Bool) : Nat → List Byte → Option (Except String Literal)
  | 0, _ => none
  | fuel + 1, text =>
    match round gnuExt isLong text with
    | .outside => none
    | .done => some (.ok ⟨storeChar isLong 0#32, []⟩)
    | .error msg => some (.error msg)
    | .char c used warning =>
      (escapeLoop gnuExt isLong fuel (text.drop used)).map
        (·.map (Literal.prepend (storeChar isLong c) warning.toList))
    | .ucn n used =>
      match unicodeToUtf8 n with
      | .error msg => some (.error msg)
      | .ok bytes =>
        (escapeLoop gnuExt isLong fuel (text.drop used)).map (·.map (Literal.prepend bytes []))

theorem escapeLoop_char {gnuExt isLong : Bool} {text : List Byte} {c : BitVec 32} {used : Nat}
    {warning : Option String} (h : round gnuExt isLong text = .char c used warning) (fuel : Nat) :
    escapeLoop gnuExt isLong (fuel + 1) text =
      (escapeLoop gnuExt isLong fuel (text.drop used)).map
        (·.map (Literal.prepend (storeChar isLong c) warning.toList)) := by
  rw [escapeLoop, h]

/-- `parse_escape_string`, for a text in front of a zero byte. -/
def parseEscapeString (gnuExt isLong : Bool) (text : List Byte) : Option (Except String Literal) :=
  escapeLoop gnuExt isLong (text.length + 1) (text ++ [0#8])

end TccRiscv64.Lex
