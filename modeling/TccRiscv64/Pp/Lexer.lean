import Mathlib

set_option autoImplicit false

/-! # Preprocessing tokens

`next_nomacro` for text of a C file, without directives: one token at a time, each the longest one
that the text begins with. Lines that end in a backslash are spliced beforehand. -/

namespace TccRiscv64.Pp

/-! ## Characters -/

/-- `IS_SPC`, but for the line feed, which is a token of its own. -/
def isSpace (c : Char) : Bool := c = ' ' || c = '\t' || c = '\x0b' || c = '\x0c' || c = '\r'

/-- `IS_ID`: letters, `_`, `$` and all bytes from 0x80 on. -/
def isId (c : Char) : Bool := c.isAlpha || c = '_' || c = '$' || 0x80 ≤ c.toNat

/-- `IS_NUM`. -/
def isNum (c : Char) : Bool := c.isDigit

/-- `IS_ID|IS_NUM`. -/
def isIdNum (c : Char) : Bool := isId c || isNum c

/-- `'\''` and `'\"'`. -/
def isQuote (c : Char) : Bool := c = '\'' || c = '"'

/-! ## Tokens -/

inductive Kind
  | ident
  /-- `TOK_PPNUM` -/
  | ppnum
  /-- `TOK_PPSTR`, with its quotes -/
  | ppstr
  | punct
  deriving DecidableEq, Repr

/-- A token. The number of an operator or an identifier is given by how it is spelled. -/
structure Tok where
  kind : Kind
  spelling : List Char
  deriving DecidableEq, Repr

/-- What a text is cut into. -/
inductive Lexeme
  | tok (t : Tok)
  | white
  | newline
  /-- a comment, for which there is a blank -/
  | comment
  deriving DecidableEq, Repr

/-! ## Single tokens -/

/-- What may follow the first character of an operator, longer before shorter. -/
def follow : Char → Option (List (List Char))
  | '<' => some [['<', '='], ['<'], ['=']]
  | '>' => some [['>', '='], ['>'], ['=']]
  | '&' => some [['&'], ['=']]
  | '|' => some [['|'], ['=']]
  | '+' => some [['+'], ['=']]
  | '-' => some [['-'], ['='], ['>']]
  | '!' | '=' | '*' | '%' | '^' | '/' => some [['=']]
  | '#' => some [['#']]
  | '.' => some [['.', '.']]
  | '(' | ')' | '[' | ']' | '{' | '}' | ',' | ';' | ':' | '?' | '~' | '@' | '\\' => some []
  | _ => none

/-- The first of some texts that another one begins with. -/
def longest (tails : List (List Char)) (text : List Char) : List Char :=
  (tails.find? (·.isPrefixOf text)).getD []

/-- Whether a number goes on with `c` after its character `t`. -/
def numAccepts (t c : Char) : Bool :=
  isIdNum c || c = '.' ||
    ((c = '+' || c = '-') && (t = 'e' || t = 'E' || t = 'p' || t = 'P'))

/-- `parse_num`, after the character `t`: what belongs to the number, and what comes after it. -/
def numTail (t : Char) : List Char → List Char × List Char
  | [] => ([], [])
  | c :: rest =>
    if numAccepts t c then (c :: (numTail c rest).1, (numTail c rest).2) else ([], c :: rest)

/-- `parse_pp_string` behind the opening quote `sep`: what belongs to the string, with its closing
quote, and what comes after it. No line ends in a backslash any more. -/
def lexString (sep : Char) : List Char → Option (List Char × List Char)
  | [] => none
  | c :: rest =>
    if c = sep then some ([c], rest)
    else if c = '\n' then none
    else if c = '\\' then
      match rest with
      | [] => none
      | d :: rest =>
        if d = '\n' then none else (lexString sep rest).map fun (s, r) => (c :: d :: s, r)
    else (lexString sep rest).map fun (s, r) => (c :: s, r)

theorem lexString_cons (sep c : Char) (rest : List Char) :
    lexString sep (c :: rest) = if c = sep then some ([c], rest)
      else if c = '\n' then none
      else if c = '\\' then
        match rest with
        | [] => none
        | d :: rest =>
          if d = '\n' then none else (lexString sep rest).map fun (s, r) => (c :: d :: s, r)
      else (lexString sep rest).map fun (s, r) => (c :: s, r) := by
  rw [lexString.eq_def]

/-- `parse_comment` behind `/*`: what comes after the comment. -/
def blockComment : List Char → Option (List Char)
  | [] => none
  | '*' :: '/' :: rest => some rest
  | _ :: rest => blockComment rest

/-- A string whose opening quote `sep` comes after `pre`. -/
def lexQuoted (pre : List Char) (sep : Char) (rest : List Char) : Option (Lexeme × List Char) :=
  (lexString sep rest).map fun (s, r) => (.tok ⟨.ppstr, pre ++ sep :: s⟩, r)

/-- An operator that begins with `c`. -/
def lexPunct (c : Char) (rest : List Char) : Option (Lexeme × List Char) :=
  (follow c).map fun tails =>
    (.tok ⟨.punct, c :: longest tails rest⟩, rest.drop (longest tails rest).length)

/-- The first lexeme of a text, and the text after it. A text that cannot go on so is an error. -/
def lexOne : List Char → Option (Lexeme × List Char)
  | [] => none
  | c :: rest =>
    if c = '\n' then some (.newline, rest)
    else if isSpace c then some (.white, rest)
    else if isId c then
      if c = 'L' ∧ rest.head?.any isQuote then lexQuoted ['L'] (rest.head?.getD c) rest.tail
      else some (.tok ⟨.ident, c :: rest.takeWhile isIdNum⟩, rest.dropWhile isIdNum)
    else if isNum c ∨ c = '.' ∧ rest.head?.any isNum then
      some (.tok ⟨.ppnum, c :: (numTail c rest).1⟩, (numTail c rest).2)
    else if isQuote c then lexQuoted [] c rest
    else if c = '/' ∧ rest.head? = some '*' then
      (blockComment rest.tail).map fun r => (.comment, r)
    else if c = '/' ∧ rest.head? = some '/' then
      some (.comment, rest.dropWhile (· ≠ '\n'))
    else lexPunct c rest

/-! ## Whole texts -/

/-- Lines that end in a backslash are joined with the next one. -/
def removeSplices : List Char → List Char
  | '\\' :: '\n' :: rest => removeSplices rest
  | '\\' :: '\r' :: '\n' :: rest => removeSplices rest
  | c :: rest => c :: removeSplices rest
  | [] => []

theorem numTail_length (t : Char) (text : List Char) : (numTail t text).2.length ≤ text.length := by
  induction text generalizing t with
  | nil => simp [numTail]
  | cons c rest ih =>
      rw [numTail]
      split
      · exact (ih c).trans (Nat.le_succ _)
      · exact le_refl _

/-- What a string is: all of the text up to its end. -/
theorem lexString_eq {sep : Char} {text s r : List Char} (h : lexString sep text = some (s, r)) :
    text = s ++ r ∧ s ≠ [] := by
  induction text using lexString.induct sep generalizing s with
  | case1 => exact absurd h (by simp [lexString])
  | case2 rest =>
      rw [lexString_cons, if_pos rfl] at h
      obtain ⟨rfl, rfl⟩ := Prod.mk.inj (Option.some.inj h)
      exact ⟨rfl, List.cons_ne_nil _ _⟩
  | case3 rest hsep =>
      rw [lexString_cons, if_neg hsep, if_pos rfl] at h
      exact absurd h (by simp)
  | case4 hsep =>
      rw [lexString_cons, if_neg hsep, if_neg (by decide), if_pos rfl] at h
      exact absurd h (by simp)
  | case5 rest hsep =>
      rw [lexString_cons, if_neg hsep, if_neg (by decide), if_pos rfl] at h
      exact absurd h (by simp)
  | case6 d rest hd hsep _ ih =>
      rw [lexString_cons, if_neg hsep, if_neg (by decide), if_pos rfl] at h
      dsimp only at h
      rw [if_neg hd] at h
      obtain ⟨⟨s', r'⟩, hs, heq⟩ := Option.map_eq_some_iff.mp h
      obtain ⟨rfl, rfl⟩ := Prod.mk.inj heq
      exact ⟨by rw [(ih hs).1]; rfl, List.cons_ne_nil _ _⟩
  | case7 c rest hsep hnl hbs ih =>
      rw [lexString_cons, if_neg hsep, if_neg hnl, if_neg hbs] at h
      obtain ⟨⟨s', r'⟩, hs, heq⟩ := Option.map_eq_some_iff.mp h
      obtain ⟨rfl, rfl⟩ := Prod.mk.inj heq
      exact ⟨by rw [(ih hs).1]; rfl, List.cons_ne_nil _ _⟩

theorem lexString_length {sep : Char} {text s r : List Char} (h : lexString sep text = some (s, r)) :
    r.length < text.length := by
  obtain ⟨rfl, hne⟩ := lexString_eq h
  have := List.length_pos_of_ne_nil hne
  rw [List.length_append]
  omega

theorem blockComment_length {text r : List Char} (h : blockComment text = some r) :
    r.length < text.length := by
  induction text using blockComment.induct with
  | case1 => exact absurd h (by simp [blockComment])
  | case2 rest =>
      rw [blockComment] at h
      obtain rfl := Option.some.inj h
      simp
  | case3 c rest hne ih =>
      rw [blockComment] at h
      · have := ih h
        simp only [List.length_cons]
        omega
      · exact hne

theorem lexQuoted_length {pre : List Char} {sep : Char} {text r : List Char} {l : Lexeme}
    (h : lexQuoted pre sep text = some (l, r)) : r.length < text.length := by
  obtain ⟨⟨s, r'⟩, hs, heq⟩ := Option.map_eq_some_iff.mp h
  obtain ⟨-, rfl⟩ := Prod.mk.inj heq
  exact lexString_length hs

/-- Something of the text is used up. -/
theorem lexOne_length {text r : List Char} {l : Lexeme} (h : lexOne text = some (l, r)) :
    r.length < text.length := by
  cases text with
  | nil => exact absurd h (by simp [lexOne])
  | cons c rest =>
      rw [lexOne] at h
      rw [List.length_cons, Nat.lt_succ_iff]
      split_ifs at h with h1 h2 h3 h4 h5 h6 h7 h8
      · obtain ⟨-, rfl⟩ := Prod.mk.inj (Option.some.inj h)
        exact le_refl _
      · obtain ⟨-, rfl⟩ := Prod.mk.inj (Option.some.inj h)
        exact le_refl _
      · have := lexQuoted_length h
        rw [List.length_tail] at this
        omega
      · obtain ⟨-, rfl⟩ := Prod.mk.inj (Option.some.inj h)
        exact List.length_dropWhile_le _ _
      · obtain ⟨-, rfl⟩ := Prod.mk.inj (Option.some.inj h)
        exact numTail_length _ _
      · exact (lexQuoted_length h).le
      · obtain ⟨r', hr, heq⟩ := Option.map_eq_some_iff.mp h
        obtain ⟨-, rfl⟩ := Prod.mk.inj heq
        have := blockComment_length hr
        rw [List.length_tail] at this
        omega
      · obtain ⟨-, rfl⟩ := Prod.mk.inj (Option.some.inj h)
        exact List.length_dropWhile_le _ _
      · obtain ⟨tails, -, heq⟩ := Option.map_eq_some_iff.mp h
        obtain ⟨-, rfl⟩ := Prod.mk.inj heq
        rw [List.length_drop]
        exact Nat.sub_le _ _

/-- A text without splices, cut into lexemes. -/
def lexAll (text : List Char) : Option (List Lexeme) :=
  match _h : lexOne text with
  | none => if text = [] then some [] else none
  | some (l, rest) => (lexAll rest).map (l :: ·)
termination_by text.length
decreasing_by exact lexOne_length _h

/-- The tokens among some lexemes. -/
def tokens : List Lexeme → List Tok
  | [] => []
  | .tok t :: ls => t :: tokens ls
  | _ :: ls => tokens ls

/-! ## What is read -/

/-- A token as `next_nomacro` returns it: the one that its own spelling is. -/
def Tok.Valid (t : Tok) : Prop := lexOne t.spelling = some (.tok t, [])

instance (t : Tok) : Decidable t.Valid := inferInstanceAs (Decidable (_ = _))

/-- Whether an operator that has been read up to `tail` is read further. -/
def longer (tails : List (List Char)) (tail text : List Char) : Bool :=
  tails.any fun u => u ≠ tail && tail.isPrefixOf u && u.isPrefixOf (tail ++ text)

/-- Whether a text that comes after a token is read as part of it, or makes it something else. -/
def continues (t : Tok) (text : List Char) : Bool :=
  match t.kind with
  | .ident => text.head?.any isIdNum || (t.spelling = ['L'] && text.head?.any isQuote)
  | .ppnum => text.head?.any (numAccepts (t.spelling.getLast?.getD ' '))
  | .ppstr => false
  | .punct =>
    (t.spelling.head?.bind follow).any (fun tails => longer tails t.spelling.tail text) ||
      -- a comment or a number
      (t.spelling = ['/'] && text.head?.any fun c => c = '/' || c = '*') ||
      (t.spelling = ['.'] && text.head?.any isNum)

section Munch

variable {c sep : Char} {s r text : List Char}

end Munch

section Append

variable {c : Char} {s text : List Char}

end Append

end TccRiscv64.Pp
