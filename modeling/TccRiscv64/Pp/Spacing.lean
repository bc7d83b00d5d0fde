import TccRiscv64.Pp.Lexer

set_option autoImplicit false

/-! # What `tcc -E` prints

`tcc_preprocess` prints the tokens that `next` returns, blanks and line feeds among them, and
`pp_need_space` decides where one more blank goes between two of them. The text is read again as
the tokens that were printed exactly if no token has something directly behind it that continues it,
and no line ends in a stray backslash. Line markers are lines of their own and are not printed here. -/

namespace TccRiscv64.Pp

/-! ## Printing -/

/-- A token that `next_nomacro` can return. -/
abbrev PpTok := { t : Tok // t.Valid }

/-- `' '` and `'\t'`: all other blanks are skipped. -/
inductive White
  | space
  | tab
  deriving DecidableEq, Repr

def White.char : White → Char
  | .space => ' '
  | .tab => '\t'

/-- What `next` returns. -/
inductive Item
  | tok (t : PpTok)
  | white (w : White)
  | linefeed

/-- `token_seen`: the last token, or `'E'` for a number that a sign could belong to. -/
inductive Seen
  | linefeed
  | e
  | tok (t : Tok)
  deriving DecidableEq

def Tok.isOp (t : Tok) (op : String) : Bool := t = ⟨.punct, op.toList⟩

/-- `a >= TOK_IDENT || a == TOK_PPNUM` -/
def Tok.isWord (t : Tok) : Bool := t.kind = .ident || t.kind = .ppnum

/-- `pp_need_space` -/
def needSpace : Seen → Tok → Bool
  | .linefeed, _ => false
  | .e, b => b.isOp "+" || b.isOp "-"
  | .tok a, b =>
    if a.isOp "+" then b.isOp "++" || b.isOp "+"
    else if a.isOp "-" then b.isOp "--" || b.isOp "-"
    else if a.isWord then b.isWord
    else false

/-- `pp_check_he0xE` -/
def checkHe0xE (t : Tok) : Seen :=
  if t.kind = .ppnum ∧ (t.spelling.getLast?.getD ' ').toUpper = 'E' then .e else .tok t

/-- The room in `white`. -/
def whiteMax : Nat := 399

/-- `tcc_preprocess`, with the blanks that have not been printed yet. -/
def print (seen : Seen) (white : List White) : List Item → List Char
  | [] => []
  | .white w :: items => print seen (if white.length < whiteMax then white ++ [w] else white) items
  | .linefeed :: items =>
    if seen = .linefeed then print seen [] items else '\n' :: print .linefeed [] items
  | .tok t :: items =>
    (if seen ≠ .linefeed ∧ white = [] ∧ needSpace seen t then [' '] else white.map White.char) ++
      t.val.spelling ++ print (checkHe0xE t) [] items

/-- The tokens among some items. -/
def printed : List Item → List Tok
  | [] => []
  | .tok t :: items => t.val :: printed items
  | _ :: items => printed items

/-- What is printed is read again as the same tokens, and nothing of it as a comment. -/
def ReadsBack (items : List Item) : Prop :=
  ∃ ls, lexAll (removeSplices (print .linefeed [] items)) = some ls ∧
    tokens ls = printed items ∧ .comment ∉ ls

/-! ## When tokens stay apart -/

/-- What comes directly behind the token that was `seen`: the spellings of the next tokens, as far as
no blank and no line feed is between them. -/
def directlyAfter (seen : Seen) : List Item → List Char
  | .tok t :: items =>
    if needSpace seen t then [] else t.val.spelling ++ directlyAfter (checkHe0xE t) items
  | _ => []

/-- No token is continued by what comes directly behind it. -/
def Apart : List Item → Prop
  | [] => True
  | .tok t :: items => continues t (directlyAfter (checkHe0xE t) items) = false ∧ Apart items
  | _ :: items => Apart items

/-! ## Lines that are spliced -/

section Splices

variable {c sep : Char} {s text : List Char}

/-- Neither a line feed nor, at its end, the beginning of a splice. -/
def Clean (s : List Char) : Prop := '\n' ∉ s ∧ s.getLast? ≠ some '\\' ∧ s.getLast? ≠ some '\r'

end Splices

/-! ## Texts that are read as given tokens -/

section Reads

variable {t : Tok} {ts : List Tok} {text x y : List Char}

/-- A text is cut into these tokens, and has no comment. -/
def Reads (text : List Char) (ts : List Tok) : Prop :=
  ∃ ls, lexAll text = some ls ∧ tokens ls = ts ∧ .comment ∉ ls

/-- A token's spelling begins with neither a blank nor a line feed. -/
theorem Tok.Valid.head (ht : t.Valid) :
    ∃ c s, t.spelling = c :: s ∧ c ≠ '\n' ∧ isSpace c = false := by
  obtain ⟨kind, spelling⟩ := t
  unfold Tok.Valid at ht
  dsimp only at *
  cases spelling with
  | nil => exact absurd ht (by simp [lexOne])
  | cons c s =>
      refine ⟨c, s, rfl, ?_, ?_⟩
      · rintro rfl
        exact absurd ht (by simp [lexOne])
      · rw [← Bool.not_eq_true]
        intro hspace
        rw [lexOne] at ht
        split_ifs at ht <;> exact absurd (Prod.mk.inj (Option.some.inj ht)).1 (by simp)

end Reads

/-! ## Texts that are printed -/

section Print

variable {seen : Seen} {white : List White} {items : List Item} {t : Tok}

end Print

/-! ## What may come directly behind a token -/

section After

variable {seen : Seen} {white : List White} {items : List Item} {t : Tok} {x y u : List Char}

end After

/-! ## Reading back -/

end TccRiscv64.Pp
