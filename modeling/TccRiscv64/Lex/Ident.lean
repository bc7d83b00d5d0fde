import TccRiscv64.Lex.Number
import TccRiscv64.Lex.TokenTable

set_option autoImplicit false

/-! # Identifiers

`next_nomacro` hashes the bytes of an identifier while it looks for its end, and searches the bucket
at once if the end is in the buffer. A backslash, which also stands behind the end of the buffer,
leads to the slower case: the spelling is collected byte by byte, without the line ends that a
backslash hides, and `tok_alloc` hashes it again. -/

namespace TccRiscv64.Lex

/-- The parse flags and entries of `isidnum_table` that decide what an identifier is. -/
structure Mode where
  asmFile : Bool
  acceptStrays : Bool
  dollar : Bool
  dot : Bool

/-- `isid`. -/
def isId (c : Byte) : Bool :=
  (ch 'a' ≤ c && c ≤ ch 'z') || (ch 'A' ≤ c && c ≤ ch 'Z') || c == ch '_'

/-- `isidnum_table[c - CH_EOF] & (IS_ID|IS_NUM)`. -/
def Mode.isIdNum (m : Mode) (c : Byte) : Bool :=
  isId c || isNum c || 0x80#8 ≤ c || (m.dollar && c == ch '$') ||
    (m.dot && c == ch '.')

/-- The characters that are cases of `parse_ident_fast`. -/
def Mode.isFirst (m : Mode) (c : Byte) : Bool :=
  isId c || 0x80#8 ≤ c || (m.dollar && !m.asmFile && c == ch '$')

/-! ## The input -/

/-- What follows in the buffer, and what each later call of `read` fills it with. -/
structure Input where
  buf : List Byte
  later : List (Byte × List Byte)

namespace Input

/-- All that follows. -/
def bytes (inp : Input) : List Byte :=
  inp.buf ++ inp.later.flatMap fun block => block.1 :: block.2

/-- `next_c`, where `none` is `CH_EOF`. -/
def nextC : Input → Option Byte × Input
  | ⟨c :: buf, later⟩ => (some c, ⟨buf, later⟩)
  | ⟨[], (c, buf) :: later⟩ => (some c, ⟨buf, later⟩)
  | ⟨[], []⟩ => (none, ⟨[], []⟩)

/-- `*--file->buf_ptr = c`, where `cur` was the current character. -/
def unget (inp : Input) (cur : Option Byte) : Input := ⟨cur.toList ++ inp.buf, inp.later⟩

/-- What is behind the backslash that was just read: `.inl` behind the end of its line, or else
`.inr` where the backslash is the current character again. -/
def afterBackslash (inp : Input) : Input ⊕ Input :=
  let (c, inp1) := inp.nextC
  if c = some (ch '\n') then .inl inp1
  else if c = some (ch '\x0d') then
    let (c2, inp2) := inp1.nextC
    if c2 = some (ch '\n') then .inl inp2 else .inr ((inp2.unget c2).unget c)
  else .inr (inp1.unget c)

/-- `handle_stray_noerror`. -/
def handleStray (err : Bool) : Nat → Input → Option (Except String (Option Byte × Input))
  | 0, _ => none
  | fuel + 1, inp =>
    let (c, inp1) := inp.nextC
    if c = some (ch '\\') then
      match inp1.afterBackslash with
      | .inl inp2 => handleStray err fuel inp2
      | .inr inp2 =>
        if err then some (.error "stray '\\' in program") else some (.ok (c, inp2))
    else some (.ok (c, inp1))

end Input

/-- `PEEKC`. -/
def peekc (m : Mode) (fuel : Nat) (inp : Input) : Option (Except String (Option Byte × Input)) :=
  match inp.buf with
  | c :: buf =>
    if c = ch '\\' then inp.handleStray (!m.acceptStrays) fuel
    else some (.ok (some c, ⟨buf, inp.later⟩))
  | [] => inp.handleStray (!m.acceptStrays) fuel

/-! ## The two ways to a token number -/

/-- The loop at `parse_ident_fast`: the hash, the bytes, and what stands behind them. -/
def fastLoop (m : Mode) (h : BitVec 32) : List Byte → BitVec 32 × List Byte × List Byte
  | [] => (h, [], [])
  | c :: rest =>
    if m.isIdNum c then
      let (h', bytes, after) := fastLoop m (tokHashFunc h c) rest
      (h', c :: bytes, after)
    else (h, [], c :: rest)

/-- The loop at `parse_ident_slow`, which collects `tokcstr`. -/
def slowLoop (m : Mode) : Nat → List Byte → Option Byte → Input → Option (Except String (List Byte))
  | 0, _, _, _ => none
  | fuel + 1, tokcstr, c, inp =>
    if c.any m.isIdNum then
      andThen (peekc m (fuel + 1) inp) fun next =>
        slowLoop m fuel (tokcstr ++ c.toList) next.1 next.2
    else some (.ok tokcstr)

section Table

variable (m : Mode) (fuel : Nat) (σ : Tokens)

/-- The token number of a symbol. -/
def tokOf (res : Nat × Tokens) : Option (Except String (Option Nat × Tokens)) :=
  some (.ok (some (res.2.heap res.1).tok, res.2))

/-- Any other token. -/
def noIdent : Option (Except String (Option Nat × Tokens)) := some (.ok (none, σ))

def parseIdentSlow (tokcstr : List Byte) (c : Option Byte) (inp : Input) :
    Option (Except String (Option Nat × Tokens)) :=
  andThen (slowLoop m fuel tokcstr c inp) fun str => andThen (σ.tokAlloc fuel str) tokOf

def parseIdentFast (c : Byte) (inp : Input) : Option (Except String (Option Nat × Tokens)) :=
  let (h, bytes, after) := fastLoop m (tokHashFunc 1#32 c) inp.buf
  if after.head?.getD (ch '\\') ≠ ch '\\' then
    andThen (σ.findOrNew fuel (bucketOf h) (c :: bytes)) tokOf
  else
    andThen (peekc m fuel ⟨after, inp.later⟩) fun next =>
      parseIdentSlow m fuel σ (c :: bytes) next.1 next.2

def isQuote (c : Byte) : Bool := c == ch '\x27' || c == ch '\x22'

/-- The cases of `next_nomacro` that lead to identifiers, for the current character and what follows
it: the token number if it is an identifier. -/
def nextIdent (c : Byte) (inp : Input) : Option (Except String (Option Nat × Tokens)) :=
  if c = ch 'L' then
    let t := inp.buf.head?.getD (ch '\\')
    if t ≠ ch '\\' ∧ ¬isQuote t then parseIdentFast m fuel σ c inp
    else
      andThen (peekc m fuel inp) fun next =>
        if next.1.any isQuote then noIdent σ
        else parseIdentSlow m fuel σ [c] next.1 next.2
  else if c = ch '.' then
    andThen (peekc m fuel inp) fun next =>
      if next.1.any isNum then noIdent σ
      else if m.dot ∧ next.1.any m.isIdNum then
        parseIdentFast m fuel σ c (next.2.unget next.1)
      else noIdent σ
  else if m.isFirst c then parseIdentFast m fuel σ c inp
  else noIdent σ

end Table

/-! ## Runs -/

/-- A spelling from elsewhere, or the first character of a token with what follows it. -/
inductive Event
  | alloc (str : List Byte)
  | next (m : Mode) (c : Byte) (inp : Input)

def Event.step (fuel : Nat) (σ : Tokens) : Event → Option (Except String (Option Nat × Tokens))
  | alloc str => andThen (σ.tokAlloc fuel str) tokOf
  | next m c inp => nextIdent m fuel σ c inp

/-- The token numbers of a sequence of identifiers. -/
def runIdents (fuel : Nat) : List Event → Tokens →
    Option (Except String (List (Option Nat) × Tokens))
  | [], σ => some (.ok ([], σ))
  | ev :: evs, σ =>
    andThen (ev.step fuel σ) fun res =>
      andThen (runIdents fuel evs res.2) fun rest => some (.ok (res.1 :: rest.1, rest.2))

/-! ## The spelling of an identifier -/

/-- The text behind an end of line that a backslash hides. -/
def lineSplice : List Byte → Option (List Byte)
  | c :: c1 :: rest =>
    if c = ch '\\' then
      if c1 = ch '\n' then some rest
      else if c1 = ch '\x0d' ∧ rest.head? = some (ch '\n') then some rest.tail
      else none
    else none
  | _ => none

theorem lineSplice_length {text rest : List Byte} (h : lineSplice text = some rest) :
    rest.length < text.length := by
  unfold lineSplice at h
  split at h
  · split at h
    · split at h
      · cases h
        simp
      · split at h
        · cases h
          simp
          omega
        · cases h
    · cases h
  · cases h

/-- The text without the ends of lines that a backslash hides. -/
def splice (text : List Byte) : List Byte :=
  match _h : lineSplice text with
  | some rest => splice rest
  | none =>
    match text with
    | [] => []
    | c :: rest => c :: splice rest
termination_by text.length
decreasing_by
  · exact lineSplice_length _h
  · exact Nat.lt_succ_self _

/-- The spelling of the identifier that a token is, if it is one. -/
def spelling (m : Mode) (c : Byte) (text : List Byte) : Option (List Byte) :=
  let first := (splice text).head?
  let ident := c :: (splice text).takeWhile m.isIdNum
  if c = ch 'L' then if first.any isQuote then none else some ident
  else if c = ch '.' then
    if m.dot ∧ first.any m.isIdNum ∧ ¬first.any isNum then some ident else none
  else if m.isFirst c then some ident
  else none

def Event.spelling : Event → Option (List Byte)
  | alloc str => some str
  | next m c inp => Lex.spelling m c inp.bytes

/-! ## Reading without hidden ends of lines -/

section Splice

variable {text rest : List Byte} {c : Byte}

theorem splice_of_lineSplice (h : lineSplice text = some rest) : splice text = splice rest := by
  rw [splice]
  split
  · rename_i rest' h'
    rw [Option.some.inj (h.symm.trans h')]
  · rename_i h'
    cases h.symm.trans h'

theorem splice_nil : splice [] = [] := by
  rw [splice]
  rfl

theorem splice_cons (h : lineSplice (c :: rest) = none) :
    splice (c :: rest) = c :: splice rest := by
  rw [splice]
  split
  · rename_i rest' h'
    cases h.symm.trans h'
  · rfl

theorem lineSplice_of_ne (h : c ≠ ch '\\') :
    lineSplice (c :: rest) = none := by
  cases rest with
  | nil => rfl
  | cons c1 rest => rw [lineSplice, if_neg h]

/-- Only a backslash hides anything. -/
theorem splice_cons_of_ne (h : c ≠ ch '\\') : splice (c :: rest) = c :: splice rest :=
  splice_cons (lineSplice_of_ne h)

end Splice

section Reading

variable {inp inp' : Input} {c : Option Byte}

theorem Input.nextC_bytes (inp : Input) :
    inp.bytes = inp.nextC.1.toList ++ inp.nextC.2.bytes := by
  obtain ⟨buf, later⟩ := inp
  cases buf with
  | cons c buf => rfl
  | nil =>
    cases later with
    | cons block later => rfl
    | nil => rfl

/-- Nothing follows the end of the file. -/
theorem Input.nextC_none (h : inp.nextC.1 = none) : inp.bytes = [] := by
  obtain ⟨buf, later⟩ := inp
  cases buf with
  | cons c buf => cases h
  | nil =>
    cases later with
    | cons block later => cases h
    | nil => rfl

theorem Input.unget_bytes (inp : Input) (c : Option Byte) :
    (inp.unget c).bytes = c.toList ++ inp.bytes := by
  rw [bytes, unget, bytes, List.append_assoc]

theorem Input.head_bytes (inp : Input) : inp.bytes.head? = inp.nextC.1 := by
  have hbytes := inp.nextC_bytes
  cases hc : inp.nextC.1 with
  | none => rw [Input.nextC_none hc, List.head?_nil]
  | some c =>
    rw [hc] at hbytes
    rw [hbytes, Option.toList_some, List.singleton_append, List.head?_cons]

theorem lineSplice_newline (rest : List Byte) :
    lineSplice (ch '\\' :: ch '\n' :: rest) = some rest := by
  rw [lineSplice, if_pos rfl, if_pos rfl]

theorem lineSplice_return (rest : List Byte) : lineSplice (ch '\\' :: ch '\x0d' :: rest) =
    if rest.head? = some (ch '\n') then some rest.tail else none := by
  rw [lineSplice, if_pos rfl, if_neg (by decide)]
  simp only [true_and]

theorem lineSplice_other {text : List Byte} (hn : text.head? ≠ some (ch '\n'))
    (hr : text.head? ≠ some (ch '\x0d')) : lineSplice (ch '\\' :: text) = none := by
  cases text with
  | nil => rfl
  | cons c rest =>
    rw [List.head?_cons, ne_eq, Option.some.injEq] at hn hr
    rw [lineSplice, if_pos rfl, if_neg hn, if_neg fun h => hr h.1]

/-- A backslash hides an end of line, or else it is followed by what was read behind it. -/
theorem Input.afterBackslash_bytes (inp : Input) :
    (∃ inp', inp.afterBackslash = .inl inp' ∧ lineSplice (ch '\\' :: inp.bytes) = some inp'.bytes) ∨
      ∃ inp', inp.afterBackslash = .inr inp' ∧ lineSplice (ch '\\' :: inp.bytes) = none ∧
        inp'.bytes = inp.bytes := by
  have hbytes := inp.nextC_bytes
  have hhead := inp.head_bytes
  rw [afterBackslash]
  generalize inp.nextC = next at hbytes hhead ⊢
  obtain ⟨c, inp1⟩ := next
  dsimp only at hbytes hhead ⊢
  split
  · rename_i hc
    left
    subst hc
    exact ⟨inp1, rfl, by rw [hbytes]; exact lineSplice_newline _⟩
  · split
    · rename_i hn hc
      subst hc
      have hbytes' : inp.bytes = ch '\x0d' :: inp1.bytes := hbytes
      have hbytes2 := inp1.nextC_bytes
      rw [hbytes', lineSplice_return, inp1.head_bytes]
      generalize inp1.nextC = next at hbytes2 ⊢
      obtain ⟨c2, inp2⟩ := next
      dsimp only at hbytes2 ⊢
      split
      · rename_i hc2
        left
        subst hc2
        refine ⟨inp2, rfl, ?_⟩
        rw [hbytes2]
        rfl
      · rename_i hc2
        right
        refine ⟨_, rfl, rfl, ?_⟩
        rw [unget_bytes, unget_bytes, hbytes2]
        rfl
    · rename_i hn hr
      right
      refine ⟨_, rfl, lineSplice_other (hhead ▸ hn) (hhead ▸ hr), ?_⟩
      rw [unget_bytes, hbytes]

/-- The next character is that of the text without hidden ends of lines. -/
def Peeked (text : List Byte) (next : Option Byte × Input) : Prop :=
  splice text = next.1.toList ++ splice next.2.bytes ∧ (splice text).head? = next.1 ∧
    next.2.bytes.length + next.1.toList.length ≤ text.length

/-- The text ends in a backslash where strays are errors. -/
def Stray (m : Mode) (e : String) : Prop := e = "stray '\\' in program" ∧ m.acceptStrays = false

theorem peeked_next {inp : Input} {next : Option Byte × Input}
    (hbytes : inp.bytes = next.1.toList ++ next.2.bytes)
    (hnone : next.1 = none → inp.bytes = [])
    (hsplice : ∀ c, next.1 = some c → lineSplice inp.bytes = none) : Peeked inp.bytes next := by
  obtain ⟨c, inp'⟩ := next
  dsimp only at hbytes hnone hsplice
  cases c with
  | none =>
    have hnil := hnone rfl
    rw [hnil] at hbytes
    have hnil' : inp'.bytes = [] := hbytes.symm
    rw [hnil]
    refine ⟨?_, ?_, ?_⟩
    · rw [hnil', splice_nil]
      rfl
    · rw [splice_nil]
      rfl
    · rw [hnil']
      rfl
  | some c =>
    have hbytes' : inp.bytes = c :: inp'.bytes := hbytes
    have hcons : splice inp.bytes = c :: splice inp'.bytes := by
      rw [hbytes']
      exact splice_cons (hbytes' ▸ hsplice c rfl)
    exact ⟨hcons, by rw [hcons]; rfl, by rw [hbytes']; rfl⟩

theorem handleStray_ends (m : Mode) {fuel : Nat} (hfuel : inp.bytes.length < fuel) :
    Ends (Stray m) (Peeked inp.bytes) (inp.handleStray (!m.acceptStrays) fuel) := by
  induction fuel generalizing inp with
  | zero => exact absurd hfuel (Nat.not_lt_zero _)
  | succ fuel ih =>
    have hbytes := inp.nextC_bytes
    have hnone (h : inp.nextC.1 = none) : inp.bytes = [] := Input.nextC_none h
    rw [Input.handleStray]
    generalize inp.nextC = next at hbytes hnone ⊢
    obtain ⟨c, inp1⟩ := next
    dsimp only at hbytes hnone ⊢
    by_cases hc : c = some (ch '\\')
    · subst hc
      have hbytes' : inp.bytes = ch '\\' :: inp1.bytes := hbytes
      rw [if_pos rfl]
      rcases inp1.afterBackslash_bytes with
        ⟨inp2, hafter, hsplice⟩ | ⟨inp2, hafter, hsplice, hsame⟩
      · have hlength := lineSplice_length hsplice
        rw [← hbytes'] at hlength hsplice
        rw [hafter]
        dsimp only
        refine (ih (by omega)).mono (fun _ he => he) fun next hnext => ?_
        obtain ⟨h1, h2, h3⟩ := hnext
        rw [Peeked, splice_of_lineSplice hsplice]
        exact ⟨h1, h2, by omega⟩
      · rw [hafter]
        dsimp only
        cases hm : m.acceptStrays with
        | false => exact .error _ ⟨rfl, hm⟩
        | true =>
          refine .ok _ (peeked_next ?_ ?_ ?_)
          · rw [hsame]
            exact hbytes
          · intro h
            cases h
          · intro _ _
            rw [hbytes']
            exact hsplice
    · rw [if_neg hc]
      refine .ok _ (peeked_next hbytes hnone fun c' hc' => ?_)
      dsimp only at hc'
      subst hc'
      rw [hbytes]
      exact lineSplice_of_ne fun h => hc (congrArg some h)

theorem peekc_ends (m : Mode) {fuel : Nat} (hfuel : inp.bytes.length < fuel) :
    Ends (Stray m) (Peeked inp.bytes) (peekc m fuel inp) := by
  have hstray := handleStray_ends m hfuel
  obtain ⟨buf, later⟩ := inp
  cases buf with
  | nil => exact hstray
  | cons c buf =>
    rw [peekc]
    dsimp only
    split
    · exact hstray
    · rename_i hc
      have hpeeked : Peeked (Input.bytes ⟨c :: buf, later⟩) (some c, ⟨buf, later⟩) :=
        peeked_next rfl (fun h => by cases h) fun _ _ => lineSplice_of_ne hc
      exact .ok _ hpeeked

/-! ## The loops -/

theorem Mode.not_isIdNum_backslash (m : Mode) : m.isIdNum (ch '\\') = false := by
  obtain ⟨_, _, _ | _, _ | _⟩ := m <;> rfl

/-- The slower loop collects the characters of the identifier that are left. -/
theorem slowLoop_ends (m : Mode) {fuel : Nat} {tokcstr text : List Byte}
    (htext : text = c.toList ++ splice inp.bytes) (hhead : text.head? = c)
    (hfuel : inp.bytes.length + c.toList.length < fuel) :
    Ends (Stray m) (· = tokcstr ++ text.takeWhile m.isIdNum) (slowLoop m fuel tokcstr c inp) := by
  induction fuel generalizing tokcstr text c inp with
  | zero => exact absurd hfuel (Nat.not_lt_zero _)
  | succ fuel ih =>
    rw [slowLoop]
    cases c with
    | none =>
      rw [List.head?_eq_none_iff] at hhead
      rw [hhead]
      exact .ok _ (List.append_nil _).symm
    | some c =>
      have htext' : text = c :: splice inp.bytes := htext
      rw [htext', List.takeWhile_cons, Option.any_some]
      split
      · have hlength : inp.bytes.length < fuel + 1 := by omega
        have hpeek := peekc_ends m hlength
        refine hpeek.andThen (fun _ he => he) fun next hnext => ?_
        obtain ⟨h1, h2, h3⟩ := hnext
        have hone : (some c).toList.length = 1 := rfl
        refine (ih h1 h2 (by omega)).mono (fun _ he => he) fun str hstr => ?_
        rw [hstr, List.append_assoc]
        rfl
      · exact .ok _ (List.append_nil _).symm

/-- The fast loop stops at a byte of the buffer that belongs to no identifier, or behind the
buffer. -/
theorem exists_fastLoop (m : Mode) (h : BitVec 32) (buf : List Byte) : ∃ bytes after,
    fastLoop m h buf = (bytes.foldl tokHashFunc h, bytes, after) ∧ buf = bytes ++ after ∧
      (∀ c ∈ bytes, m.isIdNum c = true) ∧ ∀ c ∈ after.head?, m.isIdNum c = false := by
  induction buf generalizing h with
  | nil => exact ⟨[], [], rfl, rfl, by simp, by simp⟩
  | cons c rest ih =>
    rw [fastLoop]
    split
    · rename_i hc
      obtain ⟨bytes, after, hloop, hrest, hall, hstop⟩ := ih (tokHashFunc h c)
      refine ⟨c :: bytes, after, ?_, congrArg (c :: ·) hrest, ?_, hstop⟩
      · rw [hloop]
        rfl
      · rintro d (_ | ⟨_, hd⟩)
        · exact hc
        · exact hall d hd
    · rename_i hc
      refine ⟨[], c :: rest, rfl, rfl, by simp, ?_⟩
      rintro d ⟨⟩
      exact Bool.eq_false_of_not_eq_true hc

theorem splice_append {m : Mode} {bytes : List Byte} (hall : ∀ c ∈ bytes, m.isIdNum c = true)
    (text : List Byte) : splice (bytes ++ text) = bytes ++ splice text := by
  induction bytes with
  | nil => rfl
  | cons c bytes ih =>
    have hc := hall c List.mem_cons_self
    have hne : c ≠ ch '\\' := by
      rintro rfl
      rw [m.not_isIdNum_backslash] at hc
      cases hc
    rw [List.cons_append, splice_cons_of_ne hne, ih fun d hd => hall d (List.mem_cons_of_mem _ hd)]
    rfl

end Reading

/-! ## One identifier -/

section Identifier

variable {m : Mode} {σ : Tokens} {strs : List (List Byte)} {fuel : Nat} {c : Byte} {inp : Input}

/-- The errors there are. -/
def Bad (m : Mode) (strs : List (List Byte)) (e : String) : Prop := Full strs.length e ∨ Stray m e

/-- The token is an identifier with a spelling, which has its number, or it is none. -/
def Numbered (strs : List (List Byte)) (str : Option (List Byte)) (res : Option Nat × Tokens) :
    Prop :=
  ∃ new, res.2.Holds (strs ++ new) ∧ new.length ≤ 1 ∧ res.1 = str.map (identNumber (strs ++ new)) ∧
    ∀ s ∈ str, s ∈ strs ++ new

theorem tokOf_ends {str : List Byte} {res : Nat × Tokens} (h : Allocated strs str res.1 res.2) :
    Ends (Bad m strs) (Numbered strs (some str)) (tokOf res) := by
  obtain ⟨new, hholds, hone, hmem, htok⟩ := h
  refine .ok _ ⟨new, hholds, hone, congrArg some htok, ?_⟩
  rintro s ⟨⟩
  exact hmem

theorem noIdent_ends (h : σ.Holds strs) :
    Ends (Bad m strs) (Numbered strs none) (noIdent σ) :=
  .ok _ ⟨[], by rwa [List.append_nil], Nat.zero_le _, rfl, by simp⟩

theorem parseIdentSlow_ends (h : σ.Holds strs) (hstrs : strs.length < fuel)
    (tokcstr : List Byte) {text : List Byte} {next : Option Byte × Input}
    (hpeek : Peeked text next) (hfuel : text.length < fuel) :
    Ends (Bad m strs) (Numbered strs (some (tokcstr ++ (splice text).takeWhile m.isIdNum)))
      (parseIdentSlow m fuel σ tokcstr next.1 next.2) := by
  obtain ⟨h1, h2, h3⟩ := hpeek
  have hslow : Ends (Stray m) (· = tokcstr ++ (splice text).takeWhile m.isIdNum)
      (slowLoop m fuel tokcstr next.1 next.2) := slowLoop_ends m h1 h2 (h3.trans_lt hfuel)
  refine hslow.andThen (fun _ he => .inr he) fun str hstr => ?_
  rw [← hstr]
  exact (h.alloc str hstrs).andThen (fun _ he => .inl he) fun res hres => tokOf_ends hres

theorem parseIdentFast_ends (h : σ.Holds strs) (hstrs : strs.length < fuel)
    (hfuel : inp.bytes.length < fuel) :
    Ends (Bad m strs) (Numbered strs (some (c :: (splice inp.bytes).takeWhile m.isIdNum)))
      (parseIdentFast m fuel σ c inp) := by
  obtain ⟨bytes, after, hloop, hbuf, hall, hstop⟩ := exists_fastLoop m (tokHashFunc 1#32 c) inp.buf
  rw [parseIdentFast, hloop]
  dsimp only
  have htext : inp.bytes = bytes ++ Input.bytes ⟨after, inp.later⟩ := by
    rw [Input.bytes, hbuf, List.append_assoc]
    rfl
  have hlength : (Input.bytes ⟨after, inp.later⟩).length < fuel := by
    rw [htext, List.length_append] at hfuel
    omega
  rw [htext, splice_append hall, List.takeWhile_append_of_pos hall]
  split
  · rename_i hne
    cases after with
    | nil => exact absurd rfl hne
    | cons d after =>
      have hd : m.isIdNum d = false := hstop d rfl
      have hcons : splice (Input.bytes ⟨d :: after, inp.later⟩) =
          d :: splice (Input.bytes ⟨after, inp.later⟩) := splice_cons_of_ne hne
      rw [hcons, List.takeWhile_cons, hd, if_neg Bool.false_ne_true, List.append_nil]
      refine (h.alloc (c :: bytes) hstrs).andThen (fun _ he => .inl he) fun res hres => ?_
      exact tokOf_ends hres
  · refine (peekc_ends m hlength).andThen (fun _ he => .inr he) fun next hnext => ?_
    exact parseIdentSlow_ends h hstrs (c :: bytes) hnext hlength

/-- A byte in the buffer that is no backslash is the next character. -/
theorem head_splice {d : Byte} (hd : inp.buf.head?.getD (ch '\\') = d) (hne : d ≠ ch '\\') :
    (splice inp.bytes).head? = some d := by
  obtain ⟨_ | ⟨d', buf⟩, later⟩ := inp
  · exact absurd hd.symm hne
  · have hd' : d' = d := hd
    subst hd'
    have hcons : splice (Input.bytes ⟨d' :: buf, later⟩) =
        d' :: splice (Input.bytes ⟨buf, later⟩) := splice_cons_of_ne hne
    rw [hcons, List.head?_cons]

/-- The character that was read is put back. -/
theorem Peeked.unget {text : List Byte} {next : Option Byte × Input} (h : Peeked text next)
    (hident : next.1.any m.isIdNum = true) :
    splice (next.2.unget next.1).bytes = splice text ∧
      (next.2.unget next.1).bytes.length ≤ text.length := by
  obtain ⟨c, inp'⟩ := next
  obtain ⟨h1, -, h3⟩ := h
  cases c with
  | none => cases hident
  | some d =>
    have hne : d ≠ ch '\\' := by
      rintro rfl
      rw [Option.any_some, m.not_isIdNum_backslash] at hident
      cases hident
    rw [Input.unget_bytes]
    exact ⟨(splice_cons_of_ne hne).trans h1.symm, h3⟩

theorem nextIdent_ends (h : σ.Holds strs) (hstrs : strs.length < fuel)
    (hfuel : inp.bytes.length < fuel) :
    Ends (Bad m strs) (Numbered strs (spelling m c inp.bytes)) (nextIdent m fuel σ c inp) := by
  rw [nextIdent, spelling]
  dsimp only
  by_cases hL : c = ch 'L'
  · rw [if_pos hL, if_pos hL]
    generalize ht : inp.buf.head?.getD (ch '\\') = t
    by_cases hfast : t ≠ ch '\\' ∧ ¬isQuote t = true
    · rw [if_pos hfast, head_splice ht hfast.1, Option.any_some, if_neg hfast.2]
      exact parseIdentFast_ends h hstrs hfuel
    · rw [if_neg hfast]
      refine (peekc_ends m hfuel).andThen (fun _ he => .inr he) fun next hnext => ?_
      rw [hnext.2.1]
      split
      · exact noIdent_ends h
      · exact parseIdentSlow_ends h hstrs [c] hnext hfuel
  · rw [if_neg hL, if_neg hL]
    by_cases hdot : c = ch '.'
    · rw [if_pos hdot, if_pos hdot]
      refine (peekc_ends m hfuel).andThen (fun _ he => .inr he) fun next hnext => ?_
      rw [hnext.2.1]
      by_cases hnum : next.1.any isNum = true
      · rw [if_pos hnum, if_neg fun hboth => hboth.2.2 hnum]
        exact noIdent_ends h
      · rw [if_neg hnum]
        by_cases hident : m.dot = true ∧ next.1.any m.isIdNum = true
        · rw [if_pos hident, if_pos ⟨hident.1, hident.2, hnum⟩]
          obtain ⟨hsplice, hlength⟩ := hnext.unget hident.2
          rw [← hsplice]
          exact parseIdentFast_ends h hstrs (hlength.trans_lt hfuel)
        · rw [if_neg hident, if_neg fun hboth => hident ⟨hboth.1, hboth.2.1⟩]
          exact noIdent_ends h
    · rw [if_neg hdot, if_neg hdot]
      split
      · exact parseIdentFast_ends h hstrs hfuel
      · exact noIdent_ends h

end Identifier

/-! ## A run -/

section Run

variable {σ : Tokens} {strs : List (List Byte)} {fuel : Nat}

/-- How much text the token may be read from. -/
def Event.length : Event → Nat
  | alloc _ => 0
  | next _ _ inp => inp.bytes.length

/-- The errors of a run with `n` spellings in the end: the table is full, or a backslash stands
where none may. -/
def Event.Fails (n : Nat) (evs : List Event) (e : String) : Prop :=
  Full n e ∨ ∃ m c inp, next m c inp ∈ evs ∧ Stray m e

theorem Event.step_ends (ev : Event) (h : σ.Holds strs) (hstrs : strs.length < fuel)
    (hfuel : ev.length < fuel) :
    Ends (fun e => Fails strs.length [ev] e) (Numbered strs ev.spelling) (ev.step fuel σ) := by
  cases ev with
  | alloc str =>
    have hone (e : String) (he : Full strs.length e) : Fails strs.length [alloc str] e := .inl he
    refine ((h.alloc str hstrs).mono (fun e he => he) (fun _ hres => hres)).andThen hone ?_
    intro res hres
    obtain ⟨new, hholds, hle, hmem, htok⟩ := hres
    refine .ok _ ⟨new, hholds, hle, congrArg some htok, ?_⟩
    rintro s ⟨⟩
    exact hmem
  | next m c inp =>
    refine (nextIdent_ends h hstrs hfuel).mono (fun e he => ?_) fun _ hres => hres
    exact he.imp id fun hstray => ⟨m, c, inp, List.mem_cons_self, hstray⟩

/-- A spelling keeps its number. -/
theorem identNumber_append {str : List Byte} (h : str ∈ strs) (new : List (List Byte)) :
    identNumber (strs ++ new) str = identNumber strs str := by
  rw [identNumber, identNumber, List.idxOf_append_of_mem h]

theorem runIdents_ends {evs : List Event} (h : σ.Holds strs)
    (hstrs : strs.length + evs.length < fuel) (hfuel : ∀ ev ∈ evs, ev.length < fuel) :
    Ends (Event.Fails (strs.length + evs.length) evs)
      (fun res => ∃ new, res.2.Holds (strs ++ new) ∧
        res.1 = evs.map (fun ev => ev.spelling.map (identNumber (strs ++ new))) ∧
        ∀ ev ∈ evs, ∀ s ∈ ev.spelling, s ∈ strs ++ new)
      (runIdents fuel evs σ) := by
  induction evs generalizing σ strs with
  | nil => exact .ok _ ⟨[], by rwa [List.append_nil], rfl, by simp⟩
  | cons ev evs ih =>
    rw [runIdents]
    rw [List.length_cons] at hstrs ⊢
    have hlength : strs.length < fuel := by omega
    have hstep := ev.step_ends h hlength (hfuel ev List.mem_cons_self)
    refine hstep.andThen (fun e he => ?_) fun res hres => ?_
    · rcases he with ⟨he, hfull⟩ | ⟨m, c, inp, hmem, hstray⟩
      · exact .inl ⟨he, by omega⟩
      · rw [List.mem_singleton] at hmem
        exact .inr ⟨m, c, inp, hmem ▸ List.mem_cons_self, hstray⟩
    · obtain ⟨new, hholds, hone, hres, hspell⟩ := hres
      have hlength : (strs ++ new).length ≤ strs.length + 1 := by
        rw [List.length_append]
        omega
      have hrest := ih hholds (by omega) fun ev' hev' => hfuel ev' (List.mem_cons_of_mem _ hev')
      refine hrest.andThen (fun e he => ?_) fun rest hrest => ?_
      · rcases he with ⟨he, hfull⟩ | ⟨m, c, inp, hmem, hstray⟩
        · exact .inl ⟨he, by omega⟩
        · exact .inr ⟨m, c, inp, List.mem_cons_of_mem _ hmem, hstray⟩
      · obtain ⟨new', hholds', hres', hspell'⟩ := hrest
        rw [List.append_assoc] at hholds' hres' hspell'
        refine .ok _ ⟨new ++ new', hholds', ?_, ?_⟩
        · rw [hres, hres', List.map_cons]
          refine congrArg (· :: _) (Option.map_congr fun s hs => ?_)
          rw [← List.append_assoc, identNumber_append (hspell s hs)]
        · intro ev' hev' s hs
          rcases List.mem_cons.1 hev' with rfl | hev'
          · rw [← List.append_assoc]
            exact List.mem_append_left _ (hspell s hs)
          · exact hspell' ev' hev' s hs

/-- **One number for a spelling.** Whatever the sequence of identifiers, and wherever blocks and
lines end in them, a token has the number of its spelling; different spellings have different
numbers; and the number gives the spelling back. -/
theorem identifiers_numbered (evs : List Event) {fuel : Nat} (hevs : evs.length < fuel)
    (hfuel : ∀ ev ∈ evs, ev.length < fuel) :
    Ends (Event.Fails evs.length evs)
      (fun res => ∃ number : List Byte → Nat,
        res.1 = evs.map (fun ev => ev.spelling.map number) ∧
        (∀ ev ∈ evs, ∀ s ∈ ev.spelling, res.2.getTokStr (number s) = some s) ∧
        ∀ ev ∈ evs, ∀ ev' ∈ evs, ∀ s ∈ ev.spelling, ∀ s' ∈ ev'.spelling,
          number s = number s' ↔ s = s')
      (runIdents fuel evs Tokens.empty) := by
  have hlength : ([] : List (List Byte)).length + evs.length = evs.length := Nat.zero_add _
  have hrun := runIdents_ends Tokens.empty_holds (hlength.trans_lt hevs) hfuel
  rw [hlength] at hrun
  refine hrun.mono (fun _ he => he) fun res hres => ?_
  obtain ⟨new, hholds, hres, hspell⟩ := hres
  have hstr (ev : Event) (hev : ev ∈ evs) (s : List Byte) (hs : s ∈ ev.spelling) :
      res.2.getTokStr (identNumber ([] ++ new) s) = some s := hholds.getTokStr (hspell ev hev s hs)
  refine ⟨identNumber ([] ++ new), hres, hstr, ?_⟩
  intro ev hev ev' hev' s hs s' hs'
  refine ⟨fun heq => ?_, ?_⟩
  · have h1 := hstr ev hev s hs
    rw [heq, hstr ev' hev' s' hs'] at h1
    exact (Option.some.inj h1).symm
  · rintro rfl
    rfl

/-- `ab` in one piece; with the end of a line in it; and with the end of the buffer in it. -/
def abThrice : List Event :=
  let c := Event.next ⟨false, false, true, false⟩ (ch 'a')
  [c ⟨[ch 'b', ch ';'], []⟩, c ⟨[ch '\\', ch '\n', ch 'b', ch ';'], []⟩,
    c ⟨[], [(ch 'b', [ch ';'])]⟩]

theorem identifiers_numbered_abThrice :
    Ends (Event.Fails 3 abThrice)
      (fun res => ∃ number : List Byte → Nat,
        res.1 = abThrice.map (fun ev => ev.spelling.map number) ∧
        (∀ ev ∈ abThrice, ∀ s ∈ ev.spelling, res.2.getTokStr (number s) = some s) ∧
        ∀ ev ∈ abThrice, ∀ ev' ∈ abThrice, ∀ s ∈ ev.spelling, ∀ s' ∈ ev'.spelling,
          number s = number s' ↔ s = s')
      (runIdents 5 abThrice Tokens.empty) :=
  identifiers_numbered abThrice (by decide) (by decide)

example : (runIdents 5 abThrice Tokens.empty).map (fun res => res.toOption.map Prod.fst) =
    some (some [some 256, some 256, some 256]) := by
  rfl

end Run

end TccRiscv64.Lex
