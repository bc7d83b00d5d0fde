import Mathlib

set_option autoImplicit false

/-! # Files, includes and conditional groups

What `preprocess`, `preprocess_skip` and the end of a file in `next_nomacro` do with the lines of a
file: the stack of open `#if`s, the files that are being read, and the cache of include files with
the macros that guard them. A line is what the lexer makes of it. -/

namespace TccRiscv64.Include

variable {Key Def Tok Name Path : Type}

/-- The macro table, as `define_find` looks into it. -/
abbrev Macros (Key Def : Type) := Key → Option Def

/-- A directive, by the token behind the `#`. -/
inductive Directive (Key Def Name Path : Type)
  /-- a `#` alone on its line -/
  | tokLinefeed
  | tokDefine (v : Key) (d : Def)
  | tokUndef (v : Key)
  /-- `#include`, or `#include_next` -/
  | tokInclude (doNext : Bool) (name : Name)
  /-- `#if`, with what `expr_preprocess` makes of its line -/
  | tokIf (expr : Macros Key Def → Except String Bool)
  | tokIfdef (v : Key)
  | tokIfndef (v : Key)
  | tokElif (expr : Macros Key Def → Except String Bool)
  | tokElse
  | tokEndif
  /-- `#line`, and the name in it with its directory -/
  | tokLine (name : Option Path)
  /-- `#pragma once` -/
  | once
  /-- any other directive, by what it does to the macro table -/
  | other (act : Macros Key Def → Except String (Macros Key Def))

/-- A line of a file: a directive, or the tokens on it. -/
inductive Line (Key Def Tok Name Path : Type)
  | text (toks : List Tok)
  | directive (d : Directive Key Def Name Path)

/-- What the preprocessor is run with. -/
structure Config (Key Def Tok Name Path : Type) where
  /-- the files that can be opened -/
  files : Path → Option (List (Line Key Def Tok Name Path))
  /-- the paths that `parse_include` tries for a name in a file; it passes over some numbers -/
  search : Path → Name → List (Option Path)
  /-- `normalized_PATHCMP` of two paths with one base name -/
  samePath : Path → Path → Bool
  /-- `__has_include` and `__has_include_next`, which `#ifdef` takes for defined -/
  isHasInclude : Key → Bool
  /-- one file, whatever its path -/
  files_eq : ∀ p q, samePath p q = true → files p = files q

/-- `CachedInclude` -/
structure CachedInclude (Key Path : Type) where
  filename : Path
  ifndefMacro : Option Key
  once : Bool

/-- `BufferedFile`, with the lines that are left and the flags `TOK_FLAG_BOF` and `TOK_FLAG_ENDIF`. -/
structure BufferedFile (Key Def Tok Name Path : Type) where
  lines : List (Line Key Def Tok Name Path)
  filename : Path
  trueFilename : Path
  ifndefMacro : Option Key
  ifndefMacroSaved : Option Key
  /-- how many `#if`s were open at the start of the file -/
  ifdefStackPtr : Nat
  includeNextIndex : Nat
  bof : Bool
  endif : Bool
  /-- the depth that `preprocess_skip` has counted to, while it skips -/
  skip : Option Nat

/-- The state of the preprocessor. -/
structure State (Key Def Tok Name Path : Type) where
  macros : Macros Key Def
  cachedIncludes : List (CachedInclude Key Path)
  /-- top first: bit 0 is set in a group that is read, bit 1 behind `#else` -/
  ifdefStack : List Nat
  /-- the tokens of the files, before macros are expanded -/
  out : List Tok
  file : BufferedFile Key Def Tok Name Path
  includeStack : List (BufferedFile Key Def Tok Name Path)

/-- `IFDEF_STACK_SIZE` -/
def ifdefStackSize : Nat := 64

/-- `INCLUDE_STACK_SIZE` -/
def includeStackSize : Nat := 32

variable [DecidableEq Key] [DecidableEq Path]

/-! ## The cache -/

/-- Whether `search_cached_include` takes an entry for a path. -/
def CachedInclude.isFor (cfg : Config Key Def Tok Name Path) (filename : Path)
    (e : CachedInclude Key Path) : Bool :=
  filename = e.filename || (e.once && cfg.samePath filename e.filename)

/-- `search_cached_include` -/
def searchCachedInclude (cfg : Config Key Def Tok Name Path) (filename : Path)
    (cached : List (CachedInclude Key Path)) : Option (CachedInclude Key Path) :=
  cached.find? (·.isFor cfg filename)

/-- Changes the entry for a path. -/
def modifyCached (cfg : Config Key Def Tok Name Path) (filename : Path)
    (f : CachedInclude Key Path → CachedInclude Key Path) :
    List (CachedInclude Key Path) → List (CachedInclude Key Path)
  | [] => []
  | e :: cached =>
    if e.isFor cfg filename then f e :: cached else e :: modifyCached cfg filename f cached

/-- `search_cached_include` with an entry to be added, which is then changed. -/
def addCached (cfg : Config Key Def Tok Name Path) (filename : Path)
    (f : CachedInclude Key Path → CachedInclude Key Path)
    (cached : List (CachedInclude Key Path)) : List (CachedInclude Key Path) :=
  match searchCachedInclude cfg filename cached with
  | some _ => modifyCached cfg filename f cached
  | none => f ⟨filename, none, false⟩ :: cached

/-! ## Opening a file -/

/-- `tcc_open_bf` -/
def tccOpen (path : Path) (lines : List (Line Key Def Tok Name Path)) (ifdefStackPtr : Nat) :
    BufferedFile Key Def Tok Name Path :=
  { lines, filename := path, trueFilename := path, ifndefMacro := none, ifndefMacroSaved := none,
    ifdefStackPtr, includeNextIndex := 0, bof := true, endif := false, skip := none }

/-- What `parse_include` finds for a name. -/
inductive Found (Key Def Tok Name Path : Type)
  /-- an entry of the cache by which the file need not be read -/
  | skipped (path : Path) (e : CachedInclude Key Path)
  | opened (path : Path) (lines : List (Line Key Def Tok Name Path)) (i : Nat)

/-- The loop of `parse_include` over the paths from number `i` on. -/
def searchInclude (cfg : Config Key Def Tok Name Path) (st : State Key Def Tok Name Path) (i : Nat) :
    List (Option Path) → Except String (Found Key Def Tok Name Path)
  | [] => .error "include file not found"
  | none :: paths => searchInclude cfg st (i + 1) paths
  | some buf :: paths =>
    match searchCachedInclude cfg buf st.cachedIncludes with
    | some e =>
      if (e.ifndefMacro.bind st.macros).isSome || e.once then .ok (.skipped buf e)
      else match cfg.files buf with
        | some lines => .ok (.opened buf lines i)
        | none => searchInclude cfg st (i + 1) paths
    | none =>
      match cfg.files buf with
      | some lines => .ok (.opened buf lines i)
      | none => searchInclude cfg st (i + 1) paths

/-- Which file an `#include` is about. -/
def findInclude (cfg : Config Key Def Tok Name Path) (st : State Key Def Tok Name Path)
    (doNext : Bool) (name : Name) : Except String (Found Key Def Tok Name Path) :=
  let i := if doNext then st.file.includeNextIndex + 1 else 0
  searchInclude cfg st i ((cfg.search st.file.trueFilename name).drop i)

/-- The file is read, and then the one that includes it goes on. -/
def State.push (st : State Key Def Tok Name Path) (path : Path)
    (lines : List (Line Key Def Tok Name Path)) (i : Nat) : State Key Def Tok Name Path :=
  { st with
    file := { tccOpen path lines st.ifdefStack.length with includeNextIndex := i }
    includeStack := st.file :: st.includeStack }

/-- `parse_include` -/
def parseInclude (cfg : Config Key Def Tok Name Path) (st : State Key Def Tok Name Path)
    (doNext : Bool) (name : Name) : Except String (State Key Def Tok Name Path) :=
  (findInclude cfg st doNext name).bind fun found =>
    match found with
    | .skipped _ _ => .ok st
    | .opened path lines i =>
      if includeStackSize ≤ st.includeStack.length then .error "#include recursion too deep"
      else .ok (st.push path lines i)

/-! ## Directives -/

/-- What `preprocess` goes on with in a group: bit 0 of `c` says whether it is read. -/
def testSkip (st : State Key Def Tok Name Path) (c : Nat) : State Key Def Tok Name Path :=
  { st with file.skip := if c % 2 = 1 then none else some 0 }

/-- A group is opened. -/
def doIf (st : State Key Def Tok Name Path) (c : Bool) : Except String (State Key Def Tok Name Path) :=
  if ifdefStackSize ≤ st.ifdefStack.length then .error "memory full (ifdef)"
  else .ok (testSkip { st with ifdefStack := c.toNat :: st.ifdefStack } c.toNat)

/-- There is an `#else` or `#elif`: a file whose outermost group has one is not guarded. -/
def testElse (st : State Key Def Tok Name Path) (c : Nat) : State Key Def Tok Name Path :=
  testSkip (if st.ifdefStack.length = st.file.ifdefStackPtr + 1 then { st with file.ifndefMacro := none }
    else st) c

/-- `#else` -/
def doElse (st : State Key Def Tok Name Path) : Except String (State Key Def Tok Name Path) :=
  match st.ifdefStack with
  | [] => .error "#else without matching #if"
  | c :: stack =>
    if c &&& 2 ≠ 0 then .error "#else after #else"
    else .ok (testElse { st with ifdefStack := (c ^^^ 3) :: stack } (c ^^^ 3))

/-- `#elif` -/
def doElif (st : State Key Def Tok Name Path) (expr : Macros Key Def → Except String Bool) :
    Except String (State Key Def Tok Name Path) :=
  match st.ifdefStack with
  | [] => .error "#elif without matching #if"
  | c :: stack =>
    if 1 < c then .error "#elif after #else"
    else if c = 1 then .ok (testElse st 0)
    else (expr st.macros).bind fun b =>
      .ok (testElse { st with ifdefStack := b.toNat :: stack } b.toNat)

/-- `#endif` -/
def doEndif (st : State Key Def Tok Name Path) : Except String (State Key Def Tok Name Path) :=
  if st.ifdefStack.length ≤ st.file.ifdefStackPtr then .error "#endif without matching #if"
  else
    let st := { st with ifdefStack := st.ifdefStack.tail, file.skip := none }
    if st.file.ifndefMacro.isSome ∧ st.ifdefStack.length = st.file.ifdefStackPtr then
      .ok { st with file := { st.file with
        ifndefMacroSaved := st.file.ifndefMacro, ifndefMacro := none, endif := true } }
    else .ok st

/-- `preprocess`, behind the token of the directive; `isBof` says that no token came before it. -/
def preprocess (cfg : Config Key Def Tok Name Path) (st : State Key Def Tok Name Path) (isBof : Bool) :
    Directive Key Def Name Path → Except String (State Key Def Tok Name Path)
  | .tokLinefeed => .ok st
  | .tokDefine v d => .ok { st with macros := Function.update st.macros v (some d) }
  | .tokUndef v => .ok { st with macros := Function.update st.macros v none }
  | .tokInclude doNext name => parseInclude cfg st doNext name
  | .tokIf expr => (expr st.macros).bind fun c => doIf st c
  | .tokIfdef v => doIf st ((st.macros v).isSome || cfg.isHasInclude v)
  | .tokIfndef v =>
    doIf (if isBof then { st with file.ifndefMacro := some v } else st)
      !((st.macros v).isSome || cfg.isHasInclude v)
  | .tokElif expr => doElif st expr
  | .tokElse => doElse st
  | .tokEndif => doEndif st
  | .tokLine name => .ok { st with file.filename := name.getD st.file.filename }
  | .once =>
    .ok { st with
      cachedIncludes :=
        addCached cfg st.file.filename (fun e => { e with once := true }) st.cachedIncludes }
  | .other act => (act st.macros).bind fun macros => .ok { st with macros }

/-! ## Skipped groups -/

/-- `#if`, `#ifdef` and `#ifndef`. -/
def Directive.opens : Directive Key Def Name Path → Bool
  | .tokIf _ | .tokIfdef _ | .tokIfndef _ => true
  | _ => false

/-- `#else` and `#elif`. -/
def Directive.isElse : Directive Key Def Name Path → Bool
  | .tokElse | .tokElif _ => true
  | _ => false

def Directive.isEndif : Directive Key Def Name Path → Bool
  | .tokEndif => true
  | _ => false

/-- A line that `preprocess_skip` comes to at depth `a`. It leaves the line that ends the group to
`preprocess`. -/
def preprocessSkip (cfg : Config Key Def Tok Name Path) (st : State Key Def Tok Name Path) (a : Nat) :
    Line Key Def Tok Name Path → Except String (State Key Def Tok Name Path)
  | .text _ => .ok st
  | .directive d =>
    if a = 0 ∧ (d.isElse || d.isEndif) = true then preprocess cfg st false d
    else if d.opens then .ok { st with file.skip := some (a + 1) }
    else if d.isEndif then .ok { st with file.skip := some (a - 1) }
    else .ok st

/-! ## Steps -/

/-- A line that is read. Any token on it ends the beginning of the file, and what comes behind an
`#endif`. -/
def readLine (cfg : Config Key Def Tok Name Path) (st : State Key Def Tok Name Path) :
    Line Key Def Tok Name Path → Except String (State Key Def Tok Name Path)
  | .text [] => .ok st
  | .directive .tokLinefeed => .ok st
  | .text toks =>
    .ok { st with out := st.out ++ toks, file := { st.file with bof := false, endif := false } }
  | .directive d =>
    preprocess cfg { st with file := { st.file with bof := false, endif := false } } st.file.bof d

/-- The end of a file in `next_nomacro`. There is no next state at the end of the main file. -/
def endOfFile (cfg : Config Key Def Tok Name Path) (st : State Key Def Tok Name Path) :
    Except String (Option (State Key Def Tok Name Path)) :=
  if st.file.skip.isSome then .error "#endif expected"
  else if st.ifdefStack.length ≠ st.file.ifdefStackPtr then .error "missing #endif"
  else match st.includeStack with
    | [] => .ok none
    | file :: includeStack =>
      .ok (some { st with
        cachedIncludes :=
          if st.file.endif then
            addCached cfg st.file.filename
              (fun e => { e with ifndefMacro := st.file.ifndefMacroSaved }) st.cachedIncludes
          else st.cachedIncludes
        file, includeStack })

/-- The next line of the file that is being read, or its end. -/
def step (cfg : Config Key Def Tok Name Path) (st : State Key Def Tok Name Path) :
    Except String (Option (State Key Def Tok Name Path)) :=
  match st.file.lines with
  | [] => endOfFile cfg st
  | line :: lines =>
    let st := { st with file.lines := lines }
    match st.file.skip with
    | none => (readLine cfg st line).map some
    | some a => (preprocessSkip cfg st a line).map some

/-- Any number of steps. -/
inductive Steps (cfg : Config Key Def Tok Name Path) :
    State Key Def Tok Name Path → State Key Def Tok Name Path → Prop
  | refl (st : State Key Def Tok Name Path) : Steps cfg st st
  | head {st st' st'' : State Key Def Tok Name Path} (h : step cfg st = .ok (some st'))
      (hs : Steps cfg st' st'') : Steps cfg st st''

/-- `preprocess_start`: the definitions of the command line are read before the main file. -/
def preprocessStart (cmdline main : Path × List (Line Key Def Tok Name Path)) :
    State Key Def Tok Name Path :=
  { macros := fun _ => none, cachedIncludes := [], ifdefStack := [], out := [],
    file := tccOpen cmdline.1 cmdline.2 0, includeStack := [tccOpen main.1 main.2 0] }

/-- The states that are reached from the start. -/
def Reachable (cfg : Config Key Def Tok Name Path) (st : State Key Def Tok Name Path) : Prop :=
  ∃ cmdline main, cfg.files cmdline.1 = some cmdline.2 ∧ cfg.files main.1 = some main.2 ∧
    Steps cfg (preprocessStart cmdline main) st

end TccRiscv64.Include
