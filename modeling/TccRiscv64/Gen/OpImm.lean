import TccRiscv64.Gen.Compare
import TccRiscv64.Gen.Jumps

set_option autoImplicit false

/-! # Operators with a constant operand

All of `gen_opil`: an operator on two registers, and the forms with an immediate that a small constant
goes into. The two agree, with one exception: equality with a constant on 32 bits compares the low
words, and equality of registers all of them. -/

namespace TccRiscv64.Gen

open TccRiscv64.Isa

/-! ## The code generator -/

/-- The operators of `gen_opil`. -/
inductive Operator
  | add | sub | mul | div | mod | udiv | pdiv | umod | and | or | xor | shl | shr | sar
  | cmp (op : Cond)
  deriving DecidableEq

/-- The top of the value stack after an operator, with the code emitted for it. -/
inductive Outcome
  | value (words : List Word) (d : XReg)
  | compare (r : Comparison)

/-- `vtop->cmp_op ^= 1`. -/
def Outcome.not : Outcome → Outcome
  | value words d => .value words d
  | compare r => .compare r.not

/-- With other code before it. -/
def Outcome.after (ws : List Word) : Outcome → Outcome
  | value words d => .value (ws ++ words) d
  | compare r => .compare { r with words := ws ++ r.words }

/-- The end of `gen_opil`, with both operands in registers. -/
def registerOp (op : Operator) (ll : Bool) (a b d : XReg) : Outcome :=
  let ll := wordBit !ll
  match op with
  | .cmp op => .compare ⟨[], op, a, b⟩
  | .add => .value [er (0x33#7 ||| ll) 0#3 d a b 0#7] d
  | .sub => .value [er (0x33#7 ||| ll) 0#3 d a b 0x20#7] d
  | .sar => .value [er (0x33#7 ||| ll ||| ll) 5#3 d a b 0x20#7] d
  | .shr => .value [er (0x33#7 ||| ll ||| ll) 5#3 d a b 0#7] d
  | .shl => .value [er (0x33#7 ||| ll) 1#3 d a b 0#7] d
  | .mul => .value [er (0x33#7 ||| ll) 0#3 d a b 1#7] d
  | .div => .value [er (0x33#7 ||| ll) 4#3 d a b 1#7] d
  | .and => .value [er 0x33#7 7#3 d a b 0#7] d
  | .xor => .value [er 0x33#7 4#3 d a b 0#7] d
  | .or => .value [er 0x33#7 6#3 d a b 0#7] d
  | .mod => .value [er (if ll ≠ 0#7 then 0x3b#7 else 0x33#7) 6#3 d a b 1#7] d
  | .umod => .value [er (0x33#7 ||| ll) 7#3 d a b 1#7] d
  | .pdiv | .udiv => .value [er (0x33#7 ||| ll) 5#3 d a b 1#7] d

section Model

variable (ll : Bool) (t : IntType) (a d b e : XReg) (c : BitVec 64)

/-- The constant is loaded into `b`, and the result goes to `e`. -/
def throughRegisters (op : Operator) : Option Outcome := do
  some ((registerOp op ll a b e).after (← loadConst b t c))

/-- `do_cop`: the result of the instruction is in `d`; that of a comparison is compared with zero. -/
def immediateOp (op : Operator) (opcode : BitVec 7) (func3 : BitVec 3) (fc : BitVec 32) :
    Option Outcome := do
  let w ← ei opcode func3 d a fc
  match op with
  | .cmp _ => some (.compare ⟨[w], .ne, d, 0#5⟩)
  | _ => some (.value [w] d)

/-- The operators with a small constant that do not go back to others. -/
def genSmall (op : Operator) : Option Outcome :=
  let fc := c.setWidth 32
  let cll := wordBit !ll
  let m := if ll then 63#32 else 31#32
  match op with
  | .sub =>
    if fc.toInt ≤ -2048 then throughRegisters ll t a b e c op
    else immediateOp a d op (0x13#7 ||| cll) 0#3 (-fc)
  | .add => immediateOp a d op (0x13#7 ||| cll) 0#3 fc
  | .cmp .le =>
    if 2047 ≤ fc.toInt then throughRegisters ll t a b e c op
    else immediateOp a d op 0x13#7 2#3 (fc + 1#32)
  | .cmp .lt => immediateOp a d op 0x13#7 2#3 fc
  | .cmp .ule =>
    if 2047 ≤ fc.toInt ∨ fc = -1#32 then throughRegisters ll t a b e c op
    else immediateOp a d op 0x13#7 3#3 (fc + 1#32)
  | .cmp .ult => immediateOp a d op 0x13#7 3#3 fc
  | .xor => immediateOp a d op 0x13#7 4#3 fc
  | .or => immediateOp a d op 0x13#7 6#3 fc
  | .and => immediateOp a d op 0x13#7 7#3 fc
  | .shl => immediateOp a d op (0x13#7 ||| cll) 1#3 (fc &&& m)
  | .shr => immediateOp a d op (0x13#7 ||| cll) 5#3 (fc &&& m)
  | .sar => immediateOp a d op (0x13#7 ||| cll) 5#3 (1024#32 ||| (fc &&& m))
  | op => throughRegisters ll t a b e c op

/-- `vset_VT_CMP` of the difference and zero. -/
def Outcome.compareZero (op : Cond) : Outcome → Outcome
  | value words d => .compare ⟨words, op, d, 0#5⟩
  | compare r => .compare r

/-- `gen_opil` with the constant `c` of the type `t` on top of the register `a`: `d` is the register
for the result of an instruction with an immediate, `b` the one for the constant, and `e` the one for
the result of an instruction on registers. -/
def genOpil (op : Operator) : Option Outcome :=
  let fc := c.setWidth 32
  if fc.signExtend 64 = c ∧ Fits12 fc then
    match op with
    | .cmp op =>
      match op with
      -- `op - 1`
      | .uge | .ugt | .ge | .gt => (genSmall ll t a d b e c (.cmp op.not)).map Outcome.not
      | .ne | .eq =>
        if fc ≠ 0#32 then (genSmall ll t a d b e c .sub).map (Outcome.compareZero op)
        else some (.compare ⟨[], op, a, 0#5⟩)
      | op => genSmall ll t a d b e c (.cmp op)
    | op => genSmall ll t a d b e c op
  else throughRegisters ll t a b e c op

end Model

section Compare

variable (t : IntType) (a d : XReg) (c : BitVec 64)

theorem throughRegisters_cmp (ll : Bool) (e : XReg) (op : Cond) :
    throughRegisters ll t a d e c (.cmp op) =
      (compareRegisters t a d c op).map Outcome.compare := by
  unfold throughRegisters compareRegisters
  cases loadConst d t c with
  | none => rfl
  | some ws => simp [registerOp, Outcome.after]

theorem immediateOp_cmp (func3 : BitVec 3) (fc : BitVec 32) (op : Cond) :
    immediateOp a d (.cmp op) 0x13#7 func3 fc =
      (compareImmediate a d func3 fc).map Outcome.compare := by
  unfold immediateOp compareImmediate
  cases ei 0x13#7 func3 d a fc <;> rfl

theorem genSmall_cmp {op : Cond} (hop : op = .lt ∨ op = .le ∨ op = .ult ∨ op = .ule) :
    genSmall t.isWide t a d d d c (.cmp op) = (genLess t a d c op).map Outcome.compare := by
  unfold genSmall genLess
  rcases hop with rfl | rfl | rfl | rfl
  · exact immediateOp_cmp ..
  · dsimp only
    split
    · exact throughRegisters_cmp ..
    · exact immediateOp_cmp ..
  · exact immediateOp_cmp ..
  · dsimp only
    split
    · exact throughRegisters_cmp ..
    · exact immediateOp_cmp ..

theorem genSmall_sub :
    genSmall t.isWide t a d d d c .sub = (genSub t a d c).map (Outcome.value · d) := by
  unfold genSmall genSub
  dsimp only
  split
  · unfold throughRegisters
    cases loadConst d t c <;> rfl
  · unfold immediateOp
    cases ei (0x13#7 ||| wordBit !t.isWide) 0#3 d a (-c.setWidth 32) <;> rfl

/-- The comparisons are those of `genCompare`, where one register serves for everything. -/
theorem genOpil_cmp (op : Cond) :
    genOpil t.isWide t a d d d c (.cmp op) = (genCompare t a d c op).map Outcome.compare := by
  have hnot : ∀ r : Option Comparison,
      (r.map Outcome.compare).map Outcome.not = (r.map Comparison.not).map Outcome.compare :=
    fun r => by cases r <;> rfl
  unfold genOpil genCompare
  dsimp only
  split
  · cases op with
    | lt => exact genSmall_cmp t a d c (by decide)
    | le => exact genSmall_cmp t a d c (by decide)
    | ult => exact genSmall_cmp t a d c (by decide)
    | ule => exact genSmall_cmp t a d c (by decide)
    | ge => exact (congrArg _ (genSmall_cmp t a d c (.inl rfl))).trans (hnot _)
    | gt => exact (congrArg _ (genSmall_cmp t a d c (.inr (.inl rfl)))).trans (hnot _)
    | uge => exact (congrArg _ (genSmall_cmp t a d c (.inr (.inr (.inl rfl))))).trans (hnot _)
    | ugt => exact (congrArg _ (genSmall_cmp t a d c (.inr (.inr (.inr rfl))))).trans (hnot _)
    | eq =>
      dsimp only
      rw [genSmall_sub]
      split
      · cases genSub t a d c <;> rfl
      · rfl
    | ne =>
      dsimp only
      rw [genSmall_sub]
      split
      · cases genSub t a d c <;> rfl
      · rfl
  · exact throughRegisters_cmp ..

end Compare

/-! ## What an operator denotes -/

/-- A number or a truth value. -/
inductive Denoted
  | value (v : BitVec 64)
  | truth (b : Bool)
  deriving DecidableEq

/-- The number is in the register that is the top of the value stack; the truth value is what is left
in any register into which the comparison is loaded and decides whether its jump is taken, and with
the token inverted it is the opposite. -/
def Outcome.Denotes (m : Machine) : Outcome → Denoted → Prop
  | value words d, .value v => ∃ m', run words m = some m' ∧ m'.reg d = v
  | compare r, .truth v => ∃ m', run r.words m = some m' ∧
    (∀ rr : Reg, Materialises (ireg rr) r.op r.a r.b m' (ofBool v)) ∧
    (∀ rr : Reg, Materialises (ireg rr) r.op.not r.a r.b m' (ofBool !v)) ∧
    (if v then JumpsToChain r.op r.a r.b m' else SkipsChain r.op r.a r.b m') ∧
    (if v then SkipsChain r.op.not r.a r.b m' else JumpsToChain r.op.not r.a r.b m')
  | _, _ => False

/-- What the manual and the tokens say about the operator on two operands. -/
def Operator.denoted (op : Operator) (ll : Bool) (x y : BitVec 64) : Denoted :=
  match op with
  | .cmp op => .truth (op.holds x y)
  | .add => .value (AluOp.add.result (!ll) x y)
  | .sub => .value (AluOp.sub.result (!ll) x y)
  | .sar => .value (AluOp.sra.result (!ll) x y)
  | .shr => .value (AluOp.srl.result (!ll) x y)
  | .shl => .value (AluOp.sll.result (!ll) x y)
  | .mul => .value (MulOp.mul.result (!ll) x y)
  | .div => .value (MulOp.div.result (!ll) x y)
  | .and => .value (AluOp.and.result false x y)
  | .xor => .value (AluOp.xor.result false x y)
  | .or => .value (AluOp.or.result false x y)
  | .mod => .value (MulOp.rem.result (!ll) x y)
  | .umod => .value (MulOp.remu.result (!ll) x y)
  | .pdiv | .udiv => .value (MulOp.divu.result (!ll) x y)

section Denotes

variable {m m' : Machine}

theorem denotes_value {words : List Word} {d : XReg} (h : run words m = some m') :
    (Outcome.value words d).Denotes m (.value (m'.reg d)) := ⟨m', h, rfl⟩

theorem denotes_compare {r : Comparison} (h : run r.words m = some m') :
    (Outcome.compare r).Denotes m (.truth (r.op.holds (m'.reg r.a) (m'.reg r.b))) := by
  refine ⟨m', h, fun rr => ?_, fun rr => ?_, ?_, ?_⟩
  · rw [materialises_iff (ireg_ne_zero rr)]
  · rw [materialises_iff (ireg_ne_zero rr), Cond.holds_not]
  · rw [jumpsToChain_iff, skipsChain_iff]
    split <;> simp [*]
  · rw [jumpsToChain_iff, skipsChain_iff, Cond.holds_not]
    split <;> simp [*]

theorem ofBool_inj {b b' : Bool} (h : (ofBool b : BitVec 64) = ofBool b') : b = b' := by
  revert h
  revert b b'
  decide

/-- An outcome denotes one thing. -/
theorem Outcome.Denotes.unique {o : Outcome} {den den' : Denoted} (h : o.Denotes m den)
    (h' : o.Denotes m den') : den = den' := by
  cases o with
  | value words d =>
    cases den <;> cases den' <;> try contradiction
    obtain ⟨m1, hrun, rfl⟩ := h
    obtain ⟨m2, hrun', rfl⟩ := h'
    obtain rfl := Option.some.inj (hrun.symm.trans hrun')
    rfl
  | compare r =>
    cases den <;> cases den' <;> try contradiction
    obtain ⟨m1, hrun, hmat, -⟩ := h
    obtain ⟨m2, hrun', hmat', -⟩ := h'
    obtain rfl := Option.some.inj (hrun.symm.trans hrun')
    have hv := (materialises_iff (ireg_ne_zero 0) r.op r.a r.b m1 _).mp (hmat 0)
    have hv' := (materialises_iff (ireg_ne_zero 0) r.op r.a r.b m1 _).mp (hmat' 0)
    exact congrArg Denoted.truth (ofBool_inj (hv.trans hv'.symm))

theorem Outcome.Denotes.after {o : Outcome} {ws : List Word} {den : Denoted}
    (h : o.Denotes m' den) (hrun : run ws m = some m') : (o.after ws).Denotes m den := by
  cases o with
  | value words d =>
    cases den with
    | truth b => exact h
    | value v =>
      obtain ⟨m1, hm1, hv⟩ := h
      exact ⟨m1, run_append_of hrun hm1, hv⟩
  | compare r =>
    cases den with
    | value v => exact h
    | truth b =>
      obtain ⟨m1, hm1, hv⟩ := h
      exact ⟨m1, run_append_of hrun hm1, hv⟩

theorem Outcome.Denotes.not {o : Outcome} {v : Bool} (h : o.Denotes m (.truth v)) :
    o.not.Denotes m (.truth !v) := by
  cases o with
  | value words d => exact h
  | compare r =>
    obtain ⟨m1, hrun, hmat, -⟩ := h
    have hv := ofBool_inj ((materialises_iff (ireg_ne_zero 0) r.op r.a r.b m1 _).mp (hmat 0))
    have hnot := denotes_compare (r := r.not) hrun
    dsimp only [Comparison.not] at hnot
    rwa [Cond.holds_not, ← hv] at hnot

/-- A number, compared with zero. -/
theorem Outcome.Denotes.compareZero {o : Outcome} {v : BitVec 64} (h : o.Denotes m (.value v))
    (op : Cond) : (o.compareZero op).Denotes m (.truth (op.holds v 0#64)) := by
  cases o with
  | compare r => exact h.elim
  | value words d =>
    obtain ⟨m1, hrun, rfl⟩ := h
    exact denotes_compare (r := ⟨words, op, d, 0#5⟩) hrun

end Denotes

/-! ## Two registers -/

section Registers

variable (ll : Bool) (a b : XReg) {d : XReg} (hd : d ≠ 0#5) (m : Machine)

include hd

theorem denotes_er_alu (word : Bool) {func3 : BitVec 3} {func7 : BitVec 7} {op : AluOp}
    (hop : aluOpOf func3 func7 = some op) (hword : word = true → op.hasWordForm = true) :
    (Outcome.value [er (0x33#7 ||| wordBit word) func3 d a b func7] d).Denotes m
      (.value (op.result word (m.reg a) (m.reg b))) := by
  have h := denotes_value (d := d)
    ((run_singleton _ m).trans (execWord_er_alu m word d a b hop hword))
  rwa [Machine.reg_setReg_self m hd] at h

theorem denotes_er_mul (word : Bool) {func3 : BitVec 3} {op : MulOp} (hop : mulOpOf func3 = some op) :
    (Outcome.value [er (0x33#7 ||| wordBit word) func3 d a b 1#7] d).Denotes m
      (.value (op.result word (m.reg a) (m.reg b))) := by
  have h := denotes_value (d := d) ((run_singleton _ m).trans (execWord_er_mul m word d a b hop))
  rwa [Machine.reg_setReg_self m hd] at h

/-- The code for two registers denotes the operator on their contents. -/
theorem registerOp_denotes (op : Operator) :
    (registerOp op ll a b d).Denotes m (op.denoted ll (m.reg a) (m.reg b)) := by
  have hdouble : (0x33#7 ||| wordBit (!ll) ||| wordBit (!ll)) = 0x33#7 ||| wordBit (!ll) := by
    cases ll <;> decide
  have hmod : (if wordBit (!ll) ≠ 0#7 then 0x3b#7 else 0x33#7) = 0x33#7 ||| wordBit (!ll) := by
    cases ll <;> decide
  unfold registerOp Operator.denoted
  cases op with
  | cmp op => exact denotes_compare rfl
  | add => exact denotes_er_alu a b hd m (!ll) rfl fun _ => rfl
  | sub => exact denotes_er_alu a b hd m (!ll) rfl fun _ => rfl
  | sar =>
    dsimp only
    rw [hdouble]
    exact denotes_er_alu a b hd m (!ll) rfl fun _ => rfl
  | shr =>
    dsimp only
    rw [hdouble]
    exact denotes_er_alu a b hd m (!ll) rfl fun _ => rfl
  | shl => exact denotes_er_alu a b hd m (!ll) rfl fun _ => rfl
  | mul => exact denotes_er_mul a b hd m (!ll) rfl
  | div => exact denotes_er_mul a b hd m (!ll) rfl
  | and => exact denotes_er_alu a b hd m false rfl fun h => absurd h (by decide)
  | xor => exact denotes_er_alu a b hd m false rfl fun h => absurd h (by decide)
  | or => exact denotes_er_alu a b hd m false rfl fun h => absurd h (by decide)
  | mod =>
    dsimp only
    rw [hmod]
    exact denotes_er_mul a b hd m (!ll) rfl
  | umod => exact denotes_er_mul a b hd m (!ll) rfl
  | pdiv => exact denotes_er_mul a b hd m (!ll) rfl
  | udiv => exact denotes_er_mul a b hd m (!ll) rfl

end Registers

/-! ## A register and a constant -/

/-- What is denoted with an immediate: equality with a constant other than zero is decided on 32 bits by
the low words. -/
def Operator.denotedImm (op : Operator) (ll : Bool) (x c : BitVec 64) : Denoted :=
  match op with
  | .cmp .eq => if !ll ∧ c ≠ 0#64 then .truth (lowWord x == lowWord c) else .truth (x == c)
  | .cmp .ne => if !ll ∧ c ≠ 0#64 then .truth (lowWord x != lowWord c) else .truth (x != c)
  | op => op.denoted ll x c

section Immediate

variable {ll : Bool} {t : IntType} {a d b e : XReg} {c : BitVec 64}

theorem throughRegisters_denotes (hb : b ≠ 0#5) (he : e ≠ 0#5) (hab : a ≠ b) (hc : Canonical c)
    (op : Operator) : ∃ o, throughRegisters ll t a b e c op = some o ∧
      ∀ m, o.Denotes m (op.denoted ll (m.reg a) c) := by
  obtain ⟨ws, hws, hrun⟩ := loadConst_loads hb t c
  refine ⟨(registerOp op ll a b e).after ws, ?_, fun m => ?_⟩
  · unfold throughRegisters
    rw [hws]
    rfl
  · obtain ⟨m', hm', hsame, hreg⟩ := hrun m
    have h := registerOp_denotes ll a b he m' op
    rw [hreg, hsame.2 a hab, loadedConst_of_canonical hc] at h
    exact h.after hm'

/-- An instruction with an immediate, and the result of an operator that it computes. -/
theorem immediateOp_denotes (hd : d ≠ 0#5) {op : Operator} (hop : ∀ op', op ≠ .cmp op')
    {opcode : BitVec 7} {func3 : BitVec 3} {fc : BitVec 32} (hfc : Fits12 fc)
    {f : BitVec 64 → BitVec 64}
    (hexec : ∀ m, execWord m (eiu opcode func3 d a fc) = some (m.setReg d (f (m.reg a)))) :
    ∃ o, immediateOp a d op opcode func3 fc = some o ∧
      ∀ m, o.Denotes m (.value (f (m.reg a))) := by
  refine ⟨.value [eiu opcode func3 d a fc] d, ?_, fun m => ?_⟩
  · unfold immediateOp
    rw [ei_of_fits12 hfc]
    cases op with
    | cmp op' => exact absurd rfl (hop op')
    | _ => rfl
  · have h := denotes_value (d := d) ((run_singleton _ m).trans (hexec m))
    rwa [Machine.reg_setReg_self m hd] at h

/-- `slti` and `sltiu`. -/
theorem immediateOp_cmp_denotes (hd : d ≠ 0#5) (op : Cond) {func3 : BitVec 3} {fc : BitVec 32}
    {f : BitVec 64 → BitVec 64 → Bool} (hfc : Fits12 fc) (h1 : func3 ≠ 1#3) (h5 : func3 ≠ 5#3)
    (hf : ∀ x y, (immOp func3).result false x y = ofBool (f x y)) :
    ∃ o, immediateOp a d (.cmp op) 0x13#7 func3 fc = some o ∧
      ∀ m, o.Denotes m (.truth (f (m.reg a) (BitVec.ofInt 64 fc.toInt))) := by
  refine ⟨.compare ⟨[eiu 0x13#7 func3 d a fc], .ne, d, 0#5⟩, ?_, fun m => ?_⟩
  · unfold immediateOp
    rw [ei_of_fits12 hfc]
    rfl
  · have h := denotes_compare (r := ⟨[eiu 0x13#7 func3 d a fc], .ne, d, 0#5⟩)
      ((run_singleton _ m).trans (execWord_imm m d a fc h1 h5))
    dsimp only at h
    rwa [Machine.reg_setReg_self m hd, Machine.reg_zero, hf, ne_zero_ofBool,
      immediate_eq_ofInt hfc] at h

/-- Shifts by the same amount modulo the width. -/
theorem shift_result_congr {op : AluOp} (hop : op = .sll ∨ op = .srl ∨ op = .sra) (word : Bool)
    (x : BitVec 64) {y y' : BitVec 64}
    (h : y.toNat % 2 ^ shiftBits word = y'.toNat % 2 ^ shiftBits word) :
    op.result word x y = op.result word x y' := by
  cases word with
  | false =>
    have h : y.toNat % 64 = y'.toNat % 64 := h
    rcases hop with rfl | rfl | rfl <;>
      simp only [AluOp.result, Bool.false_eq_true, if_false, AluOp.eval, h]
  | true =>
    have h : y.toNat % 32 = y'.toNat % 32 := h
    have hlow : (y.setWidth 32).toNat % 32 = (y'.setWidth 32).toNat % 32 := by
      rw [BitVec.toNat_setWidth, BitVec.toNat_setWidth]
      omega
    rcases hop with rfl | rfl | rfl <;>
      simp only [AluOp.result, if_true, wordForm, AluOp.eval, hlow]

/-- The amount of a shift by a constant, `fc & m`. -/
theorem shiftAmount (c : BitVec 64) (ll : Bool) :
    (lowWord c &&& (if ll then 63#32 else 31#32)).toNat < 2 ^ shiftBits (!ll) ∧
      ((lowWord c &&& (if ll then 63#32 else 31#32)).setWidth 64).toNat % 2 ^ shiftBits (!ll) =
        c.toNat % 2 ^ shiftBits (!ll) := by
  have hlow : (lowWord c).toNat = c.toNat % 2 ^ 32 := BitVec.toNat_setWidth ..
  have hand : (lowWord c &&& (if ll then 63#32 else 31#32)).toNat =
      (lowWord c).toNat % 2 ^ shiftBits (!ll) := by
    rw [BitVec.toNat_and]
    cases ll
    · exact Nat.and_two_pow_sub_one_eq_mod _ 5
    · exact Nat.and_two_pow_sub_one_eq_mod _ 6
  rw [BitVec.toNat_setWidth, hand, hlow]
  cases ll
  · show c.toNat % 2 ^ 32 % 2 ^ 5 < 2 ^ 5 ∧ c.toNat % 2 ^ 32 % 2 ^ 5 % 2 ^ 64 % 2 ^ 5 = c.toNat % 2 ^ 5
    omega
  · show c.toNat % 2 ^ 32 % 2 ^ 6 < 2 ^ 6 ∧ c.toNat % 2 ^ 32 % 2 ^ 6 % 2 ^ 64 % 2 ^ 6 = c.toNat % 2 ^ 6
    omega

theorem fits12_shiftAmount (c : BitVec 64) (ll : Bool) :
    Fits12 (lowWord c &&& (if ll then 63#32 else 31#32)) ∧
      Fits12 (1024#32 ||| (lowWord c &&& (if ll then 63#32 else 31#32))) := by
  have hsmall : ∀ y : BitVec 6,
      Fits12 (y.setWidth 32) ∧ Fits12 (1024#32 ||| y.setWidth 32) := by decide
  have hamount : lowWord c &&& (if ll then 63#32 else 31#32) =
      ((lowWord c &&& (if ll then 63#32 else 31#32)).setWidth 6).setWidth 32 := by
    apply BitVec.eq_of_toNat_eq
    have hlt := (shiftAmount c ll).1
    have hle : 2 ^ shiftBits (!ll) ≤ 2 ^ 6 := by cases ll <;> decide
    rw [BitVec.toNat_setWidth, BitVec.toNat_setWidth]
    omega
  rw [hamount]
  exact hsmall _

/-- The operators that do not go back to others. -/
theorem genSmall_denotes (hd : d ≠ 0#5) (hb : b ≠ 0#5) (he : e ≠ 0#5) (hab : a ≠ b) (hc : Small c)
    (op : Operator) : ∃ o, genSmall ll t a d b e c op = some o ∧
      ∀ m, o.Denotes m (op.denoted ll (m.reg a) c) := by
  have hself : (lowWord c).signExtend 64 = c := hc.canonical
  have himm : ((lowWord c).setWidth 12).signExtend 64 = c := by
    rw [immediate_eq_ofInt hc.fits]
    exact hself
  have hint : BitVec.ofInt 64 (lowWord c).toInt = c := hself
  have hbounds := hc.bounds
  have hregisters := @throughRegisters_denotes ll t a b e c hb he hab hc.canonical
  obtain ⟨hamount, hcongr⟩ := shiftAmount c ll
  obtain ⟨hfits, hfits'⟩ := fits12_shiftAmount c ll
  have hlogic : ∀ {op : Operator} {aop : AluOp} {func3 : BitVec 3}, (∀ op', op ≠ .cmp op') →
      func3 ≠ 1#3 → func3 ≠ 5#3 → immOp func3 = aop →
      ∃ o, immediateOp a d op 0x13#7 func3 (lowWord c) = some o ∧
        ∀ m, o.Denotes m (.value (aop.result false (m.reg a) c)) := by
    intro op aop func3 hop h1 h5 haop
    refine immediateOp_denotes (f := fun x => aop.result false x c) hd hop hc.fits fun m => ?_
    rw [execWord_imm m d a _ h1 h5, haop, himm]
  unfold genSmall
  cases op with
  | add =>
    refine immediateOp_denotes (f := fun x => AluOp.add.result (!ll) x c) hd (by simp) hc.fits
      fun m => ?_
    have hexec := execWord_addi m (!ll) d a (lowWord c)
    rwa [himm] at hexec
  | sub =>
    by_cases h : (lowWord c).toInt ≤ -2048
    · obtain ⟨o, ho, hden⟩ := hregisters .sub
      exact ⟨o, (if_pos h).trans ho, hden⟩
    · obtain ⟨o, ho, hden⟩ := @immediateOp_denotes a d hd .sub (by simp) (0x13#7 ||| wordBit !ll) 0#3
        _ (fits12_neg (Int.not_le.mp h) hbounds.2) (fun x => AluOp.sub.result (!ll) x c) fun m => by
          have hresult := add_neg_result (m.reg a) (!ll) (Int.not_le.mp h) hbounds.2
          rw [hself] at hresult
          rw [← hresult]
          exact execWord_addi m (!ll) d a (-lowWord c)
      exact ⟨o, (if_neg h).trans ho, hden⟩
  | xor => exact hlogic (by simp) (by decide) (by decide) rfl
  | or => exact hlogic (by simp) (by decide) (by decide) rfl
  | and => exact hlogic (by simp) (by decide) (by decide) rfl
  | shl =>
    refine immediateOp_denotes (f := fun x => AluOp.sll.result (!ll) x c) hd (by simp) hfits
      fun m => ?_
    rw [← shift_result_congr (.inl rfl) (!ll) (m.reg a) hcongr]
    exact execWord_slli m (!ll) d a hamount
  | shr =>
    refine immediateOp_denotes (f := fun x => AluOp.srl.result (!ll) x c) hd (by simp) hfits
      fun m => ?_
    rw [← shift_result_congr (.inr (.inl rfl)) (!ll) (m.reg a) hcongr]
    exact execWord_srli m (!ll) d a hamount
  | sar =>
    refine immediateOp_denotes (f := fun x => AluOp.sra.result (!ll) x c) hd (by simp) hfits'
      fun m => ?_
    rw [← shift_result_congr (.inr (.inr rfl)) (!ll) (m.reg a) hcongr]
    exact execWord_srai m (!ll) d a hamount
  | mul => exact hregisters .mul
  | div => exact hregisters .div
  | mod => exact hregisters .mod
  | udiv => exact hregisters .udiv
  | pdiv => exact hregisters .pdiv
  | umod => exact hregisters .umod
  | cmp op =>
    cases op with
    | lt =>
      obtain ⟨o, ho, hden⟩ := @immediateOp_cmp_denotes a d hd .lt 2#3 _ (fun x y => x.slt y) hc.fits
        (by decide) (by decide) fun _ _ => rfl
      rw [hint] at hden
      exact ⟨o, ho, hden⟩
    | ult =>
      obtain ⟨o, ho, hden⟩ := @immediateOp_cmp_denotes a d hd .ult 3#3 _ (fun x y => x.ult y) hc.fits
        (by decide) (by decide) fun _ _ => rfl
      rw [hint] at hden
      exact ⟨o, ho, hden⟩
    | le =>
      by_cases h : 2047 ≤ (lowWord c).toInt
      · obtain ⟨o, ho, hden⟩ := hregisters (.cmp .le)
        exact ⟨o, (if_pos h).trans ho, hden⟩
      · obtain ⟨hfits, hsucc⟩ := hc.succ (by omega)
        obtain ⟨o, ho, hden⟩ := @immediateOp_cmp_denotes a d hd .le 2#3 _ (fun x y => x.slt y) hfits
          (by decide) (by decide) fun _ _ => rfl
        refine ⟨o, (if_neg h).trans ho, fun m => ?_⟩
        have hm := hden m
        rw [hsucc, slt_succ (by rw [hc.canonical.toInt_eq]; omega)] at hm
        exact hm
    | ule =>
      by_cases h : 2047 ≤ (lowWord c).toInt ∨ lowWord c = -1#32
      · obtain ⟨o, ho, hden⟩ := hregisters (.cmp .ule)
        exact ⟨o, (if_pos h).trans ho, hden⟩
      · obtain ⟨hfits, hsucc⟩ := hc.succ (by omega)
        obtain ⟨o, ho, hden⟩ := @immediateOp_cmp_denotes a d hd .ule 3#3 _ (fun x y => x.ult y) hfits
          (by decide) (by decide) fun _ _ => rfl
        refine ⟨o, (if_neg h).trans ho, fun m => ?_⟩
        have hm := hden m
        have hne : c ≠ -1#64 := by
          rintro rfl
          exact h (.inr (by decide))
        rw [hsucc, ult_succ hne] at hm
        exact hm
    | eq => exact hregisters (.cmp .eq)
    | ne => exact hregisters (.cmp .ne)
    | ge => exact hregisters (.cmp .ge)
    | gt => exact hregisters (.cmp .gt)
    | uge => exact hregisters (.cmp .uge)
    | ugt => exact hregisters (.cmp .ugt)

/-- The difference on 64 or on 32 bits is zero exactly for operands that are the same there. -/
theorem sub_result_eq_zero (word : Bool) (x y : BitVec 64) :
    AluOp.sub.result word x y = 0#64 ↔ if word then lowWord x = lowWord y else x = y := by
  cases word with
  | false =>
    simp only [AluOp.result, Bool.false_eq_true, if_false, AluOp.eval]
    exact sub_eq_zero
  | true =>
    simp only [AluOp.result, if_true, wordForm, AluOp.eval]
    rw [← sub_eq_zero (a := lowWord x)]
    constructor
    · intro h
      have hlow := congrArg lowWord h
      rwa [lowWord_signExtend] at hlow
    · intro h
      rw [show x.setWidth 32 - y.setWidth 32 = 0#32 from h]
      decide

/-- Equality with a constant other than zero is decided by the difference. -/
theorem denotedImm_of_sub {op : Cond} (hop : op = .eq ∨ op = .ne) (hc : c ≠ 0#64) (x : BitVec 64) :
    Operator.denotedImm (.cmp op) ll x c =
      .truth (op.holds (AluOp.sub.result (!ll) x c) 0#64) := by
  have heq : (AluOp.sub.result (!ll) x c == 0#64) =
      if !ll then lowWord x == lowWord c else x == c := by
    have h := sub_result_eq_zero (!ll) x c
    rw [Bool.eq_iff_iff, beq_iff_eq, h]
    cases ll <;> simp
  rcases hop with rfl | rfl
  · rw [Operator.denotedImm, Cond.holds, heq]
    cases ll <;> simp [hc]
  · have hne : (AluOp.sub.result (!ll) x c != 0#64) =
        !(if !ll then lowWord x == lowWord c else x == c) := by
      rw [bne, heq]
    rw [Operator.denotedImm, Cond.holds, hne]
    cases ll <;> simp [hc, bne]

/-- All of the operators, with a small constant. -/
theorem genOpil_denotes (hd : d ≠ 0#5) (hb : b ≠ 0#5) (he : e ≠ 0#5) (hab : a ≠ b) (hc : Small c)
    (op : Operator) : ∃ o, genOpil ll t a d b e c op = some o ∧
      ∀ m, o.Denotes m (op.denotedImm ll (m.reg a) c) := by
  have hsmall := @genSmall_denotes ll t a d b e c hd hb he hab hc
  have hif : (c.setWidth 32).signExtend 64 = c ∧ Fits12 (c.setWidth 32) :=
    ⟨hc.canonical, hc.fits⟩
  have hinvert : ∀ op' : Cond, ∃ o,
      (genSmall ll t a d b e c (.cmp op'.not)).map Outcome.not = some o ∧
        ∀ m, o.Denotes m (.truth (op'.holds (m.reg a) c)) := by
    intro op'
    obtain ⟨o, ho, hden⟩ := hsmall (.cmp op'.not)
    refine ⟨o.not, by rw [ho]; rfl, fun m => ?_⟩
    have h := (hden m).not
    rwa [Cond.holds_not, Bool.not_not] at h
  have hequal : ∀ op' : Cond, op' = .eq ∨ op' = .ne → ∃ o,
      (if c.setWidth 32 ≠ 0#32 then
        (genSmall ll t a d b e c .sub).map (Outcome.compareZero op')
      else some (.compare ⟨[], op', a, 0#5⟩)) = some o ∧
        ∀ m, o.Denotes m (Operator.denotedImm (.cmp op') ll (m.reg a) c) := by
    intro op' hop
    by_cases hzero : c.setWidth 32 ≠ 0#32
    · obtain ⟨o, ho, hden⟩ := hsmall .sub
      have hc0 : c ≠ 0#64 := by
        rintro rfl
        exact hzero (by decide)
      refine ⟨o.compareZero op', by rw [if_pos hzero, ho]; rfl, fun m => ?_⟩
      rw [denotedImm_of_sub hop hc0]
      exact (hden m).compareZero op'
    · have hc0 : c = 0#64 := by
        rw [← hc.canonical]
        unfold lowWord
        rw [not_not.mp hzero]
        decide
      refine ⟨_, if_neg hzero, fun m => ?_⟩
      have h := denotes_compare (r := ⟨[], op', a, 0#5⟩) (m := m) rfl
      subst hc0
      rcases hop with rfl | rfl
      · rwa [Operator.denotedImm, if_neg (by simp)]
      · rwa [Operator.denotedImm, if_neg (by simp)]
  unfold genOpil
  dsimp only
  rw [if_pos hif]
  cases op with
  | cmp op =>
    cases op with
    | uge => exact hinvert .uge
    | ugt => exact hinvert .ugt
    | ge => exact hinvert .ge
    | gt => exact hinvert .gt
    | eq => exact hequal .eq (.inl rfl)
    | ne => exact hequal .ne (.inr rfl)
    | lt => exact hsmall (.cmp .lt)
    | le => exact hsmall (.cmp .le)
    | ult => exact hsmall (.cmp .ult)
    | ule => exact hsmall (.cmp .ule)
  | add => exact hsmall .add
  | sub => exact hsmall .sub
  | mul => exact hsmall .mul
  | div => exact hsmall .div
  | mod => exact hsmall .mod
  | udiv => exact hsmall .udiv
  | pdiv => exact hsmall .pdiv
  | umod => exact hsmall .umod
  | and => exact hsmall .and
  | or => exact hsmall .or
  | xor => exact hsmall .xor
  | shl => exact hsmall .shl
  | shr => exact hsmall .shr
  | sar => exact hsmall .sar

end Immediate

/-! ## Agreement -/

/-- The code for the constant `c` and the code with the constant in a register denote the same. The
operand is in `a` on the machine `m` with the one, and in `a'`, with the constant in `b'`, on the
machine `m'` with the other. -/
def OperatorAgrees (op : Operator) (ll : Bool) (t : IntType) (a d b e : Reg) (c : BitVec 64)
    (m : Machine) (a' b' e' : Reg) (m' : Machine) : Prop :=
  ∃ o den, genOpil ll t (ireg a) (ireg d) (ireg b) (ireg e) c op = some o ∧ o.Denotes m den ∧
    (registerOp op ll (ireg a') (ireg b') (ireg e')).Denotes m' den

/-- Equality on 32 bits with a constant other than zero, of a register that differs from it, but not in
the low word. -/
def OnlyUpperDiffers (op : Operator) (ll : Bool) (x c : BitVec 64) : Prop :=
  (op = .cmp .eq ∨ op = .cmp .ne) ∧ ll = false ∧ c ≠ 0#64 ∧ x ≠ c ∧ lowWord x = lowWord c

theorem denotedImm_eq_iff (op : Operator) (ll : Bool) (x c : BitVec 64) :
    op.denotedImm ll x c = op.denoted ll x c ↔ ¬ OnlyUpperDiffers op ll x c := by
  by_cases hop : op = .cmp .eq ∨ op = .cmp .ne
  · have hword : (lowWord x == lowWord c) = (x == c) ↔ ¬ (x ≠ c ∧ lowWord x = lowWord c) := by
      by_cases hx : x = c
      · subst hx
        simp
      · by_cases hlow : lowWord x = lowWord c <;> simp [hx, hlow]
    by_cases hcase : ll = false ∧ c ≠ 0#64
    · obtain ⟨rfl, hc⟩ := hcase
      unfold OnlyUpperDiffers
      rcases hop with rfl | rfl
      · simp only [Operator.denotedImm, Operator.denoted, Cond.holds]
        rw [if_pos ⟨rfl, hc⟩, Denoted.truth.injEq, hword]
        simp [hc]
      · simp only [Operator.denotedImm, Operator.denoted, Cond.holds]
        rw [if_pos ⟨rfl, hc⟩, Denoted.truth.injEq, bne, bne, Bool.not_inj_iff, hword]
        simp [hc]
    · refine iff_of_true ?_ fun h => hcase ⟨h.2.1, h.2.2.1⟩
      have hif : ¬ ((!ll) = true ∧ c ≠ 0#64) := by simpa using hcase
      rcases hop with rfl | rfl
      · rw [Operator.denotedImm, if_neg hif]
        rfl
      · rw [Operator.denotedImm, if_neg hif]
        rfl
  · refine iff_of_true ?_ fun h => hop h.1
    unfold Operator.denotedImm
    split
    · exact absurd (.inl rfl) hop
    · exact absurd (.inr rfl) hop
    · rfl

section Agreement

variable {c : BitVec 64} (hc : Small c) (op : Operator) (ll : Bool) (t : IntType) {a b : Reg}
  (hab : a ≠ b) (d e a' b' e' : Reg) {m m' : Machine} (ha : m'.reg (ireg a') = m.reg (ireg a))
  (hb : m'.reg (ireg b') = c)

include hc hab ha hb

theorem operatorAgrees_iff_denoted :
    OperatorAgrees op ll t a d b e c m a' b' e' m' ↔
      op.denotedImm ll (m.reg (ireg a)) c = op.denoted ll (m.reg (ireg a)) c := by
  have hab' : ireg a ≠ ireg b := fun h => hab (ireg_inj.mp h)
  obtain ⟨o, ho, hden⟩ := @genOpil_denotes ll t _ _ _ _ c (ireg_ne_zero d) (ireg_ne_zero b)
    (ireg_ne_zero e) hab' hc op
  have hregister := registerOp_denotes ll (ireg a') (ireg b') (ireg_ne_zero e') m' op
  rw [ha, hb] at hregister
  constructor
  · rintro ⟨o', den, ho', hm, hm'⟩
    obtain rfl := Option.some.inj (ho.symm.trans ho')
    rw [(hden m).unique hm, hm'.unique hregister]
  · intro h
    exact ⟨o, _, ho, hden m, h ▸ hregister⟩

/-- The two ways of code for an operator with a small constant agree, but for equality on 32 bits of a
register that differs from the constant in the upper word only. -/
theorem operator_agrees_iff : OperatorAgrees op ll t a d b e c m a' b' e' m' ↔
    ¬ OnlyUpperDiffers op ll (m.reg (ireg a)) c := by
  rw [operatorAgrees_iff_denoted hc op ll t hab d e a' b' e' ha hb, denotedImm_eq_iff]

end Agreement

/-- A register and a constant next to it. -/
def pairMachine (x y : BitVec 64) : Machine :=
  ⟨fun r => if r = 10#5 then x else if r = 11#5 then y else 0#64, fun _ => 0#8⟩

/-- `x - 5` for `x` in `a0`. -/
theorem operator_agrees_iff_sub :
    OperatorAgrees .sub false (.int false) 0 0 1 0 5#64 (pairMachine 7#64 0#64) 0 1 0
        (pairMachine 7#64 5#64) ↔
      ¬ OnlyUpperDiffers .sub false ((pairMachine 7#64 0#64).reg (ireg 0)) 5#64 :=
  operator_agrees_iff ⟨by decide, by decide⟩ .sub false (.int false) (by decide) 0 0 0 1 0 rfl rfl

/-- `0x100000005` on 32 bits equals the constant 5, but not a register that holds 5. -/
theorem equality_of_upper_word :
    ¬ OperatorAgrees (.cmp .eq) false (.int false) 0 0 1 0 5#64 (pairMachine 0x100000005#64 0#64)
      0 1 0 (pairMachine 0x100000005#64 5#64) := by
  have hagrees : OperatorAgrees (.cmp .eq) false (.int false) 0 0 1 0 5#64
      (pairMachine 0x100000005#64 0#64) 0 1 0 (pairMachine 0x100000005#64 5#64) ↔ _ :=
    operatorAgrees_iff_denoted ⟨by decide, by decide⟩ (.cmp .eq) false (.int false) (by decide)
      0 0 0 1 0 rfl rfl
  rw [hagrees]
  decide

end TccRiscv64.Gen
