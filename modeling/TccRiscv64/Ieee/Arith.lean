import TccRiscv64.Ieee.Format

set_option autoImplicit false

/-! # IEEE 754 arithmetic as relations

What it means for an encoding `r` to be the roundTiesToEven sum, product or quotient of two
operands, each given by its sign and magnitude bits: the NaN and infinity cases of the standard,
the sign of a zero result, and correct rounding of the exact rational result otherwise. Which NaN
is returned is left open, as the standard does. -/

namespace TccRiscv64.Ieee.Format

variable (F : Format)

/-- The value of sign and magnitude bits. -/
def signed (neg : Bool) (n : ℕ) : ℚ := if neg then -F.mag n else F.mag n

/-- `r` encodes the rounded magnitude `x` with sign `neg`. -/
structure Rounded (neg : Bool) (x : ℚ) (r : ℕ) : Prop where
  mag : F.RoundsTo x (F.magBits r)
  sign : F.neg r = neg

/-- The sum of operands `(sa, na)` and `(sb, nb)`. An exact zero sum is negative only if both
    operands are. -/
structure IsSum (sa : Bool) (na : ℕ) (sb : Bool) (nb : ℕ) (r : ℕ) : Prop where
  isNaN_iff : F.isNaN r ↔ F.infBits < na ∨ F.infBits < nb ∨
    (na = F.infBits ∧ nb = F.infBits ∧ sa ≠ sb)
  inf_left : na = F.infBits → nb ≤ F.infBits → (nb = F.infBits → sa = sb) →
    F.isInf r ∧ F.neg r = sa
  inf_right : na < F.infBits → nb = F.infBits → F.isInf r ∧ F.neg r = sb
  finite : na < F.infBits → nb < F.infBits →
    F.Rounded (if F.signed sa na + F.signed sb nb = 0 then sa && sb
      else decide (F.signed sa na + F.signed sb nb < 0))
      |F.signed sa na + F.signed sb nb| r

/-- The product of two operands. -/
structure IsProduct (sa : Bool) (na : ℕ) (sb : Bool) (nb : ℕ) (r : ℕ) : Prop where
  isNaN_iff : F.isNaN r ↔ F.infBits < na ∨ F.infBits < nb ∨
    (na = F.infBits ∧ nb = 0) ∨ (na = 0 ∧ nb = F.infBits)
  inf : na ≤ F.infBits → nb ≤ F.infBits → (na = F.infBits ∧ nb ≠ 0) ∨ (na ≠ 0 ∧ nb = F.infBits) →
    F.isInf r ∧ F.neg r = xor sa sb
  finite : na < F.infBits → nb < F.infBits → F.Rounded (xor sa sb) (F.mag na * F.mag nb) r

/-- The quotient of two operands. Dividing a nonzero number by zero gives infinity. -/
structure IsQuotient (sa : Bool) (na : ℕ) (sb : Bool) (nb : ℕ) (r : ℕ) : Prop where
  isNaN_iff : F.isNaN r ↔ F.infBits < na ∨ F.infBits < nb ∨
    (na = F.infBits ∧ nb = F.infBits) ∨ (na = 0 ∧ nb = 0)
  inf : (na = F.infBits ∧ nb < F.infBits) ∨ (na ≤ F.infBits ∧ na ≠ 0 ∧ nb = 0) →
    F.isInf r ∧ F.neg r = xor sa sb
  zero : na < F.infBits → nb = F.infBits → F.magBits r = 0 ∧ F.neg r = xor sa sb
  finite : na < F.infBits → nb < F.infBits → nb ≠ 0 →
    F.Rounded (xor sa sb) (F.mag na / F.mag nb) r

end TccRiscv64.Ieee.Format
