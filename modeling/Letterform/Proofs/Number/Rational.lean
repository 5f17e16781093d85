import Letterform.Proofs.Number.Exact
import Letterform.Proofs.Number.Lawful

/-!
# Rationals as scalars

Rationals are exact, and they can be computed with. Only roots are rounded, down to the parts that
the denominator cuts the unit into.
-/

namespace Letterform

namespace Rational

def root (k : ℕ) (q : ℚ) : ℚ := Nat.nthRoot k (q.num.toNat * q.den ^ (k - 1)) / q.den

end Rational

instance : Scalar ℚ where
  toAdd := inferInstance
  toSub := inferInstance
  toMul := inferInstance
  toDiv := inferInstance
  toNeg := inferInstance
  toLT := inferInstance
  toLE := inferInstance
  toBEq := inferInstance
  decLt := inferInstance
  decLe := inferInstance
  ofInt n := n
  floor q := ⌊q⌋
  round q := Scalar.halfAway q
  truncate low high q := max low (min high (Scalar.towardZero q))
  sqrt := Rational.root 2
  hypot x y := Rational.root 2 (x * x + y * y)
  sixthRoot := Rational.root 6
  narrow := id

instance : ExactScalar ℚ where
  value q := q
  value_injective := Rat.cast_injective
  value_ofInt n := Rat.cast_intCast n
  value_neg := Rat.cast_neg
  value_add := Rat.cast_add
  value_sub := Rat.cast_sub
  value_mul := Rat.cast_mul
  value_div a b _ := Rat.cast_div a b
  lt_iff := Rat.cast_lt.symm
  le_iff := Rat.cast_le.symm
  beq_iff := by simp

end Letterform
