import Formula.Binary64
/-!
# Decimals

A decimal is a whole coefficient times a power of ten. It is what a numeral says before it is
rounded to a number (`ofNumeral?`, `toFloat`).
-/

namespace Formula

/-- The value `coefficient * 10 ^ exponent`. -/
structure Decimal where
  coefficient : Nat
  exponent : Int
  deriving DecidableEq, Repr

namespace Decimal

/-- The magnitude of the number nearest to a decimal. -/
def magnitude (d : Decimal) : Nat :=
  match d.exponent with
  | .ofNat k => Binary64.nearest (d.coefficient * Nat.pow 10 k) 1
  | .negSucc k => Binary64.nearest d.coefficient (Nat.pow 10 (k + 1))

/-- A decimal with places behind the point is a fraction of a power of ten. -/
theorem magnitude_neg (c k : Nat) : magnitude ⟨c, -(k : Int)⟩ = Binary64.nearest c (Nat.pow 10 k) := by
  cases k with
  | zero => simp [magnitude]
  | succ k => rfl

/-- The number nearest to a decimal. -/
def toFloat (d : Decimal) : Float := Binary64.ofMagnitude false d.magnitude

/-- Reads digits with at most one point before, among or behind them, and at least one digit. -/
def ofNumeral? (text : List Char) : Option Decimal :=
  let whole := text.takeWhile Char.isDigit
  match text.dropWhile Char.isDigit with
  | [] => if whole = [] then none else some ⟨Nat.ofDigitChars 10 whole 0, 0⟩
  | c :: fraction =>
    if c = '.' ∧ fraction.all Char.isDigit ∧ ¬ (whole = [] ∧ fraction = []) then
      some ⟨Nat.ofDigitChars 10 (whole ++ fraction) 0, -fraction.length⟩
    else none

/-- The same value with no zero at the end of the coefficient. -/
def trim (d : Decimal) : Decimal :=
  if h : d.coefficient ≠ 0 ∧ d.coefficient % 10 = 0 then
    trim ⟨d.coefficient / 10, d.exponent + 1⟩
  else d
termination_by d.coefficient
decreasing_by exact Nat.div_lt_self (Nat.pos_of_ne_zero h.1) (by decide)

end Decimal

end Formula
