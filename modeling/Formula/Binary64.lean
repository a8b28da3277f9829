/-!
# Numbers in binary64

The numbers of a formula are binary64 numbers, `Float`. Apart from its sign, a finite number is a
whole number of quanta of `2⁻¹⁰⁷⁴`, the smallest positive number. `quanta` gives that number and
`nearest` the bits of the number nearest to a fraction, so remainders and rounding to whole
numbers are exact arithmetic on naturals. Main statement: a number is the one nearest to its own
value, however that is written as a fraction (`nearest_of_quanta`).

The bits without the sign, read as a natural number, are the *magnitude*. Magnitudes are in the
order of the numbers they stand for: a mantissa `m` shifted by `s` places has the magnitude
`s * 2 ^ 52 + m`, in every binade and below the first one too.
-/

namespace Formula.Binary64

/-- A quantum is one halved this many times. -/
def places : Nat := 1074

/-- How many quanta make one. -/
def one : Nat := 1 <<< places

/-- The magnitude of infinity. Those above it stand for no number. -/
def infinity : Nat := 0x7FF <<< 52

/-- What is no number. -/
def nan : Float := .ofBits 0x7FF8000000000000

/-- The bits of `x` without its sign. -/
def magnitude (x : Float) : Nat := x.toBits.toNat % (1 <<< 63)

/-- Whether the sign of `x` is minus; negative zero has one too. -/
def isNegative (x : Float) : Bool := 1 <<< 63 ≤ x.toBits.toNat

/-- The number of a given sign and magnitude. -/
def ofMagnitude (negative : Bool) (m : Nat) : Float :=
  .ofBits (.ofNat (if negative then m + 1 <<< 63 else m))

/-- By how many places the mantissa of a magnitude is shifted. -/
def shift (m : Nat) : Nat := (m >>> 52) - 1

/-- How many quanta a finite magnitude stands for. -/
def quanta (m : Nat) : Nat := (m - shift m <<< 52) <<< shift m

/-- The whole number nearest to `n / d`; halfway between two, the even one. -/
def roundDiv (n d : Nat) : Nat :=
  if d < 2 * (n % d) ∨ (2 * (n % d) = d ∧ n / d % 2 = 1) then n / d + 1 else n / d

/-- The magnitude of the number nearest to `n / d`, ties going to the even mantissa. The mantissa is
shifted by the fewest places that leave it below `2 ^ 53`; one that rounds up to `2 ^ 53` carries into
the next binade, and what is past the last binade is infinite. -/
def nearest (n d : Nat) : Nat :=
  let s := (n * one / d).log2 - 52
  min infinity (s <<< 52 + roundDiv (n * one) (d <<< s))

/-- Changes the quanta of a finite number and keeps its sign. -/
def mapQuanta (f : Nat → Nat) (x : Float) : Float :=
  if magnitude x < infinity then ofMagnitude (isNegative x) (nearest (f (quanta (magnitude x))) one) else x

/-- The greatest whole number of ones within `q` quanta. -/
def wholeBelow (q : Nat) : Nat := q / one * one

/-- The least whole number of ones that hold `q` quanta. -/
def wholeAbove (q : Nat) : Nat := (q + (one - 1)) / one * one

/-- The whole number of ones nearest to `q` quanta; a half goes up. -/
def wholeNearest (q : Nat) : Nat := (2 * q + one) / (2 * one) * one

/-- The greatest whole number that is not above `x`. -/
def floor (x : Float) : Float := mapQuanta (if isNegative x then wholeAbove else wholeBelow) x

/-- The least whole number that is not below `x`. -/
def ceil (x : Float) : Float := mapQuanta (if isNegative x then wholeBelow else wholeAbove) x

/-- The whole number nearest to `x`; halfway between two, the one farther from zero. -/
def round (x : Float) : Float := mapQuanta wholeNearest x

/-- What is left of `x` after taking away `y` a whole number of times, towards zero: exact, and with
the sign of `x`. Of an infinity, or by zero, nothing is left that is a number. -/
def remainder (x y : Float) : Float :=
  if infinity ≤ magnitude x ∨ infinity < magnitude y ∨ magnitude y = 0 then nan
  else if magnitude y = infinity then x
  else mapQuanta (· % quanta (magnitude y)) x

/-! ## A number is nearest to its own value -/

theorem roundDiv_mul_right (m : Nat) {d : Nat} (h : 0 < d) : roundDiv (m * d) d = m := by
  rw [roundDiv, Nat.mul_div_cancel m h, Nat.mul_mod_left m d, if_neg (by omega)]

theorem shift_le (m : Nat) : shift m <<< 52 ≤ m := by
  unfold shift
  omega

/-- The mantissa's shift can be read off the quanta. -/
theorem log2_quanta (m : Nat) : (quanta m).log2 - 52 = shift m := by
  by_cases h : m < 2 ^ 53
  · have hs : shift m = 0 := by unfold shift; omega
    have hq : quanta m < 2 ^ 53 := by simpa [quanta, hs] using h
    by_cases h0 : quanta m = 0
    · simp [h0, hs]
    · have := (Nat.log2_lt h0).2 hq
      omega
  · have hm : 2 ^ 52 ≤ m - shift m <<< 52 ∧ m - shift m <<< 52 < 2 ^ 53 := by unfold shift; omega
    have hp : 0 < 2 ^ shift m := Nat.two_pow_pos _
    have hlog : (quanta m).log2 = 52 + shift m := by
      rw [quanta, Nat.shiftLeft_eq (m - _), Nat.log2_eq_iff (Nat.mul_ne_zero (by omega) (by omega))]
      constructor
      · rw [Nat.pow_add]; exact Nat.mul_le_mul_right _ hm.1
      · rw [show 52 + shift m + 1 = 53 + shift m by omega, Nat.pow_add]
        exact Nat.mul_lt_mul_of_pos_right hm.2 hp
    omega

/-- A fraction whose value is that of a number is rounded to this number. -/
theorem nearest_of_quanta {m n d : Nat} (hm : m ≤ infinity) (hd : 0 < d) (h : n * one = quanta m * d) :
    nearest n d = m := by
  have hr : quanta m * d = (m - shift m <<< 52) * (d <<< shift m) := by
    rw [quanta, Nat.shiftLeft_eq (m - _), Nat.shiftLeft_eq d, Nat.mul_assoc, Nat.mul_comm (2 ^ _) d]
  have hpos : 0 < d <<< shift m := by
    rw [Nat.shiftLeft_eq]
    exact Nat.mul_pos hd (Nat.two_pow_pos _)
  simp only [nearest, h, Nat.mul_div_cancel _ hd, log2_quanta]
  rw [hr, roundDiv_mul_right _ hpos, Nat.add_sub_cancel' (shift_le m), Nat.min_eq_right hm]

end Formula.Binary64
