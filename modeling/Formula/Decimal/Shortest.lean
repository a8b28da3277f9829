import Formula.Decimal
/-!
# The shortest decimal of a number

A number is written with the fewest digits that read back to it. `shortest` tries one digit, then
two, and so on up to the seventeen that tell all numbers apart. On each of these grids only the two
neighbours of the number's exact value can be nearest to it, and a neighbour is taken only if it
reads back. Main statement: what is chosen reads back to the number (`magnitude_shortest`).
-/

namespace Formula.Decimal

/-- The exact value of `q` quanta. -/
def exact (q : Nat) : Decimal := ⟨q * Nat.pow 5 Binary64.places, -Binary64.places⟩

/-- The power of ten of the leading digit of `n`, for `n` above zero and below `2 ^ 10000`. The fraction
is a little less than the decimal logarithm of two, so the product is that power or one less. -/
def leadingPower (n : Nat) : Nat :=
  let k := n.log2 * 1233 / 4096
  if n < Nat.pow 10 (k + 1) then k else k + 1

/-- The power of ten of the leading digit of `q` quanta, for `q` above zero: no number but zero is
below `10 ^ -324`. -/
def leadingExponent (q : Nat) : Int := leadingPower (q * Nat.pow 10 324 / Binary64.one) - 324

/-- The neighbour of the magnitude `m` on the grid of the multiples of `10 ^ k` that reads back: the
nearer one if both do, and at the same distance the upper one. -/
def onGrid? (m : Nat) (k : Int) : Option Decimal :=
  let n := Binary64.quanta m * Nat.pow 10 (-k).toNat
  let d := Binary64.one * Nat.pow 10 k.toNat
  let lower := trim ⟨n / d, k⟩
  let upper := trim ⟨n / d + 1, k⟩
  if lower.magnitude = m ∧ (2 * (n % d) < d ∨ upper.magnitude ≠ m) then some lower
  else if upper.magnitude = m then some upper
  else none

/-- The decimal of fewest digits that reads back to the finite magnitude `m`, the nearest among
several; should no grid serve, its exact value. -/
def shortest (m : Nat) : Decimal :=
  if m = 0 then ⟨0, 0⟩
  else
    let e := leadingExponent (Binary64.quanta m)
    ((List.range 17).findSome? fun i : Nat => onGrid? m (e - i)).getD (exact (Binary64.quanta m))

/-! ## The shortest decimal reads back -/

theorem pow_five_mul (k : Nat) : Nat.pow 5 k * 1 <<< k = Nat.pow 10 k := by
  rw [Nat.one_shiftLeft]
  exact (Nat.mul_pow 5 2 k).symm

theorem pow_ten_pos (k : Nat) : 0 < Nat.pow 10 k := Nat.pow_pos (by decide)

theorem magnitude_exact {m : Nat} (h : m ≤ Binary64.infinity) :
    (exact (Binary64.quanta m)).magnitude = m := by
  rw [exact, magnitude_neg]
  refine Binary64.nearest_of_quanta h (pow_ten_pos _) ?_
  rw [Nat.mul_assoc, Binary64.one, pow_five_mul]

theorem magnitude_of_onGrid? {m : Nat} {k : Int} {d : Decimal} (h : onGrid? m k = some d) :
    d.magnitude = m := by
  simp only [onGrid?] at h
  split at h
  · next hl => cases h; exact hl.1
  · split at h
    · next hu => cases h; exact hu
    · cases h

theorem magnitude_shortest {m : Nat} (h : m ≤ Binary64.infinity) : (shortest m).magnitude = m := by
  unfold shortest
  split
  · next h0 => subst h0; decide +kernel
  · simp only
    cases hf : List.findSome? _ _ with
    | none => exact magnitude_exact h
    | some d =>
      obtain ⟨i, -, hi⟩ := List.exists_of_findSome?_eq_some hf
      exact magnitude_of_onGrid? hi

end Formula.Decimal
