import Formula.Decimal
import Formula.Proofs.Bits
import Mathlib
/-!
# The nearest number

Magnitudes stand for whole numbers of quanta in their own order (`quanta_strictMono`), and from one to the next it is a
power of two. So `nearest` has two candidates, one on either side of the fraction, and takes the nearer one, or the even
one half way between them. That no other number is as near, and that infinity is taken as the power of two behind the
greatest number, is said by `IsNearest`, which has at most one solution. Main statements: `nearest_eq_iff` for fractions
and `Decimal.magnitude_eq_iff` for decimals.
-/

namespace Formula

namespace Binary64

/-! ## Quanta -/

theorem one_pos : 0 < one := by
  rw [one, Nat.one_shiftLeft]
  exact Nat.two_pow_pos _

/-- A mantissa that has been shifted is at least `2 ^ 52`; one of `2 ^ 53` carries into the next binade. -/
theorem quanta_shift_add {s r : Nat} (hs : s = 0 ∨ 2 ^ 52 ≤ r) (hr : r ≤ 2 ^ 53) :
    quanta (s <<< 52 + r) = r * 2 ^ s := by
  rcases Nat.lt_or_eq_of_le hr with hr | rfl
  · have hshift : shift (s <<< 52 + r) = s := by
      simp only [shift, Nat.shiftLeft_eq, Nat.shiftRight_eq_div_pow]
      omega
    rw [quanta, hshift, Nat.add_sub_cancel_left, Nat.shiftLeft_eq]
  · have hshift : shift (s <<< 52 + 2 ^ 53) = s + 1 := by
      simp only [shift, Nat.shiftLeft_eq, Nat.shiftRight_eq_div_pow]
      omega
    have hmantissa : s <<< 52 + 2 ^ 53 - (s + 1) <<< 52 = 2 ^ 52 := by
      simp only [Nat.shiftLeft_eq]
      omega
    rw [quanta, hshift, hmantissa, Nat.shiftLeft_eq, Nat.pow_succ' (n := s)]
    omega

theorem quanta_succ (m : Nat) : quanta (m + 1) = quanta m + 2 ^ shift m := by
  obtain ⟨r, hr⟩ : ∃ r, m = shift m <<< 52 + r := ⟨_, (Nat.add_sub_cancel' (shift_le m)).symm⟩
  have hbounds : (shift m = 0 ∨ 2 ^ 52 ≤ r) ∧ r < 2 ^ 53 := by
    simp only [shift, Nat.shiftLeft_eq, Nat.shiftRight_eq_div_pow] at hr ⊢
    omega
  obtain ⟨hs, hlt⟩ := hbounds
  generalize shift m = s at hr hs ⊢
  subst hr
  rw [Nat.add_assoc, quanta_shift_add hs (Nat.le_of_lt hlt), quanta_shift_add (by omega) hlt, Nat.succ_mul]

theorem quanta_strictMono : StrictMono quanta :=
  strictMono_nat_of_lt_succ fun m => by
    rw [quanta_succ]
    exact Nat.lt_add_of_pos_right (Nat.two_pow_pos _)

theorem quanta_infinity : quanta infinity = 2 ^ 1024 * one := by
  have hinf : infinity = 2046 <<< 52 + 2 ^ 52 := rfl
  have hplaces : 52 + 2046 = 1024 + places := rfl
  rw [hinf, quanta_shift_add (.inr (Nat.le_refl _)) (by decide), one, Nat.one_shiftLeft, ← Nat.pow_add 2 52 2046,
    ← Nat.pow_add 2 1024 places, hplaces]

/-! ## The two candidates -/

/-- The mantissa is shifted until it has no more than 53 bits, so if it is shifted at all it has as many. -/
theorem div_two_pow_bounds (q : Nat) :
    (q.log2 - 52 = 0 ∨ 2 ^ 52 ≤ q / 2 ^ (q.log2 - 52)) ∧ q / 2 ^ (q.log2 - 52) < 2 ^ 53 := by
  have hpos : 0 < 2 ^ (q.log2 - 52) := Nat.two_pow_pos _
  have hlt : q < 2 ^ (q.log2 + 1) := Nat.lt_log2_self
  constructor
  · rcases Nat.eq_zero_or_pos (q.log2 - 52) with hs | hs
    · exact .inl hs
    · have hq : q ≠ 0 := by
        rintro rfl
        exact absurd hs (by decide)
      refine .inr ((Nat.le_div_iff_mul_le hpos).2 ?_)
      rw [← Nat.pow_add, show 52 + (q.log2 - 52) = q.log2 by omega]
      exact Nat.log2_self_le hq
  · refine (Nat.div_lt_iff_lt_mul hpos).2 (Nat.lt_of_lt_of_le hlt ?_)
    rw [← Nat.pow_add]
    exact Nat.pow_le_pow_right (by decide) (by omega)

/-- The mantissa `f` of a fraction, what is left of the fraction behind it, and how it is rounded for that. -/
theorem exists_mantissa (n : Nat) {d : Nat} (hd : 0 < d) : ∃ s f r,
    (s = 0 ∨ 2 ^ 52 ≤ f) ∧ f < 2 ^ 53 ∧ r < d <<< s ∧ n * one = f * (d <<< s) + r ∧
    nearest n d = min infinity (s <<< 52 + if d <<< s < 2 * r ∨ (2 * r = d <<< s ∧ f % 2 = 1) then f + 1 else f) := by
  obtain ⟨hs, hlt⟩ := div_two_pow_bounds (n * one / d)
  rw [nearest]
  generalize (n * one / d).log2 - 52 = s at hs hlt ⊢
  rw [Nat.div_div_eq_div_mul, ← Nat.shiftLeft_eq] at hs hlt
  have hpos : 0 < d <<< s := by
    rw [Nat.shiftLeft_eq]
    exact Nat.mul_pos hd (Nat.two_pow_pos s)
  exact ⟨s, n * one / (d <<< s), n * one % (d <<< s), hs, hlt, Nat.mod_lt _ hpos, (Nat.div_add_mod' _ _).symm, rfl⟩

/-- A fraction lies between two magnitudes that follow each other, and is rounded to one of them, the nearer one or
the even one, but not past infinity. -/
theorem exists_candidates (n : Nat) {d : Nat} (hd : 0 < d) : ∃ m,
    quanta m * d ≤ n * one ∧ n * one < quanta (m + 1) * d ∧
    nearest n d = min infinity (if (quanta m + quanta (m + 1)) * d < 2 * (n * one) ∨
      ((quanta m + quanta (m + 1)) * d = 2 * (n * one) ∧ m % 2 = 1) then m + 1 else m) := by
  obtain ⟨s, f, r, hs, hf, hr, hn, hnear⟩ := exists_mantissa n hd
  have hquanta {k : Nat} (hk : s = 0 ∨ 2 ^ 52 ≤ k) (hle : k ≤ 2 ^ 53) : quanta (s <<< 52 + k) * d = k * (d <<< s) := by
    rw [quanta_shift_add hk hle, Nat.mul_assoc, Nat.mul_comm (2 ^ s), Nat.shiftLeft_eq]
  have hlower : quanta (s <<< 52 + f) * d = f * (d <<< s) := hquanta hs (Nat.le_of_lt hf)
  have hupper : quanta (s <<< 52 + f + 1) * d = f * (d <<< s) + d <<< s := by
    rw [Nat.add_assoc, hquanta (by omega) hf, Nat.succ_mul]
  have hparity : (s <<< 52 + f) % 2 = f % 2 := by
    simp only [Nat.shiftLeft_eq]
    omega
  have hcloser : d <<< s < 2 * r ∨ (2 * r = d <<< s ∧ f % 2 = 1) ↔
      (quanta (s <<< 52 + f) + quanta (s <<< 52 + f + 1)) * d < 2 * (n * one) ∨
        ((quanta (s <<< 52 + f) + quanta (s <<< 52 + f + 1)) * d = 2 * (n * one) ∧ (s <<< 52 + f) % 2 = 1) := by
    rw [Nat.add_mul, hlower, hupper, hparity]
    omega
  refine ⟨s <<< 52 + f, by omega, by omega, ?_⟩
  rw [hnear, if_congr hcloser rfl rfl, Nat.add_assoc, ← apply_ite (s <<< 52 + ·)]

/-! ## Nearest -/

/-- The value of a magnitude. That of infinity is the power of two behind the greatest number. -/
def value (m : Nat) : ℚ := quanta m / one

/-- No magnitude has a value as near to `q` as that of `m`, unless it lies as far on the other side and `m` is even. -/
structure IsNearest (q : ℚ) (m : Nat) : Prop where
  le_infinity : m ≤ infinity
  abs_le : ∀ k ≤ infinity, |q - value m| ≤ |q - value k|
  even_of_eq : ∀ k ≤ infinity, k ≠ m → |q - value m| = |q - value k| → Even m

theorem value_infinity : value infinity = 2 ^ 1024 := by
  have hone : (one : ℚ) ≠ 0 := Nat.cast_ne_zero.2 (Nat.ne_of_gt one_pos)
  rw [value, quanta_infinity, Nat.cast_mul, mul_div_cancel_right₀ _ hone, Nat.cast_pow, Nat.cast_ofNat]

theorem value_strictMono : StrictMono value := fun _ _ h =>
  div_lt_div_of_pos_right (Nat.cast_lt.2 (quanta_strictMono h)) (Nat.cast_pos.2 one_pos)

variable {q : ℚ} {m n d : Nat}

/-- From above, a greater magnitude is nearer. -/
theorem abs_sub_lt_of_le {k : Nat} (hq : value m ≤ q) (hk : k < m) : |q - value m| < |q - value k| := by
  have hlt := value_strictMono hk
  rw [abs_of_nonneg (by linarith), abs_of_pos (by linarith)]
  linarith

/-- From below, a smaller magnitude is nearer. -/
theorem abs_sub_lt_of_ge {k : Nat} (hq : q ≤ value m) (hk : m < k) : |q - value m| < |q - value k| := by
  have hlt := value_strictMono hk
  rw [abs_of_nonpos (by linarith), abs_of_neg (by linarith)]
  linarith

namespace IsNearest

/-- It is enough to compare with the other candidate `c`, if all the rest are no nearer than one of the two. -/
theorem of_candidate {c : Nat} (hm : m ≤ Binary64.infinity)
    (hrest : ∀ k ≤ Binary64.infinity, k ≠ m → |q - value m| < |q - value k| ∨ |q - value c| ≤ |q - value k|)
    (hnear : |q - value m| ≤ |q - value c|) (heven : |q - value m| = |q - value c| → Even m) : IsNearest q m := by
  refine ⟨hm, fun k hk => ?_, fun k hk hne heq => ?_⟩
  · rcases eq_or_ne k m with rfl | hne
    · exact le_refl _
    · rcases hrest k hk hne with hfar | hfar
      · exact le_of_lt hfar
      · exact hnear.trans hfar
  · rcases hrest k hk hne with hfar | hfar
    · exact absurd heq (ne_of_lt hfar)
    · exact heven (le_antisymm hnear (hfar.trans_eq heq.symm))

/-- Behind infinity there is no other candidate. -/
theorem infinity (hq : value Binary64.infinity ≤ q) : IsNearest q Binary64.infinity := by
  refine of_candidate (le_refl _) (fun k hk hne => .inl ?_) (le_refl _) fun _ => Nat.even_iff.2 rfl
  exact abs_sub_lt_of_le hq (Nat.lt_of_le_of_ne hk hne)

section

variable (hm : m < Binary64.infinity) (hle : value m ≤ q) (hlt : q < value (m + 1))

include hm hle hlt

/-- The lower candidate, if the upper one is farther, or as far and odd. -/
theorem lower (hnear : 2 * q ≤ value m + value (m + 1)) (heven : 2 * q = value m + value (m + 1) → Even m) :
    IsNearest q m := by
  have hbelow : |q - value m| = q - value m := abs_of_nonneg (by linarith)
  have habove : |q - value (m + 1)| = value (m + 1) - q := by rw [abs_of_neg (by linarith), neg_sub]
  refine of_candidate (c := m + 1) (le_of_lt hm) (fun k _ hne => ?_) (by linarith) fun heq => heven (by linarith)
  rcases lt_or_gt_of_ne hne with hk | hk
  · exact .inl (abs_sub_lt_of_le hle hk)
  · rcases eq_or_lt_of_le (Nat.succ_le_of_lt hk) with rfl | hk
    · exact .inr (le_refl _)
    · exact .inr (le_of_lt (abs_sub_lt_of_ge (le_of_lt hlt) hk))

/-- The upper candidate, if the lower one is farther, or as far and odd. -/
theorem upper (hnear : value m + value (m + 1) ≤ 2 * q) (heven : 2 * q = value m + value (m + 1) → Even (m + 1)) :
    IsNearest q (m + 1) := by
  have hbelow : |q - value m| = q - value m := abs_of_nonneg (by linarith)
  have habove : |q - value (m + 1)| = value (m + 1) - q := by rw [abs_of_neg (by linarith), neg_sub]
  refine of_candidate (c := m) hm (fun k _ hne => ?_) (by linarith) fun heq => heven (by linarith)
  rcases lt_or_gt_of_ne hne with hk | hk
  · rcases eq_or_lt_of_le (Nat.le_of_lt_succ hk) with rfl | hk
    · exact .inr (le_refl _)
    · exact .inr (le_of_lt (abs_sub_lt_of_le hle hk))
  · exact .inl (abs_sub_lt_of_ge (le_of_lt hlt) hk)

end

/-- Between two that are even and as near there would be one that is nearer. -/
theorem not_lt {m' : Nat} (h : IsNearest q m) (h' : IsNearest q m') : ¬ m < m' := by
  intro hlt
  have heq : |q - value m| = |q - value m'| := le_antisymm (h.abs_le m' h'.le_infinity) (h'.abs_le m h.le_infinity)
  have heven := h.even_of_eq m' h'.le_infinity (ne_of_gt hlt) heq
  have heven' := h'.even_of_eq m h.le_infinity (ne_of_lt hlt) heq.symm
  have hnext : m + 1 < m' := by
    obtain ⟨i, rfl⟩ := heven
    obtain ⟨j, rfl⟩ := heven'
    omega
  have hm : value m < value (m + 1) := value_strictMono (Nat.lt_succ_self m)
  have hm' : value (m + 1) < value m' := value_strictMono hnext
  have hmiddle : 2 * q = value m + value m' := by
    rcases abs_eq_abs.1 heq with heq | heq <;> linarith
  have hnearer := h.abs_le (m + 1) (Nat.le_of_lt (Nat.lt_of_lt_of_le hnext h'.le_infinity))
  rw [abs_of_pos (by linarith : 0 < q - value m)] at hnearer
  exact absurd hnearer (not_le_of_gt (abs_lt.2 ⟨by linarith, by linarith⟩))

theorem unique {m' : Nat} (h : IsNearest q m) (h' : IsNearest q m') : m = m' :=
  Nat.le_antisymm (Nat.le_of_not_lt (h'.not_lt h)) (Nat.le_of_not_lt (h.not_lt h'))

end IsNearest

/-! ## Rounding a fraction -/

section

variable (hd : 0 < d)

include hd

theorem value_le_div_iff : value m ≤ n / d ↔ quanta m * d ≤ n * one := by
  rw [value, div_le_div_iff₀ (Nat.cast_pos.2 one_pos) (Nat.cast_pos.2 hd)]
  norm_cast

theorem div_lt_value_iff : (n / d : ℚ) < value m ↔ n * one < quanta m * d := by
  rw [← not_le, value_le_div_iff hd, Nat.not_le]

theorem value_add_le_iff {k : Nat} : value m + value k ≤ 2 * (n / d) ↔ (quanta m + quanta k) * d ≤ 2 * (n * one) := by
  rw [value, value, ← add_div, ← mul_div_assoc, div_le_div_iff₀ (Nat.cast_pos.2 one_pos) (Nat.cast_pos.2 hd), mul_assoc]
  norm_cast

theorem le_value_add_iff {k : Nat} : 2 * (n / d) ≤ value m + value k ↔ 2 * (n * one) ≤ (quanta m + quanta k) * d := by
  rw [value, value, ← add_div, ← mul_div_assoc, div_le_div_iff₀ (Nat.cast_pos.2 hd) (Nat.cast_pos.2 one_pos), mul_assoc]
  norm_cast

/-- A fraction is rounded to the magnitude that is nearest to it. -/
theorem isNearest_nearest (n : Nat) : IsNearest (n / d) (nearest n d) := by
  obtain ⟨m, hle, hlt, hnear⟩ := exists_candidates n hd
  have hle' : value m ≤ n / d := (value_le_div_iff hd).2 hle
  have hlt' : (n / d : ℚ) < value (m + 1) := (div_lt_value_iff hd).2 hlt
  rw [hnear]
  rcases Nat.lt_or_ge m infinity with hm | hm
  · split
    · next hupper =>
      rw [Nat.min_eq_right hm]
      refine .upper hm hle' hlt' ((value_add_le_iff hd).2 (by omega)) fun heq => ?_
      have hhalf := (le_value_add_iff hd).1 (le_of_eq heq)
      exact Nat.even_add_one.2 (Nat.not_even_iff.2 (by omega))
    · next hlower =>
      rw [Nat.min_eq_right (Nat.le_of_lt hm)]
      refine .lower hm hle' hlt' ((le_value_add_iff hd).2 (by omega)) fun heq => ?_
      have hhalf := (value_add_le_iff hd).1 (le_of_eq heq.symm)
      exact Nat.even_iff.2 (by omega)
  · rw [Nat.min_eq_left (by split <;> omega)]
    exact .infinity ((value_strictMono.monotone hm).trans hle')

theorem nearest_eq_iff : nearest n d = m ↔ IsNearest (n / d) m := by
  constructor
  · rintro rfl
    exact isNearest_nearest hd n
  · exact (isNearest_nearest hd n).unique

end

/-- Half way between two numbers the even one is taken, on either side. -/
example : nearest (2 ^ 53 + 1) 1 = nearest (2 ^ 53) 1 ∧ nearest (2 ^ 53 + 3) 1 = nearest (2 ^ 53 + 4) 1 := by
  decide +kernel

end Binary64

namespace Decimal

/-- The value of a decimal. -/
def value (d : Decimal) : ℚ := d.coefficient * 10 ^ d.exponent

/-- A decimal is rounded to the magnitude that is nearest to its value. -/
theorem magnitude_eq_iff {d : Decimal} {m : Nat} : d.magnitude = m ↔ Binary64.IsNearest d.value m := by
  obtain ⟨c, e⟩ := d
  cases e with
  | ofNat k =>
    have hvalue : value ⟨c, .ofNat k⟩ = ((c * Nat.pow 10 k : ℕ) : ℚ) / (1 : ℕ) := by
      rw [value, Nat.cast_one, div_one, Int.ofNat_eq_natCast, zpow_natCast]
      exact_mod_cast rfl
    rw [hvalue]
    exact Binary64.nearest_eq_iff Nat.one_pos
  | negSucc k =>
    have hvalue : value ⟨c, .negSucc k⟩ = (c : ℚ) / (Nat.pow 10 (k + 1) : ℕ) := by
      rw [value, zpow_negSucc, ← div_eq_mul_inv]
      exact_mod_cast rfl
    rw [hvalue]
    exact Binary64.nearest_eq_iff (Nat.pow_pos (by decide))

/-- So a decimal becomes the number nearest to its value. -/
theorem isNearest_toFloat (d : Decimal) : Binary64.IsNearest d.value (Binary64.magnitude d.toFloat) := by
  have hnearest := magnitude_eq_iff.1 (Eq.refl d.magnitude)
  rw [toFloat, Binary64.magnitude_ofMagnitude hnearest.le_infinity]
  exact hnearest

end Decimal

end Formula
