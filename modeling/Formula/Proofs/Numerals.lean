import Formula.Proofs.Nearest
import Formula.Alphabet
import Formula.Decimal.Layout
/-!
# Numerals read back

A decimal written out in full is a numeral of the same value (`ofNumeral?_writeFull`). Together with the
choice of the shortest decimal, the text of a number is a numeral that reads back to the number
(`exists_numeral`). So no two numbers are written alike (`numberText_injective`).
-/

namespace Formula

/-- A run of characters ends where the first of another kind stands. -/
theorem span_append {p : Char → Bool} {cs rest : List Char} (h : ∀ c ∈ cs, p c) (hr : ∀ c ∈ rest.head?, p c = false) :
    (cs ++ rest).takeWhile p = cs ∧ (cs ++ rest).dropWhile p = rest := by
  rw [List.takeWhile_append_of_pos h, List.dropWhile_append_of_pos h]
  cases rest with
  | nil => simp
  | cons c rest =>
    have hc : p c = false := hr c rfl
    simp [hc]

namespace Decimal

theorem isDigit_of_mem_padded {width n : Nat} {c : Char} (hc : c ∈ padded width n) : c.isDigit := by
  rcases List.mem_append.1 hc with hc | hc
  · rw [(List.mem_replicate.1 hc).2]
    decide
  · exact Nat.isDigit_of_mem_toDigits (by decide) (by decide) hc

theorem length_padded {width n : Nat} (hw : 0 < width) (hn : n < 10 ^ width) : (padded width n).length = width := by
  have := (Nat.length_toDigits_le_iff (by decide) hw).2 hn
  simp only [padded, List.length_append, List.length_replicate]
  omega

theorem ofDigitChars_padded (width n : Nat) : Nat.ofDigitChars 10 (padded width n) 0 = n := by
  simp only [padded, Nat.ofDigitChars_append, Nat.ofDigitChars_replicate_zero, Nat.mul_zero,
    Nat.ofDigitChars_ten_toDigits]

theorem ofNumeral?_digits {ds : List Char} (hd : ∀ c ∈ ds, c.isDigit) (hne : ds ≠ []) :
    ofNumeral? ds = some ⟨Nat.ofDigitChars 10 ds 0, 0⟩ := by
  obtain ⟨htake, hdrop⟩ := span_append hd (show ∀ c : Char, c ∈ [].head? → c.isDigit = false by simp)
  rw [List.append_nil] at htake hdrop
  simp only [ofNumeral?, hdrop, htake, if_neg hne]

theorem ofNumeral?_point {ds fs : List Char} (hd : ∀ c ∈ ds, c.isDigit) (hf : ∀ c ∈ fs, c.isDigit)
    (hne : ¬ (ds = [] ∧ fs = [])) :
    ofNumeral? (ds ++ '.' :: fs) = some ⟨Nat.ofDigitChars 10 (ds ++ fs) 0, -fs.length⟩ := by
  obtain ⟨htake, hdrop⟩ := span_append hd (show ∀ c ∈ ('.' :: fs).head?, c.isDigit = false by simp)
  simp only [ofNumeral?, hdrop, htake]
  rw [if_pos ⟨trivial, List.all_eq_true.2 hf, hne⟩]

/-- A decimal written out in full is read back with its value. -/
theorem ofNumeral?_writeFull (d : Decimal) :
    ∃ d', ofNumeral? (d.writeFull []) = some d' ∧ d'.magnitude = d.magnitude := by
  obtain ⟨c, e⟩ := d
  have hdigits : ∀ n, ∀ x ∈ Nat.toDigits 10 n, x.isDigit := fun n x =>
    Nat.isDigit_of_mem_toDigits (by decide) (by decide)
  cases e with
  | ofNat k =>
    simp only [writeFull, List.append_nil]
    refine ⟨_, ofNumeral?_digits (hdigits _) Nat.toDigits_ne_nil, ?_⟩
    rw [Nat.ofDigitChars_ten_toDigits]
    simp [magnitude]
  | negSucc k =>
    simp only [writeFull]
    refine ⟨_, ofNumeral?_point (hdigits _) (fun _ => isDigit_of_mem_padded) fun h => Nat.toDigits_ne_nil h.1, ?_⟩
    -- The whole part moves up by exactly the places behind the point.
    have hlen : (padded (k + 1) (c % Nat.pow 10 (k + 1))).length = k + 1 :=
      length_padded (by omega) (Nat.mod_lt _ (pow_ten_pos _))
    have hvalue : 10 ^ (k + 1) * (c / Nat.pow 10 (k + 1)) + c % Nat.pow 10 (k + 1) = c :=
      Nat.div_add_mod c (10 ^ (k + 1))
    rw [Nat.ofDigitChars_append, Nat.ofDigitChars_ten_toDigits, Nat.ofDigitChars_eq_ofDigitChars_zero,
      ofDigitChars_padded, hlen, hvalue, magnitude_neg]
    rfl

/-- What is written out in full starts with a digit. -/
theorem exists_digit_writeFull (d : Decimal) (mark : List Char) : ∃ c cs, d.writeFull mark = c :: cs ∧ c.isDigit := by
  have hdigits : ∀ n rest, ∃ c cs, Nat.toDigits 10 n ++ rest = c :: cs ∧ c.isDigit := by
    intro n rest
    obtain ⟨c, cs, h⟩ := List.exists_cons_of_ne_nil (Nat.toDigits_ne_nil (n := n) (b := 10))
    have hdigit : c.isDigit := Nat.isDigit_of_mem_toDigits (b := 10) (n := n) (by decide) (by decide) (by simp [h])
    exact ⟨c, cs ++ rest, by rw [h]; rfl, hdigit⟩
  unfold writeFull
  split <;> exact hdigits _ _

theorem isNumeral_of_isDigit {c : Char} (h : c.isDigit) : isNumeral c := by
  rw [isNumeral, h, Bool.true_or]

end Decimal

open Binary64

/-! ## The text of a magnitude -/

/-- The text of a number without its sign: `inf`, or a numeral. -/
def magnitudeText (m : Nat) : List Char :=
  if m = infinity then ['i', 'n', 'f'] else (Decimal.shortest m).writeFull []

/-- The numeral reads back to the magnitude. -/
theorem exists_ofNumeral?_magnitudeText {m : Nat} (h : m < infinity) :
    ∃ d, Decimal.ofNumeral? (magnitudeText m) = some d ∧ d.magnitude = m := by
  obtain ⟨d, hd, hm⟩ := Decimal.ofNumeral?_writeFull (Decimal.shortest m)
  rw [magnitudeText, if_neg (Nat.ne_of_lt h)]
  exact ⟨d, hd, hm.trans (Decimal.magnitude_shortest (Nat.le_of_lt h))⟩

/-- Read back, with infinity for what is no numeral, every text gives its magnitude. -/
theorem magnitude_ofNumeral?_magnitudeText {m : Nat} (h : m ≤ infinity) :
    ((Decimal.ofNumeral? (magnitudeText m)).map Decimal.magnitude).getD infinity = m := by
  rcases Nat.lt_or_eq_of_le h with h | rfl
  · obtain ⟨d, hd, hmag⟩ := exists_ofNumeral?_magnitudeText h
    rw [hd]
    exact hmag
  · rfl

theorem magnitudeText_inj {m n : Nat} (hm : m ≤ infinity) (hn : n ≤ infinity) (h : magnitudeText m = magnitudeText n) :
    m = n := by
  rw [← magnitude_ofNumeral?_magnitudeText hm, h, magnitude_ofNumeral?_magnitudeText hn]

/-- It starts neither with a sign nor like the text of what is no number. -/
theorem exists_magnitudeText_eq (m : Nat) : ∃ c cs, magnitudeText m = c :: cs ∧ c ≠ '-' ∧ c ≠ 'N' := by
  rw [magnitudeText]
  split
  · exact ⟨'i', ['n', 'f'], rfl, by decide, by decide⟩
  · obtain ⟨c, cs, htext, hc⟩ := (Decimal.shortest m).exists_digit_writeFull []
    refine ⟨c, cs, htext, ?_, ?_⟩
    · rintro rfl
      exact absurd hc (by decide)
    · rintro rfl
      exact absurd hc (by decide)

/-! ## The text of a number -/

theorem writeNumber_of_infinity_lt {x : Float} (h : infinity < magnitude x) :
    writeNumber .plain x = ['N', 'a', 'N'] := by
  simp only [writeNumber, if_pos h]

theorem writeNumber_of_le {x : Float} (h : magnitude x ≤ infinity) :
    writeNumber .plain x =
      if isNegative x then '-' :: magnitudeText (magnitude x) else magnitudeText (magnitude x) := by
  simp only [writeNumber, if_neg (Nat.not_lt.2 h)]
  rfl

/-- A finite number without a sign is written out in full. -/
theorem writeNumber_finite {x : Float} (hx : magnitude x < infinity) (hs : isNegative x = false) :
    writeNumber .plain x = (Decimal.shortest (magnitude x)).writeFull [] := by
  rw [writeNumber_of_le (Nat.le_of_lt hx), if_neg (by simp [hs]), magnitudeText, if_neg (Nat.ne_of_lt hx)]

/-- The text of a finite number without a sign is a numeral that reads back to it. -/
theorem exists_numeral {x : Float} (hx : magnitude x < infinity) (hs : isNegative x = false) :
    ∃ d, Decimal.ofNumeral? (writeNumber .plain x) = some d ∧ d.toFloat = x := by
  obtain ⟨d, hd, hm⟩ := exists_ofNumeral?_magnitudeText hx
  rw [writeNumber_of_le (Nat.le_of_lt hx), if_neg (by simp [hs])]
  exact ⟨d, hd, by rw [Decimal.toFloat, hm, ofMagnitude_magnitude hs]⟩

/-- Infinity is written like a name. -/
theorem writeNumber_infinity {x : Float} (hx : magnitude x = infinity) (hs : isNegative x = false) :
    writeNumber .plain x = ['i', 'n', 'f'] := by
  rw [writeNumber_of_le (Nat.le_of_eq hx), if_neg (by simp [hs]), hx]
  rfl

theorem writeNumber_ne_nan {x : Float} (h : magnitude x ≤ infinity) : writeNumber .plain x ≠ ['N', 'a', 'N'] := by
  obtain ⟨c, cs, htext, -, hc⟩ := exists_magnitudeText_eq (magnitude x)
  rw [writeNumber_of_le h, htext]
  cases isNegative x with
  | true => simp
  | false => simp [hc]

theorem isNegative_eq_head? {x : Float} (h : magnitude x ≤ infinity) :
    isNegative x = decide ((writeNumber .plain x).head? = some '-') := by
  obtain ⟨c, cs, htext, hc, -⟩ := exists_magnitudeText_eq (magnitude x)
  rw [writeNumber_of_le h, htext]
  cases isNegative x with
  | true => rfl
  | false => simp [hc]

/-- The sign and the digits can be told from the text. -/
theorem eq_of_writeNumber_eq {x y : Float} (hx : magnitude x ≤ infinity) (hy : magnitude y ≤ infinity)
    (h : writeNumber .plain x = writeNumber .plain y) : x = y := by
  have hsign : isNegative x = isNegative y := by rw [isNegative_eq_head? hx, isNegative_eq_head? hy, h]
  rw [writeNumber_of_le hx, writeNumber_of_le hy, hsign] at h
  have htext : magnitudeText (magnitude x) = magnitudeText (magnitude y) := by
    cases hneg : isNegative y with
    | true => simpa [hneg] using h
    | false => simpa [hneg] using h
  exact eq_of_magnitude_eq (magnitudeText_inj hx hy htext) hsign

/-- No two numbers have the same text. -/
theorem writeNumber_injective : Function.Injective (writeNumber .plain) := by
  intro x y h
  rcases Nat.lt_or_ge infinity (magnitude x) with hx | hx
  · rcases Nat.lt_or_ge infinity (magnitude y) with hy | hy
    · exact eq_of_infinity_lt hx hy
    · exact absurd (h.symm.trans (writeNumber_of_infinity_lt hx)) (writeNumber_ne_nan hy)
  · rcases Nat.lt_or_ge infinity (magnitude y) with hy | hy
    · exact absurd (h.trans (writeNumber_of_infinity_lt hy)) (writeNumber_ne_nan hx)
    · exact eq_of_writeNumber_eq hx hy h

theorem numberText_injective : Function.Injective numberText := fun _ _ h =>
  writeNumber_injective (String.ofList_injective h)

/-! ## Too large a decimal -/

theorem Decimal.magnitude_le (d : Decimal) : d.magnitude ≤ infinity := by
  unfold Decimal.magnitude
  split <;> exact Nat.min_le_left _ _

/-- Past the last binade everything is infinite. -/
theorem nearest_of_le {n k : Nat} (hk : 1024 ≤ k) (h : 2 ^ k ≤ n) : nearest n 1 = infinity := by
  have hn : 2 ^ 1024 ≤ n := le_trans (pow_le_pow_right₀ one_le_two hk) h
  refine (nearest_eq_iff Nat.one_pos).2 (.infinity ((value_le_div_iff Nat.one_pos).2 ?_))
  rw [quanta_infinity, Nat.mul_one]
  exact Nat.mul_le_mul_right one hn

/-- Ninety-three places are a little less than twenty-eight digits. -/
theorem two_pow_le_ten_pow (i : Nat) : 2 ^ (93 * i + 1) ≤ 10 ^ (28 * i + 1) := by
  rw [Nat.pow_succ, Nat.pow_succ, Nat.pow_mul, Nat.pow_mul]
  exact Nat.mul_le_mul (Nat.pow_le_pow_left (by decide) i) (by decide)

theorem magnitude_power {k : Nat} (hk : 309 ≤ k) : magnitude (Decimal.toFloat ⟨10 ^ k, 0⟩) = infinity := by
  -- Eleven of these steps reach the last binade; the number is kept abstract, or the powers are computed.
  obtain ⟨i, hi⟩ : ∃ i, i = 11 := ⟨11, rfl⟩
  have hbig : 2 ^ (93 * i + 1) ≤ Nat.pow 10 k * Nat.pow 10 0 := by
    rw [show Nat.pow 10 0 = 1 from rfl, Nat.mul_one]
    exact Nat.le_trans (two_pow_le_ten_pow i) (Nat.pow_le_pow_right (by decide) (by omega))
  have hmag : Decimal.magnitude ⟨10 ^ k, 0⟩ = infinity := nearest_of_le (by omega) hbig
  rw [Decimal.toFloat, hmag]
  exact magnitude_ofMagnitude (Nat.le_refl _)

end Formula
