import Formula.Binary64
import Mathlib
/-!
# Numbers and their bits

A number is stored as a word of 64 bits, its arithmetic works on the sign, mantissa and exponent that
the word unpacks to. Nothing is lost on the way there and back (`pack_unpack`), so up to infinity a
magnitude and its number determine each other (`magnitude_ofMagnitude`, `ofMagnitude_magnitude`), and a
number equals itself (`beq_self`). A number is given by its sign and magnitude (`eq_of_magnitude_eq`), and
what is no number is one thing only (`eq_of_infinity_lt`).
-/

namespace Formula.Binary64

open Float.Model Float.Model.UnpackedFloat

/-! ## Fields -/

theorem toNat_unpackMantissa (b : BitVec Format.binary64.numBits) :
    (unpackMantissa b).toNat = b.toNat % 2 ^ 52 := by
  simp [unpackMantissa, BitVec.extractLsb, BitVec.extractLsb']

theorem toNat_unpackExponent (b : BitVec Format.binary64.numBits) :
    (unpackExponent b).toNat = b.toNat / 2 ^ 52 % 2 ^ 11 := by
  simp [unpackExponent, BitVec.extractLsb, BitVec.extractLsb', Nat.shiftRight_eq_div_pow]

theorem toNat_unpackSign (b : BitVec Format.binary64.numBits) :
    (unpackSign b).toNat = b.toNat / 2 ^ 63 % 2 := by
  simp [unpackSign, BitVec.extractLsb, BitVec.extractLsb', Nat.shiftRight_eq_div_pow]

theorem toBitVec_ofBitVec (v : BitVec 1) : (Sign.ofBitVec v).toBitVec = v := by
  revert v; decide

theorem packComponents_unpackFields (b : BitVec Format.binary64.numBits) :
    packComponents .binary64 (.ofBitVec (unpackSign b)) (unpackExponent b) (unpackMantissa b) = b := by
  apply BitVec.eq_of_toNat_eq
  rw [packComponents, toBitVec_ofBitVec, BitVec.toNat_append, BitVec.toNat_append,
    ← Nat.shiftLeft_add_eq_or_of_lt (unpackMantissa b).isLt, ← Nat.shiftLeft_add_eq_or_of_lt (unpackExponent b).isLt,
    toNat_unpackSign, toNat_unpackExponent, toNat_unpackMantissa]
  have : b.toNat < 2 ^ 64 := b.isLt
  simp only [Nat.shiftLeft_eq]
  omega

theorem packComponents_of_fields {b : BitVec Format.binary64.numBits} {e : BitVec Format.binary64.exponentBits}
    {m : BitVec Format.binary64.mantissaBitsWithoutImplicit} (he : e = unpackExponent b) (hm : m = unpackMantissa b) :
    packComponents .binary64 (.ofBitVec (unpackSign b)) e m = b := by
  rw [he, hm, packComponents_unpackFields]

/-! ## Packing -/

theorem pack_subnormal (s : Sign) {m : Nat} {e : Int} (hm : 0 < m) (h : m < 2 ^ 52) (he : e = -1074) :
    UnpackedFloat.pack .binary64 (.finite s m e hm) = packComponents .binary64 s 0 (.ofNat _ m) := by
  have hlog : m.log2 < 52 := (Nat.log2_lt (by omega)).2 h
  subst he
  rw [UnpackedFloat.pack]
  exact (if_neg (by decide)).trans (if_neg (by simp only [Format.mantissaBits]; omega))

theorem pack_normal (s : Sign) {m k : Nat} {e : Int} (hm : 0 < m) (h : 2 ^ 52 ≤ m ∧ m < 2 ^ 53) (hk : k + 1 < 2 ^ 11)
    (he : e = k - 1075) :
    UnpackedFloat.pack .binary64 (.finite s m e hm) = packComponents .binary64 s (.ofNat _ k) (.ofNat _ m) := by
  have hlog : m.log2 = 52 := (Nat.log2_eq_iff (by omega)).2 h
  have hbias : (e + (Format.binary64.exponentBias : Nat) + (Format.binary64.mantissaBitsWithoutImplicit : Nat)).toNat =
      k := by
    rw [he, show Format.binary64.exponentBias = 1023 from rfl,
      show Format.binary64.mantissaBitsWithoutImplicit = 52 from rfl]
    omega
  rw [UnpackedFloat.pack]
  simp only [hbias]
  exact (if_neg (by omega)).trans (if_pos (by rw [hlog]; rfl))

/-- A word is packed from what it unpacks to, unless it stands for no number in an unusual way. -/
theorem pack_unpack {b : BitVec Format.binary64.numBits} (hb : Format.binary64.Valid b) :
    UnpackedFloat.pack .binary64 (UnpackedFloat.unpack .binary64 b) = b := by
  unfold UnpackedFloat.unpack
  dsimp only
  split
  · next he =>
    split
    · next hm => exact packComponents_of_fields he.symm hm.symm
    · next hm => exact (hb.eq_packedNaN he hm).symm
  · next he =>
    have he' : (unpackExponent b).toNat < 2 ^ 11 := (unpackExponent b).isLt
    have hne : (unpackExponent b).toNat ≠ 2 ^ 11 - 1 := fun h => he (BitVec.eq_of_toNat_eq h)
    have hm : (unpackMantissa b).toNat < 2 ^ 52 := (unpackMantissa b).isLt
    split
    · next h0 =>
      split
      · next hm0 => exact packComponents_of_fields h0.symm hm0.symm
      · next hm0 =>
        rw [pack_subnormal _ _ hm (by rw [h0]; rfl)]
        exact packComponents_of_fields h0.symm (BitVec.ofNat_toNat _ _)
    · next h0 =>
      -- The leading one of a normal mantissa is not stored: it goes where the field is cut off.
      have happ : (1#1 ++ unpackMantissa b).toNat = 2 ^ 52 + (unpackMantissa b).toNat := by
        rw [BitVec.toNat_append, ← Nat.shiftLeft_add_eq_or_of_lt (unpackMantissa b).isLt]
        rfl
      refine (pack_normal _ _ (by rw [happ]; omega) (show (unpackExponent b).toNat + 1 < 2 ^ 11 by omega) rfl).trans ?_
      refine packComponents_of_fields (BitVec.ofNat_toNat _ _) (BitVec.eq_of_toNat_eq ?_)
      rw [happ]
      show (2 ^ 52 + (unpackMantissa b).toNat) % 2 ^ 52 = _
      rw [Nat.add_mod_left, Nat.mod_eq_of_lt hm]

theorem ofBits_toBits (x : Float) : Float.ofBits x.toBits = x := by
  obtain ⟨⟨b, hb⟩⟩ := x
  simp only [Float.ofBits, Float.toBits, Float.Model.ofBits, Float.Model.pack, pack_unpack hb]

theorem toBits_ofBits {b : UInt64} (hb : Format.binary64.Valid b.toBitVec) : (Float.ofBits b).toBits = b := by
  simp only [Float.ofBits, Float.toBits, Float.Model.ofBits, Float.Model.pack, pack_unpack hb]

/-- Up to infinity, an exponent of ones stands for infinity. -/
theorem unpackMantissa_eq_zero {b : BitVec Format.binary64.numBits} (h : b.toNat % (1 <<< 63) ≤ infinity)
    (he : unpackExponent b = -1#_) : unpackMantissa b = 0#_ := by
  have he : b.toNat / 2 ^ 52 % 2 ^ 11 = 2 ^ 11 - 1 := toNat_unpackExponent b ▸ congrArg BitVec.toNat he
  refine BitVec.eq_of_toNat_eq ((toNat_unpackMantissa b).trans ?_)
  show b.toNat % 2 ^ 52 = 0
  simp only [infinity, Nat.reduceShiftLeft] at h
  omega

theorem toBits_ofBits_of_le {b : UInt64} (hb : b.toNat % (1 <<< 63) ≤ infinity) : (Float.ofBits b).toBits = b :=
  toBits_ofBits ⟨fun he hm => absurd (unpackMantissa_eq_zero hb he) hm⟩

theorem unpacked_beq_self {u : UnpackedFloat} (h : u ≠ .notANumber) : u.beq u = true := by
  cases u with
  | notANumber => exact absurd rfl h
  | infinity s => cases s <;> rfl
  | zero s => rfl
  | finite s m e hm => cases s <;> simp [UnpackedFloat.beq, UnpackedFloat.compare]

theorem unpack_ne_notANumber {b : BitVec Format.binary64.numBits} (h : b.toNat % (1 <<< 63) ≤ infinity) :
    UnpackedFloat.unpack .binary64 b ≠ .notANumber := by
  unfold UnpackedFloat.unpack
  dsimp only
  split
  · next he =>
    rw [if_pos (unpackMantissa_eq_zero h he)]
    simp
  · split
    · split <;> simp
    · simp

/-- A number equals itself. -/
theorem beq_self {x : Float} (h : magnitude x ≤ infinity) : (x == x) = true :=
  unpacked_beq_self (unpack_ne_notANumber h)

/-! ## Magnitudes -/

theorem toNat_toBits_ofMagnitude {m : Nat} (h : m ≤ infinity) : (ofMagnitude false m).toBits.toNat = m := by
  have hm : m < 1 <<< 63 := Nat.lt_of_le_of_lt h (by decide)
  have hnat : (UInt64.ofNat m).toNat = m := UInt64.toNat_ofNat_of_lt' (show m < 2 ^ 64 by omega)
  show (Float.ofBits (.ofNat m)).toBits.toNat = m
  rw [toBits_ofBits_of_le (by rw [hnat, Nat.mod_eq_of_lt hm]; exact h), hnat]

theorem magnitude_ofMagnitude {m : Nat} (h : m ≤ infinity) : magnitude (ofMagnitude false m) = m := by
  rw [magnitude, toNat_toBits_ofMagnitude h, Nat.mod_eq_of_lt (Nat.lt_of_le_of_lt h (by decide))]

theorem isNegative_ofMagnitude {m : Nat} (h : m ≤ infinity) : isNegative (ofMagnitude false m) = false := by
  rw [isNegative, toNat_toBits_ofMagnitude h]
  exact decide_eq_false (Nat.not_le_of_lt (Nat.lt_of_le_of_lt h (by decide)))

theorem ofMagnitude_magnitude {x : Float} (h : isNegative x = false) : ofMagnitude false (magnitude x) = x := by
  have hx : x.toBits.toNat < 1 <<< 63 := Nat.lt_of_not_le (of_decide_eq_false h)
  show Float.ofBits (.ofNat (magnitude x)) = x
  rw [magnitude, Nat.mod_eq_of_lt hx, UInt64.ofNat_toNat, ofBits_toBits]

/-- The sign and the magnitude make the number. -/
theorem eq_of_magnitude_eq {x y : Float} (hm : magnitude x = magnitude y) (hs : isNegative x = isNegative y) :
    x = y := by
  have hx : x.toBits.toNat < 2 ^ 64 := x.toBits.toNat_lt
  have hy : y.toBits.toNat < 2 ^ 64 := y.toBits.toNat_lt
  rw [isNegative, isNegative, decide_eq_decide] at hs
  rw [magnitude, magnitude] at hm
  simp only [Nat.one_shiftLeft] at hm hs
  have hbits : x.toBits = y.toBits := UInt64.toNat_inj.1 (by omega)
  rw [← ofBits_toBits x, hbits, ofBits_toBits]

/-- Above infinity, an exponent of ones goes with a mantissa. -/
theorem fields_of_infinity_lt {b : BitVec Format.binary64.numBits} (h : infinity < b.toNat % (1 <<< 63)) :
    unpackExponent b = -1#_ ∧ unpackMantissa b ≠ 0#_ := by
  simp only [infinity, Nat.reduceShiftLeft] at h
  have hb : b.toNat < 2 ^ 64 := b.isLt
  refine ⟨BitVec.eq_of_toNat_eq ((toNat_unpackExponent b).trans ?_), fun hm => ?_⟩
  · show b.toNat / 2 ^ 52 % 2 ^ 11 = 2 ^ 11 - 1
    omega
  · have hm : b.toNat % 2 ^ 52 = 0 := toNat_unpackMantissa b ▸ congrArg BitVec.toNat hm
    omega

/-- What is no number is stored in one way only. -/
theorem eq_of_infinity_lt {x y : Float} (hx : infinity < magnitude x) (hy : infinity < magnitude y) : x = y := by
  obtain ⟨⟨b, hb⟩⟩ := x
  obtain ⟨⟨b', hb'⟩⟩ := y
  obtain ⟨he, hm⟩ := fields_of_infinity_lt hx
  obtain ⟨he', hm'⟩ := fields_of_infinity_lt hy
  have hbits : b = b' := UInt64.toBitVec_inj.1 ((hb.eq_packedNaN he hm).trans (hb'.eq_packedNaN he' hm').symm)
  subst hbits
  rfl

end Formula.Binary64
