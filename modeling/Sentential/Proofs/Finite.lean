import Mathlib.Algebra.Group.Nat.Defs
import Sentential.Json.Shape

/-!
# Finite numbers

Which numbers are finite: those between zero and one, and all that a text stands for. A number is
finite when its exponent stays below a bound, and rounding raises the exponent of a binary fraction
by one at most. So it is enough to look at the exponents that multiplications and divisions start
with.
-/
namespace Sentential.Finite

open Float.Model Float.Model.UnpackedFloat

/-- A binary fraction whose exponent is at most the given one. -/
def Within (k : Int) : UnpackedFloat → Prop
  | .zero _ => True
  | .finite _ _ e _ => e ≤ k
  | .infinity _ | .notANumber => False

theorem Within.isFinite {k : Int} {u : UnpackedFloat} (h : Within k u) : u.isFinite = true := by
  cases u with
  | zero | finite => rfl
  | infinity | notANumber => cases h

/-- A binary fraction with a full mantissa whose exponent lies between the given ones. -/
def Full (j k : Int) : UnpackedFloat → Prop
  | .finite _ m e _ => m.log2 = 52 ∧ j ≤ e ∧ e ≤ k
  | .zero _ | .infinity _ | .notANumber => False

instance (j k : Int) : DecidablePred (Full j k)
  | .finite _ m e _ => inferInstanceAs (Decidable (m.log2 = 52 ∧ j ≤ e ∧ e ≤ k))
  | .zero _ | .infinity _ | .notANumber => inferInstanceAs (Decidable False)

theorem Full.exists_eq {j k : Int} {u : UnpackedFloat} (h : Full j k u) :
    ∃ s m e hm, u = .finite s m e hm ∧ m.log2 = 52 ∧ j ≤ e ∧ e ≤ k := by
  cases u with
  | finite s m e hm => exact ⟨s, m, e, hm, rfl, h⟩
  | zero | infinity | notANumber => cases h

theorem Full.mono {i j k l : Int} {u : UnpackedFloat} (h : Full j k u) (hj : i ≤ j) (hk : k ≤ l) :
    Full i l u := by
  obtain ⟨s, m, e, hm, rfl, hlog, hlow, hhigh⟩ := h.exists_eq
  exact ⟨hlog, by omega, by omega⟩

theorem Full.isFinite {j k : Int} {u : UnpackedFloat} (h : Full j k u) : u.isFinite = true := by
  obtain ⟨s, m, e, hm, rfl, -⟩ := h.exists_eq
  rfl

/-! ## Packing -/

/-- What unpacked bits can be, by the exponent field that they have. -/
def Unpacked (field : Nat) : UnpackedFloat → Prop
  | .finite _ m e _ =>
    field < 2047 ∧ m < 2 ^ 53 ∧ e = max (field : Int) 1 - 1075 ∧ (field ≠ 0 → 2 ^ 52 ≤ m)
  | .zero _ => field = 0
  | .infinity _ | .notANumber => field = 2047

section Unpack

variable {bits : BitVec Format.binary64.numBits} {j k : Int}

theorem unpacked_unpack (bits : BitVec Format.binary64.numBits) :
    Unpacked (unpackExponent bits).toNat (UnpackedFloat.unpack Format.binary64 bits) := by
  have hmantissa : (unpackMantissa bits).toNat < 2 ^ 52 := (unpackMantissa bits).isLt
  have hexponent : (unpackExponent bits).toNat < 2 ^ 11 := (unpackExponent bits).isLt
  delta UnpackedFloat.unpack
  dsimp only
  by_cases hones : unpackExponent bits = -1#11
  · rw [if_pos hones, hones]
    split <;> rfl
  · have hne : (unpackExponent bits).toNat ≠ 2047 := fun heq => hones (BitVec.toNat_inj.1 heq)
    rw [if_neg hones]
    by_cases hzero : unpackExponent bits = 0#11
    · rw [if_pos hzero, hzero]
      by_cases hnone : unpackMantissa bits = 0#52
      · rw [dif_pos hnone]
        rfl
      · rw [dif_neg hnone]
        exact ⟨by decide, by omega, rfl, fun h => absurd rfl h⟩
    · have hpos : (unpackExponent bits).toNat ≠ 0 := fun heq => hzero (BitVec.toNat_inj.1 heq)
      rw [if_neg hzero]
      refine ⟨by omega, BitVec.isLt _, ?_, fun _ => ?_⟩
      · change ((unpackExponent bits).toNat : Int) - (1023 + 52) = _
        omega
      · rw [BitVec.toNat_append]
        exact Nat.left_le_or

/-- The mantissa and the exponent of a number that is not zero. -/
theorem unpack_bounds {s : Sign} {m : Nat} {e : Int} {hm : 0 < m}
    (h : UnpackedFloat.unpack Format.binary64 bits = .finite s m e hm) : m < 2 ^ 53 ∧ e ≤ 971 := by
  have hunpacked := unpacked_unpack bits
  rw [h] at hunpacked
  obtain ⟨hfield, hmantissa, he, -⟩ := hunpacked
  exact ⟨hmantissa, by omega⟩

theorem within_unpack_bits (hones : (unpackExponent bits).toNat < 2047) (hlow : -1074 ≤ k)
    (hk : ((unpackExponent bits).toNat : Int) - 1075 ≤ k) :
    Within k (UnpackedFloat.unpack Format.binary64 bits) := by
  have hunpacked := unpacked_unpack bits
  cases hu : UnpackedFloat.unpack Format.binary64 bits with
  | zero s => trivial
  | infinity | notANumber =>
    rw [hu] at hunpacked
    exact absurd hunpacked (Nat.ne_of_lt hones)
  | finite s m e hm =>
    rw [hu] at hunpacked
    obtain ⟨-, -, he, -⟩ := hunpacked
    change e ≤ k
    omega

theorem full_unpack_bits (hones : (unpackExponent bits).toNat < 2047)
    (hzero : (unpackExponent bits).toNat ≠ 0)
    (hj : j ≤ ((unpackExponent bits).toNat : Int) - 1075)
    (hk : ((unpackExponent bits).toNat : Int) - 1075 ≤ k) :
    Full j k (UnpackedFloat.unpack Format.binary64 bits) := by
  have hunpacked := unpacked_unpack bits
  cases hu : UnpackedFloat.unpack Format.binary64 bits with
  | zero s =>
    rw [hu] at hunpacked
    exact absurd hunpacked hzero
  | infinity | notANumber =>
    rw [hu] at hunpacked
    exact absurd hunpacked (Nat.ne_of_lt hones)
  | finite s m e hm =>
    rw [hu] at hunpacked
    obtain ⟨-, hsmall, he, hlarge⟩ := hunpacked
    exact ⟨(Nat.log2_eq_iff (by omega)).2 ⟨hlarge hzero, hsmall⟩, by omega, by omega⟩

end Unpack

theorem pack_finite (s : Sign) (m : Nat) (e : Int) (hm : 0 < m) :
    UnpackedFloat.pack Format.binary64 (.finite s m e hm) =
      if 2 ^ 11 ≤ (e + 1075).toNat + 1 then packedInfinity Format.binary64 s
      else if m.log2 + 1 = 53 then
        packComponents Format.binary64 s (BitVec.ofNat 11 (e + 1075).toNat) (BitVec.ofNat 52 m)
      else packComponents Format.binary64 s 0#11 (BitVec.ofNat 52 m) := by
  have hbias : (e + 1075).toNat = (e + (1023 : Nat) + (52 : Nat)).toNat := by omega
  rw [hbias]
  rfl

/-- Packing a number and unpacking it again does not raise its exponent beyond a bound that is in
range. -/
theorem Within.unpack_pack {k : Int} (hlow : -1074 ≤ k) (hhigh : k ≤ 971) {u : UnpackedFloat}
    (h : Within k u) : Within k (Float.Model.pack u).unpack := by
  have hcomponents : ∀ {s} {exponent : BitVec 11} {mantissa : BitVec 52}, exponent.toNat < 2047 →
      (exponent.toNat : Int) - 1075 ≤ k → Within k (UnpackedFloat.unpack Format.binary64
        (packComponents Format.binary64 s exponent mantissa)) := by
    intro s exponent mantissa hones hk
    refine within_unpack_bits ?_ hlow ?_ <;> rwa [unpackExponent_packComponents]
  change Within k (UnpackedFloat.unpack Format.binary64 (UnpackedFloat.pack Format.binary64 u))
  cases u with
  | infinity | notANumber => cases h
  | zero s => exact hcomponents (by decide) (by change (0 : Int) - 1075 ≤ k; omega)
  | finite s m e hm =>
    have he : e ≤ k := h
    rw [pack_finite, if_neg (by omega)]
    split
    · have hnat : (BitVec.ofNat 11 (e + 1075).toNat).toNat = (e + 1075).toNat := by
        rw [BitVec.toNat_ofNat, Nat.mod_eq_of_lt (by omega)]
      exact hcomponents (by omega) (by omega)
    · exact hcomponents (by decide) (by change (0 : Int) - 1075 ≤ k; omega)

theorem isFinite_pack {u : UnpackedFloat} (h : Within 971 u) :
    (Float.ofModel (Float.Model.pack u)).isFinite = true :=
  (h.unpack_pack (by omega) (by omega)).isFinite

/-- A number that does not get infinite when it is packed is finite. -/
theorem isFinite_pack_of_isInf {u : UnpackedFloat} (hu : u.isFinite = true)
    (h : (Float.ofModel (Float.Model.pack u)).isInf = false) :
    (Float.ofModel (Float.Model.pack u)).isFinite = true := by
  cases u with
  | infinity | notANumber => cases hu
  | zero s => exact isFinite_pack trivial
  | finite s m e hm =>
    by_cases he : e ≤ 971
    · exact isFinite_pack he
    · change (UnpackedFloat.unpack Format.binary64 (UnpackedFloat.pack Format.binary64 _)).isInf = _ at h
      rw [pack_finite, if_pos (by omega)] at h
      cases s <;> exact absurd h (by decide)

theorem within_unpack {x : Float} (h : x.isFinite = true) : Within 971 x.toModel.unpack := by
  have hfinite : x.toModel.unpack.isFinite = true := h
  cases hu : x.toModel.unpack with
  | zero => trivial
  | finite s m e hm => exact (unpack_bounds hu).2
  | infinity | notANumber =>
    rw [hu] at hfinite
    cases hfinite

/-! ## Rounding -/

theorem shiftRight_mantissa (em : ExtendedMantissa) (n : Nat) :
    (em >>> n).mantissa = em.mantissa / 2 ^ n := by
  induction n with
  | zero => rw [Nat.pow_zero, Nat.div_one]; rfl
  | succ n ih =>
    change (em >>> n).mantissa / 2 = _
    rw [ih, Nat.div_div_eq_div_mul, Nat.pow_succ]

theorem roundedMantissa_bounds (em : ExtendedMantissa) :
    em.mantissa ≤ em.roundedMantissa ∧ em.roundedMantissa ≤ em.mantissa + 1 := by
  obtain ⟨m, round, sticky⟩ := em
  cases round <;> cases sticky <;>
    simp only [ExtendedMantissa.roundedMantissa, ExtendedMantissa.accuracy,
      Accuracy.roundToNearestEven] <;> omega

theorem targetExponent_binary64 (t : Int) :
    Format.binary64.targetExponent t = max (t - 53) (-1074) := rfl

theorem shiftToTargetExponent_mantissa (m : Nat) (e : Int) (accuracy : Accuracy) :
    (shiftToTargetExponent Format.binary64 m e accuracy).1.mantissa =
      m / 2 ^ (max (totalExponent m e - 53) (-1074) - e).toNat := by
  have hmantissa : (ExtendedMantissa.ofMantissaAndAccuracy m accuracy).mantissa = m := by
    rcases accuracy with _ | order
    · rfl
    · cases order <;> rfl
  simp only [shiftToTargetExponent, shiftToExponent, shiftRight_mantissa, hmantissa,
    targetExponent_binary64]

/-- A mantissa that has been shifted to the exponent it should have fits. -/
theorem shiftToTargetExponent_lt (m : Nat) (e : Int) (accuracy : Accuracy) :
    (shiftToTargetExponent Format.binary64 m e accuracy).1.mantissa < 2 ^ 53 := by
  rw [shiftToTargetExponent_mantissa, totalExponent, Nat.div_lt_iff_lt_mul (Nat.two_pow_pos _),
    ← Nat.pow_add]
  calc m < 2 ^ (m.log2 + 1) := Nat.lt_log2_self
    _ ≤ 2 ^ (53 + (max ((m.log2 : Int) + 1 + e - 53) (-1074) - e).toNat) :=
      Nat.pow_le_pow_right (by omega) (by omega)

/-- Rounding shifts the mantissa to the exponent that it should have, and the rounded mantissa once
more. -/
theorem roundWithAccuracy_eq {s : Sign} {m : Nat} {e e₁ : Int} {accuracy : Accuracy}
    {em : ExtendedMantissa} (h : shiftToTargetExponent Format.binary64 m e accuracy = (em, e₁)) :
    roundWithAccuracy Format.binary64 s m e accuracy =
      if h : (shiftToTargetExponent Format.binary64 em.roundedMantissa e₁ .exact).1.mantissa = 0
      then .zero s
      else .finite s _ (shiftToTargetExponent Format.binary64 em.roundedMantissa e₁ .exact).2
        (Nat.pos_of_ne_zero h) := by
  rw [roundWithAccuracy, h]

theorem shiftToTargetExponent_snd (m : Nat) (e : Int) (accuracy : Accuracy) :
    (shiftToTargetExponent Format.binary64 m e accuracy).2 =
      max e (max (totalExponent m e - 53) (-1074)) := by
  simp only [shiftToTargetExponent, shiftToExponent, targetExponent_binary64]
  omega

/-- Rounding raises the exponent that a binary fraction should have by one at most. -/
theorem within_round {k : Int} (hlow : -1074 ≤ k) {m : Nat} {e : Int} (he : e ≤ k)
    (ht : totalExponent m e ≤ k + 53) (s : Sign) (accuracy : Accuracy) :
    Within (k + 1) (roundWithAccuracy Format.binary64 s m e accuracy) := by
  have hfirst : (shiftToTargetExponent Format.binary64 m e accuracy).2 ≤ k := by
    rw [shiftToTargetExponent_snd]
    omega
  have hsmall := shiftToTargetExponent_lt m e accuracy
  obtain ⟨⟨em, e₁⟩, heq⟩ : ∃ first, shiftToTargetExponent Format.binary64 m e accuracy = first :=
    ⟨_, rfl⟩
  rw [heq] at hfirst hsmall
  dsimp only at hfirst hsmall
  rw [roundWithAccuracy_eq heq]
  by_cases hnone : (shiftToTargetExponent Format.binary64 em.roundedMantissa e₁ .exact).1.mantissa = 0
  · rw [dif_pos hnone]
    trivial
  · -- a mantissa that is rounded up to the next power of two is shifted once more
    rw [dif_neg hnone]
    change (shiftToTargetExponent Format.binary64 em.roundedMantissa e₁ .exact).2 ≤ k + 1
    have hrounded : em.roundedMantissa < 2 ^ 54 := by
      have := (roundedMantissa_bounds em).2
      omega
    have hlog : em.roundedMantissa.log2 ≤ 53 := by
      by_cases h0 : em.roundedMantissa = 0
      · rw [h0]
        decide
      · exact Nat.le_of_lt_succ ((Nat.log2_lt h0).2 hrounded)
    rw [shiftToTargetExponent_snd, totalExponent]
    omega

theorem isFinite_pack_round {m : Nat} {e : Int} (he : e ≤ 970) (ht : totalExponent m e ≤ 1023)
    (s : Sign) (accuracy : Accuracy) : (Float.ofModel (Float.Model.pack
      (roundWithAccuracy Format.binary64 s m e accuracy))).isFinite = true :=
  isFinite_pack (within_round (by omega) he ht s accuracy)

theorem isFinite_round (s : Sign) (m : Nat) (e : Int) (accuracy : Accuracy) :
    (roundWithAccuracy Format.binary64 s m e accuracy).isFinite = true := by
  obtain ⟨⟨em, e₁⟩, heq⟩ : ∃ first, shiftToTargetExponent Format.binary64 m e accuracy = first :=
    ⟨_, rfl⟩
  rw [roundWithAccuracy_eq heq]
  by_cases hnone : (shiftToTargetExponent Format.binary64 em.roundedMantissa e₁ .exact).1.mantissa = 0
  · rw [dif_pos hnone]
    rfl
  · rw [dif_neg hnone]
    rfl

/-! ## Numbers that are not too small -/

/-- A full mantissa survives packing as long as the exponent is in range. -/
theorem Full.unpack_pack {j k : Int} (hlow : -1074 ≤ j) (hhigh : k ≤ 971) {u : UnpackedFloat}
    (h : Full j k u) : Full j k (Float.Model.pack u).unpack := by
  obtain ⟨s, m, e, hm, rfl, hlog, hj, hk⟩ := h.exists_eq
  have hexponent : (BitVec.ofNat 11 (e + 1075).toNat).toNat = (e + 1075).toNat := by
    rw [BitVec.toNat_ofNat, Nat.mod_eq_of_lt (by omega)]
  change Full j k (UnpackedFloat.unpack Format.binary64 (UnpackedFloat.pack Format.binary64 _))
  rw [pack_finite, if_neg (by omega), if_pos (by omega)]
  refine full_unpack_bits ?_ ?_ ?_ ?_ <;>
    · rw [unpackExponent_packComponents, hexponent]
      omega

/-- Shifting keeps a full mantissa of one that is long enough. -/
theorem le_shiftToTargetExponent {m : Nat} {e t : Int} (hlog : 52 ≤ m.log2)
    (ht : totalExponent m e = t + 53) (hlow : -1074 ≤ t) (accuracy : Accuracy) :
    2 ^ 52 ≤ (shiftToTargetExponent Format.binary64 m e accuracy).1.mantissa := by
  have hm : m ≠ 0 := by
    rintro rfl
    exact absurd hlog (by decide)
  have hshift : (max (totalExponent m e - 53) (-1074) - e).toNat = m.log2 - 52 := by
    rw [totalExponent] at ht ⊢
    omega
  rw [shiftToTargetExponent_mantissa, hshift, Nat.le_div_iff_mul_le (Nat.two_pow_pos _),
    ← Nat.pow_add, Nat.add_sub_cancel' hlog]
  exact Nat.log2_self_le hm

/-- Rounding a mantissa that is long enough fills the mantissa of the result. -/
theorem full_round {m : Nat} {e t : Int} (hlog : 52 ≤ m.log2) (ht : totalExponent m e = t + 53)
    (hlow : -1074 ≤ t) (s : Sign) (accuracy : Accuracy) :
    Full t (t + 1) (roundWithAccuracy Format.binary64 s m e accuracy) := by
  have hfirst : (shiftToTargetExponent Format.binary64 m e accuracy).2 = t := by
    rw [shiftToTargetExponent_snd, ht]
    rw [totalExponent] at ht
    omega
  have hlarge := le_shiftToTargetExponent hlog ht hlow accuracy
  have hsmall := shiftToTargetExponent_lt m e accuracy
  obtain ⟨⟨em, e₁⟩, heq⟩ : ∃ first, shiftToTargetExponent Format.binary64 m e accuracy = first :=
    ⟨_, rfl⟩
  rw [heq] at hfirst hlarge hsmall
  rw [roundWithAccuracy_eq heq]
  obtain rfl : e₁ = t := hfirst
  dsimp only at hlarge hsmall
  obtain ⟨hle, hge⟩ := roundedMantissa_bounds em
  have hround : ∃ c : Int, 0 ≤ c ∧ c ≤ 1 ∧ totalExponent em.roundedMantissa e₁ = e₁ + c + 53 := by
    by_cases hcarry : em.roundedMantissa = 2 ^ 53
    · refine ⟨1, by omega, by omega, ?_⟩
      rw [hcarry, totalExponent, Nat.log2_two_pow]
      omega
    · refine ⟨0, by omega, by omega, ?_⟩
      rw [totalExponent, (Nat.log2_eq_iff (k := 52) (by omega)).2 ⟨by omega, by omega⟩]
      omega
  obtain ⟨c, hc₀, hc₁, htotal⟩ := hround
  have hlog₁ : 52 ≤ em.roundedMantissa.log2 := (Nat.le_log2 (by omega)).2 (by omega)
  have hlarge₁ := le_shiftToTargetExponent hlog₁ htotal (by omega) .exact
  have hsmall₁ := shiftToTargetExponent_lt em.roundedMantissa e₁ .exact
  have hsnd₁ : (shiftToTargetExponent Format.binary64 em.roundedMantissa e₁ .exact).2 = e₁ + c := by
    rw [shiftToTargetExponent_snd, htotal]
    omega
  rw [dif_neg (by omega)]
  exact ⟨(Nat.log2_eq_iff (by omega)).2 ⟨hlarge₁, hsmall₁⟩, by omega, by omega⟩

/-! ## Operations -/

variable {x y : Float}

theorem isFinite_neg (hx : x.isFinite = true) : (-x).isFinite = true := by
  refine isFinite_pack ?_
  have h := within_unpack hx
  cases hu : x.toModel.unpack with
  | zero => trivial
  | finite s m e hm =>
    rw [hu] at h
    exact h
  | infinity | notANumber =>
    rw [hu] at h
    cases h

/-- A product of finite numbers is a number, possibly an infinite one. -/
theorem isFinite_mul (hx : x.isFinite = true) (hy : y.isFinite = true)
    (h : (x * y).isInf = false) : (x * y).isFinite = true := by
  refine isFinite_pack_of_isInf ?_ h
  have h₁ : x.toModel.unpack.isFinite = true := hx
  have h₂ : y.toModel.unpack.isFinite = true := hy
  cases hu : x.toModel.unpack with
  | infinity | notANumber =>
    rw [hu] at h₁
    cases h₁
  | zero =>
    cases hv : y.toModel.unpack with
    | infinity | notANumber =>
      rw [hv] at h₂
      cases h₂
    | zero | finite => rfl
  | finite =>
    cases hv : y.toModel.unpack with
    | infinity | notANumber =>
      rw [hv] at h₂
      cases h₂
    | zero => rfl
    | finite => exact isFinite_round _ _ _ _

/-- A quotient is no longer than the shift of its numerator. -/
theorem log2_div_le {m₁ m₂ : Nat} (h₁ : m₁ < 2 ^ 53) (h₂ : m₂.log2 = 52) (shift : Nat) :
    (m₁ <<< shift / m₂).log2 ≤ shift := by
  by_cases hq : m₁ <<< shift / m₂ = 0
  · rw [hq]
    exact Nat.zero_le _
  · have hm₂ : 2 ^ 52 ≤ m₂ := h₂ ▸ Nat.log2_self_le (by rintro rfl; cases h₂)
    have hlt : 2 ^ (m₁ <<< shift / m₂).log2 * 2 ^ 52 < 2 ^ (53 + shift) :=
      calc 2 ^ (m₁ <<< shift / m₂).log2 * 2 ^ 52 ≤ m₁ <<< shift / m₂ * m₂ :=
            Nat.mul_le_mul (Nat.log2_self_le hq) hm₂
        _ ≤ m₁ <<< shift := Nat.div_mul_le_self _ _
        _ = m₁ * 2 ^ shift := Nat.shiftLeft_eq _ _
        _ < 2 ^ 53 * 2 ^ shift := Nat.mul_lt_mul_of_pos_right h₁ (Nat.two_pow_pos _)
        _ = 2 ^ (53 + shift) := (Nat.pow_add _ _ _).symm
    rw [← Nat.pow_add, Nat.pow_lt_pow_iff_right (by decide)] at hlt
    omega

theorem log2_shiftLeft_le (m shift : Nat) : (m <<< shift).log2 ≤ m.log2 + shift := by
  by_cases hm : m <<< shift = 0
  · rw [hm]
    exact Nat.zero_le _
  · have hlt : m <<< shift < 2 ^ (m.log2 + 1 + shift) := by
      rw [Nat.shiftLeft_eq, Nat.pow_add]
      exact Nat.mul_lt_mul_of_pos_right Nat.lt_log2_self (Nat.two_pow_pos _)
    have := (Nat.log2_lt hm).2 hlt
    omega

theorem log2_mul_pow_le (m : Nat) {j k : Nat} (h : j ≤ k) :
    (m * 10 ^ j).log2 ≤ (m * 10 ^ k).log2 := by
  by_cases hm : m * 10 ^ j = 0
  · rw [hm]
    exact Nat.zero_le _
  · have hle : m * 10 ^ j ≤ m * 10 ^ k :=
      Nat.mul_le_mul_left m (Nat.pow_le_pow_right (by decide) h)
    exact Nat.le_of_lt_succ ((Nat.log2_lt hm).2 (Nat.lt_of_le_of_lt hle Nat.lt_log2_self))

theorem exists_div_eq (s₁ s₂ : Sign) (m₁ m₂ : Nat) (e₁ e₂ : Int) (hm₁ : 0 < m₁) (hm₂ : 0 < m₂) :
    ∃ t accuracy, t = min (e₁ - e₂) (max (totalExponent m₁ e₁ - totalExponent m₂ e₂ - 53) (-1074)) ∧
      UnpackedFloat.div Format.binary64 (.finite s₁ m₁ e₁ hm₁) (.finite s₂ m₂ e₂ hm₂) =
        roundWithAccuracy Format.binary64 (s₁ / s₂) (m₁ <<< (e₁ - e₂ - t).toNat / m₂) t accuracy :=
  ⟨_, _, rfl, rfl⟩

theorem isFinite_div (hx : x.isFinite = true) (hy : Full (-51) 971 y.toModel.unpack) :
    (x / y).isFinite = true := by
  change (Float.ofModel (Float.Model.pack (UnpackedFloat.div _ _ _))).isFinite = true
  have h := within_unpack hx
  obtain ⟨s₂, m₂, e₂, hm₂, hv, hlog₂, he₂, -⟩ := hy.exists_eq
  rw [hv]
  cases hu : x.toModel.unpack with
  | zero => exact isFinite_pack trivial
  | infinity | notANumber =>
    rw [hu] at h
    cases h
  | finite s₁ m₁ e₁ hm₁ =>
    obtain ⟨hm, he⟩ := unpack_bounds hu
    have hlog₁ : m₁.log2 < 53 := (Nat.log2_lt (by omega)).2 hm
    obtain ⟨t, accuracy, ht, hdiv⟩ := exists_div_eq s₁ s₂ m₁ m₂ e₁ e₂ hm₁ hm₂
    rw [totalExponent, totalExponent, hlog₂] at ht
    have hlog := log2_div_le hm hlog₂ (e₁ - e₂ - t).toNat
    rw [hdiv]
    refine isFinite_pack_round (by omega) ?_ _ _
    rw [totalExponent]
    omega

theorem powerOfTen_eq_round {e : Nat} (h₁ : 22 < e) (h₂ : e ≤ 308) :
    (Json.Numeral.powerOfTen e).toModel = Float.Model.pack
      (roundWithAccuracy Format.binary64 (.positive * .positive) (1 <<< 53 * 10 ^ e) (-53 + 0)
        .exact) := by
  have hslow : ¬(1 < 2 ^ 53 ∧ e ≤ 22) := by omega
  have hlarge : ¬(e : Int) > 2 ^ 11 := by omega
  have hsmall : ¬(e : Int) < -((2 ^ 11 : Int) + (Nat.log2 1 : Nat)) := by omega
  rw [Json.Numeral.powerOfTen, Float.ofScientific, dif_neg hslow]
  change Float.Model.pack (UnpackedFloat.ofScientific Format.binary64 1 (e : Int)) = _
  rw [UnpackedFloat.ofScientific, dif_neg (by decide), if_neg hlarge, if_neg hsmall,
    if_pos (Int.natCast_nonneg e)]
  rfl

/-- The powers of ten by which a number is divided are not too small. -/
theorem full_powerOfTen {e : Nat} (h₁ : 1 ≤ e) (h₂ : e ≤ 308) :
    Full (-51) 971 (Json.Numeral.powerOfTen e).toModel.unpack := by
  rcases Nat.lt_or_ge 22 e with hlarge | hsmall
  · rcases Nat.lt_or_ge e 308 with hmiddle | hlast
    · -- the power is exact before it is rounded, and one more bit still fits
      have hpow : 10 ^ 1 ≤ 10 ^ e := Nat.pow_le_pow_right (by decide) h₁
      have hne : 1 <<< 53 * 10 ^ e ≠ 0 := by omega
      have hlow : 54 ≤ (1 <<< 53 * 10 ^ e).log2 := (Nat.le_log2 hne).2 (by omega)
      have hhigh : (1 <<< 53 * 10 ^ e).log2 < 1076 := by
        have hmost : (1 <<< 53 * 10 ^ 307).log2 < 1076 := by decide +kernel
        exact Nat.lt_of_le_of_lt (log2_mul_pow_le _ (Nat.le_of_lt_succ hmiddle)) hmost
      rw [powerOfTen_eq_round hlarge h₂]
      have hround : Full _ _ (roundWithAccuracy Format.binary64 (.positive * .positive)
          (1 <<< 53 * 10 ^ e) (-53 + 0) .exact) :=
        full_round (t := (1 <<< 53 * 10 ^ e).log2 - 105) (by omega) (by rw [totalExponent]; omega)
          (by omega) _ _
      exact (hround.mono (by omega) (by omega)).unpack_pack (by omega) (by omega)
    · obtain rfl : e = 308 := by omega
      decide +kernel
  · have hall : ∀ e < 22, Full (-51) 971 (Json.Numeral.powerOfTen (e + 1)).toModel.unpack := by
      decide +kernel
    obtain ⟨e, rfl⟩ : ∃ d, e = d + 1 := ⟨e - 1, by omega⟩
    exact hall e (by omega)

theorem isFinite_powerOfTen {e : Nat} (he : e ≤ 308) :
    (Json.Numeral.powerOfTen e).isFinite = true := by
  rcases Nat.eq_zero_or_pos e with rfl | hpos
  · decide +kernel
  · exact (full_powerOfTen hpos he).isFinite

theorem within_ofNat {n : Nat} (hn : n < 2 ^ 53) :
    Within 1 (UnpackedFloat.ofNat Format.binary64 n) := by
  rcases Nat.eq_zero_or_pos n with rfl | hpos
  · trivial
  · have hcompare : compare (n : Int) 0 = .gt := Int.compare_eq_gt.2 (by omega)
    have hlog : n.log2 < 53 := (Nat.log2_lt (by omega)).2 hn
    have hshift := log2_shiftLeft_le n ((0 : Int) - max (totalExponent n 0 - 53) (-1074)).toNat
    simp only [UnpackedFloat.ofNat, UnpackedFloat.ofInt, UnpackedFloat.normalize, hcompare,
      UnpackedFloat.round, decreaseExponent, targetExponent_binary64, Int.toNat_natCast]
    refine within_round (k := 0) (by omega) ?_ ?_ _ _
    · rw [totalExponent]
      omega
    · simp only [totalExponent] at hshift ⊢
      omega

theorem isFinite_ofNat {n : Nat} (hn : n < UInt64.size) : (Float.ofNat n).isFinite = true := by
  by_cases hfast : n < 2 ^ 53
  · have hnat : n.toUInt64.toNat = n := by
      rw [Nat.toUInt64, UInt64.toNat_ofNat', Nat.mod_eq_of_lt hn]
    have hone : (1 : Float).toModel.unpack = .finite .positive (2 ^ 52) (-52) (by decide) := rfl
    have hx : Within 1 n.toUInt64.toFloat.toModel.unpack := by
      refine Within.unpack_pack (by omega) (by omega) ?_
      rw [UnpackedFloat.ofUInt64, hnat]
      exact within_ofNat hfast
    have heq : Float.ofNat n = n.toUInt64.toFloat * (1 : Float) := by
      change Float.ofScientific n false 0 = _
      rw [Float.ofScientific, dif_pos ⟨hfast, by decide⟩]
      rfl
    rw [heq]
    change (Float.ofModel (Float.Model.pack (UnpackedFloat.mul _ _ _))).isFinite = true
    rw [hone]
    cases hu : n.toUInt64.toFloat.toModel.unpack with
    | zero => exact isFinite_pack trivial
    | infinity | notANumber =>
      rw [hu] at hx
      cases hx
    | finite s m e hm =>
      have he : e ≤ 1 := by
        rw [hu] at hx
        exact hx
      have hlt : m * 2 ^ 52 < 2 ^ 105 := by
        have := (unpack_bounds hu).1
        omega
      have hlog : (m * 2 ^ 52).log2 < 105 := (Nat.log2_lt (by omega)).2 hlt
      refine isFinite_pack_round (by omega) ?_ _ _
      rw [totalExponent]
      omega
  · have heq : Float.ofNat n = Float.ofModel (Float.Model.pack
        (roundWithAccuracy Format.binary64 (.positive * .positive) (n <<< 53 * 1) (-53 + 0)
          .exact)) := by
      change Float.ofScientific n false 0 = _
      rw [Float.ofScientific, dif_neg (by omega)]
      change Float.ofModel (Float.Model.pack (UnpackedFloat.ofScientific Format.binary64 n 0)) = _
      have hsmall : ¬(0 : Int) < -((2 ^ 11 : Int) + (n.log2 : Nat)) := by omega
      rw [UnpackedFloat.ofScientific, dif_neg (by omega), if_neg (by decide), if_neg hsmall,
        if_pos (by decide)]
      rfl
    rw [heq]
    have hlog : n.log2 < 64 := (Nat.log2_lt (by omega)).2 hn
    have hshift := log2_shiftLeft_le n 53
    refine isFinite_pack_round (by omega) ?_ _ _
    rw [totalExponent, Nat.mul_one]
    omega

theorem beq_self (hx : x.isFinite = true) : (x == x) = true := by
  have h := within_unpack hx
  change (x.toModel.unpack.compare x.toModel.unpack == some .eq) = true
  cases hu : x.toModel.unpack with
  | zero => rfl
  | finite s m e hm =>
    have hcompare : (compare e e).then (compare m m) = .eq := by
      rw [Int.compare_eq_eq.2 rfl, Nat.compare_eq_eq.2 rfl]
      rfl
    cases s with
    | negative =>
      change (some ((compare e e).then (compare m m)).swap == some .eq) = true
      rw [hcompare]
      rfl
    | positive =>
      change (some ((compare e e).then (compare m m)) == some .eq) = true
      rw [hcompare]
      rfl
  | infinity | notANumber =>
    rw [hu] at h
    cases h

theorem isFinite_of_unit (h₀ : 0 ≤ x) (h₁ : x ≤ 1) : x.isFinite = true := by
  have hzero : (0 : Float).toModel.unpack = .zero .positive := rfl
  have hone : (1 : Float).toModel.unpack = .finite .positive (2 ^ 52) (-52) (by decide) := rfl
  have hle₀ : ((0 : Float).toModel.unpack.le x.toModel.unpack) = true := of_decide_eq_true h₀
  have hle₁ : (x.toModel.unpack.le (1 : Float).toModel.unpack) = true := of_decide_eq_true h₁
  change x.toModel.unpack.isFinite = true
  rw [hzero] at hle₀
  rw [hone] at hle₁
  cases hu : x.toModel.unpack with
  | zero | finite => rfl
  | notANumber =>
    rw [hu] at hle₀
    cases hle₀
  | infinity s =>
    rw [hu] at hle₀ hle₁
    cases s
    · cases hle₀
    · cases hle₁

/-! ## Numbers of texts -/

open Json

theorem gather_lt {n : Nat} (hn : n < UInt64.size) (ds : List Nat) :
    (Numeral.gather n ds).1 < UInt64.size := by
  induction ds generalizing n with
  | nil => exact hn
  | cons d ds ih =>
    rw [Numeral.gather]
    split
    · rename_i h
      exact ih h
    · exact hn

/-- Scaling keeps a number finite, or fails. -/
theorem isFinite_scale {fuel : Nat} {e : Int} (hx : x.isFinite = true)
    (h : Numeral.scale fuel x e = some y) : y.isFinite = true := by
  induction fuel generalizing x e with
  | zero =>
    cases h
    exact hx
  | succ fuel ih =>
    simp only [Numeral.scale] at h
    split at h
    · rename_i he
      split at h
      · split at h
        · cases h
        · rename_i hinf
          cases h
          exact isFinite_mul hx (isFinite_powerOfTen he) (Bool.eq_false_iff.2 hinf)
      · cases h
        exact isFinite_div hx (full_powerOfTen (by omega) he)
    · split at h
      · cases h
        exact hx
      · split at h
        · cases h
        · exact ih (isFinite_div hx (full_powerOfTen (by omega) (by omega))) h

theorem isFinite_magnitude {n : Numeral} (h : n.magnitude? = some x) : x.isFinite = true := by
  have hsignificand : (Numeral.gather (Numeral.gather 0 n.whole).1 (n.fraction.getD [])).1 <
      UInt64.size := gather_lt (gather_lt (by decide) _) _
  simp only [Numeral.magnitude?] at h
  split at h
  · exact isFinite_scale (isFinite_ofNat hsignificand) h
  · split at h
    · exact isFinite_scale (isFinite_ofNat hsignificand) h
    · split at h
      · cases h
      · cases h
        decide +kernel

theorem natural_lt {n : Numeral} {k : Nat} (h : n.natural? = some k) : k < UInt64.size := by
  simp only [Numeral.natural?] at h
  split at h
  · cases h
    exact gather_lt (by decide) _
  · cases h

end Sentential.Finite
