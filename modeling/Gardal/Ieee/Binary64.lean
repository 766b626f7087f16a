import Gardal.Ieee.Unpacked
/-!
# `Float` as rounded rational arithmetic

`Float` is the `binary64` format packed into 64 bits. Packing loses nothing of a number in canonical form that
is not too large (`unpack_pack`), and what has been unpacked is in canonical form, so the operations on `Float`
round as `Gardal.Ieee.Unpacked` says. `Is x q` says that the float `x` is the number `q`.
-/
namespace Ieee
open Float.Model (Format totalExponent UnpackedFloat)
open Float.Model.UnpackedFloat

/-! ## Packing -/

section
variable {F : Format}

/-- The sign is the first bit. -/
theorem sign_of_packed (s : Sign) (e : BitVec F.exponentBits) (m : BitVec F.mantissaBitsWithoutImplicit) :
    Sign.ofBitVec (unpackSign (packComponents F s e m)) = s := by
  have hsign : unpackSign (packComponents F s e m) = s.toBitVec := by
    ext i hi
    obtain rfl := Nat.lt_one_iff.1 hi
    simp [unpackSign, packComponents, BitVec.getLsbD_append, BitVec.getLsbD_eq_getElem, BitVec.getElem_append]
  rw [hsign]
  cases s <;> rfl

theorem minExponent_eq (F : Format) :
    F.minExponent = 1 - F.exponentBias - F.mantissaBitsWithoutImplicit := by
  have hpow : 1 ≤ 2 ^ (F.exponentBits - 1) := Nat.one_le_two_pow
  unfold Format.minExponent Format.exponentBias Format.mantissaBits
  push_cast [Nat.cast_sub hpow]
  omega

theorem toNat_implicit {n : ℕ} (v : BitVec n) : (1#1 ++ v).toNat = 2 ^ n + v.toNat := by
  rw [BitVec.toNat_append, ← Nat.shiftLeft_add_eq_or_of_lt v.isLt, Nat.shiftLeft_eq]
  simp

/-- What is unpacked is in canonical form. -/
theorem unpack_canonical (b : BitVec F.numBits) : Canonical F (unpack F b) := by
  have hmin := minExponent_eq F
  have hbits : F.mantissaBits = 1 + F.mantissaBitsWithoutImplicit := rfl
  unfold unpack
  simp only
  split_ifs with hmax hm hzero hm
  · trivial
  · trivial
  · trivial
  · have hne : (unpackMantissa b).toNat ≠ 0 := by simpa [BitVec.toNat_eq] using hm
    have hlog : (unpackMantissa b).toNat.log2 < F.mantissaBitsWithoutImplicit :=
      (Nat.log2_lt hne).2 (unpackMantissa b).isLt
    simp only [Canonical, Format.targetExponent, totalExponent, hzero]
    simp
    omega
  · have hpos : 0 < (unpackExponent b).toNat := by
      refine Nat.pos_of_ne_zero fun h => hzero ?_
      simpa [BitVec.toNat_eq] using h
    have hlog : (1#1 ++ unpackMantissa b).toNat.log2 = F.mantissaBitsWithoutImplicit := by
      rw [toNat_implicit]
      have hlt := (unpackMantissa b).isLt
      exact (Nat.log2_eq_iff (by positivity)).2 ⟨by omega, by rw [pow_succ]; omega⟩
    simp only [Canonical, Format.targetExponent, totalExponent, hlog]
    omega

/-- The exponent is not too large to be packed. -/
def Fits (F : Format) : UnpackedFloat → Prop
  | .finite _ _ e _ => e + F.exponentBias + F.mantissaBitsWithoutImplicit + 1 < 2 ^ F.exponentBits
  | _ => True

theorem two_le_two_pow_exponentBits (F : Format) : 2 ≤ 2 ^ F.exponentBits := by
  have he := F.he
  calc 2 = 2 ^ 1 := rfl
    _ ≤ 2 ^ F.exponentBits := Nat.pow_le_pow_right two_pos he

theorem toNat_ofNat_exponent {n : ℕ} (h : n + 1 < 2 ^ F.exponentBits) :
    (BitVec.ofNat F.exponentBits n).toNat = n ∧ BitVec.ofNat F.exponentBits n ≠ -1#_ := by
  have hnat : (BitVec.ofNat F.exponentBits n).toNat = n := by
    rw [BitVec.toNat_ofNat, Nat.mod_eq_of_lt (by omega)]
  refine ⟨hnat, fun h' => ?_⟩
  rw [h', BitVec.neg_one_eq_allOnes, BitVec.toNat_allOnes] at hnat
  omega

/-- **Packing loses nothing** of a number in canonical form that is not too large. -/
theorem unpack_pack {u : UnpackedFloat} (hfin : u.isFinite = true) (hc : Canonical F u) (hfits : Fits F u) :
    unpack F (pack F u) = u := by
  have htwo := two_le_two_pow_exponentBits F
  cases u with
  | notANumber | infinity => cases hfin
  | zero s =>
    simp [unpack, pack, packedZero, Nat.pos_iff_ne_zero.1 F.he]
  | finite s m e hm =>
    have hmin := minExponent_eq F
    have hbits : F.mantissaBits = 1 + F.mantissaBitsWithoutImplicit := rfl
    have hc' : F.targetExponent (totalExponent m e) = e := hc
    unfold Format.targetExponent totalExponent at hc'
    have hfits' : e + F.exponentBias + F.mantissaBitsWithoutImplicit + 1 < ((2 ^ F.exponentBits : ℕ) : ℤ) := by
      push_cast
      exact hfits
    obtain ⟨n, hn⟩ : ∃ n : ℕ, e + F.exponentBias + F.mantissaBitsWithoutImplicit = n :=
      Int.eq_ofNat_of_zero_le (by omega)
    have hsmall : n + 1 < 2 ^ F.exponentBits := by omega
    obtain ⟨hnat, hmax⟩ := toNat_ofNat_exponent hsmall
    have hlt : m < 2 ^ (F.mantissaBitsWithoutImplicit + 1) := (Nat.log2_lt hm.ne').1 (by omega)
    simp only [pack, hn, Int.toNat_natCast, if_neg (not_le.2 hsmall)]
    split
    · -- A mantissa with its first bit left out.
      rename_i hlong
      have hlow : 2 ^ F.mantissaBitsWithoutImplicit ≤ m := (Nat.le_log2 hm.ne').1 (by omega)
      have hzero : BitVec.ofNat F.exponentBits n ≠ 0#_ := by
        intro h
        rw [h, BitVec.toNat_ofNat, Nat.zero_mod] at hnat
        omega
      have hmant : (1#1 ++ BitVec.ofNat F.mantissaBitsWithoutImplicit m).toNat = m := by
        rw [pow_succ] at hlt
        rw [toNat_implicit, BitVec.toNat_ofNat, Nat.mod_eq_sub_mod hlow, Nat.mod_eq_of_lt] <;> omega
      simp only [unpack, unpackExponent_packComponents, unpackMantissa_packComponents, sign_of_packed, hmax,
        hzero, if_false, hnat, hmant]
      congr 1
      omega
    · rename_i hshort
      have hlow : m < 2 ^ F.mantissaBitsWithoutImplicit := (Nat.log2_lt hm.ne').1 (by omega)
      have hmant : (BitVec.ofNat F.mantissaBitsWithoutImplicit m).toNat = m := by
        rw [BitVec.toNat_ofNat, Nat.mod_eq_of_lt hlow]
      have hne : BitVec.ofNat F.mantissaBitsWithoutImplicit m ≠ 0#_ := by
        intro h
        rw [h, BitVec.toNat_ofNat, Nat.zero_mod] at hmant
        omega
      obtain ⟨-, hmax0⟩ := toNat_ofNat_exponent (F := F) (n := 0) (by omega)
      simp only [unpack, unpackExponent_packComponents, unpackMantissa_packComponents, sign_of_packed, hmax0,
        if_false, if_true, dif_neg hne, hmant]
      congr 1
      simp
      omega

end

/-! ## `Float` -/

/-- Rounding to a double. -/
abbrev fl (q : ℚ) : ℚ := rnd .binary64 q

/-- A double, as a number. -/
abbrev Double (q : ℚ) : Prop := Representable .binary64 q

/-- The number a float stands for. -/
def toRat (x : Float) : ℚ := value x.toModel.unpack

/-- The float `x` is the number `q`. -/
structure Is (x : Float) (q : ℚ) : Prop where
  finite : x.isFinite = true
  toRat : toRat x = q

section
variable {x y : Float} {p q : ℚ}

theorem toModel_canonical (x : Float) : Canonical .binary64 x.toModel.unpack := unpack_canonical _

theorem is_toRat (h : x.isFinite = true) : Is x (toRat x) := ⟨h, rfl⟩

theorem Is.double (h : Is x q) : Double q := h.toRat ▸ (toModel_canonical x).representable

theorem fits_of_lt {u : UnpackedFloat} (hc : Canonical .binary64 u) (h : |value u| < 2 ^ 1024) :
    Fits .binary64 u := by
  cases u with
  | finite s m e hm =>
    have hc' : max ((m.log2 : ℤ) + 1 + e - 53) (-1074) = e := hc
    by_contra hfits
    have hexp : 972 ≤ e := by
      have hfits' : ¬ e + 1023 + 52 + 1 < 2048 := hfits
      omega
    have hlog : m.log2 = 52 := by omega
    have hm' : (2 : ℚ) ^ 52 ≤ m := by exact_mod_cast hlog ▸ Nat.log2_self_le hm.ne'
    have hpow : (2 : ℚ) ^ 972 ≤ 2 ^ e := by exact_mod_cast two_zpow_le hexp
    have hbig : (2 : ℚ) ^ 1024 ≤ m * 2 ^ e := by
      calc (2 : ℚ) ^ 1024 = 2 ^ 52 * 2 ^ 972 := (pow_add 2 52 972)
        _ ≤ m * 2 ^ e := mul_le_mul hm' hpow (by positivity) (Nat.cast_nonneg m)
    have habs : |value (.finite s m e hm)| = m * 2 ^ e := by
      have hpos : (0 : ℚ) ≤ m * 2 ^ e := mul_nonneg (Nat.cast_nonneg m) (two_zpow_pos e).le
      cases s <;> simp only [value, sgn, neg_one_mul, one_mul, abs_neg, abs_of_nonneg hpos]
    rw [habs] at h
    exact absurd h (not_lt.2 hbig)
  | _ => trivial

theorem unpack_eq_of_rounds {u : UnpackedFloat} (h : Rounds .binary64 q u) (hq : |fl q| < 2 ^ 1024)
    (hx : x.toModel.unpack = unpack .binary64 (pack .binary64 u)) : x.toModel.unpack = u := by
  rw [hx]
  exact unpack_pack h.finite h.canonical (fits_of_lt h.canonical (by rw [h.value]; exact hq))

theorem Is.of_rounds {u : UnpackedFloat} (h : Rounds .binary64 q u) (hq : |fl q| < 2 ^ 1024)
    (hx : x.toModel.unpack = unpack .binary64 (pack .binary64 u)) : Is x (fl q) := by
  have hu := unpack_eq_of_rounds h hq hx
  refine ⟨?_, ?_⟩
  · show x.toModel.unpack.isFinite = true
    rw [hu, h.finite]
  · rw [Ieee.toRat, hu, h.value]

theorem Is.add (hx : Is x p) (hy : Is y q) (h : |fl (p + q)| < 2 ^ 1024) : Is (x + y) (fl (p + q)) := by
  have hround := add_rounds hx.finite hy.finite (toModel_canonical x) (toModel_canonical y)
  rw [show value x.toModel.unpack = p from hx.toRat, show value y.toModel.unpack = q from hy.toRat] at hround
  exact .of_rounds hround h rfl

theorem Is.sub (hx : Is x p) (hy : Is y q) (h : |fl (p - q)| < 2 ^ 1024) : Is (x - y) (fl (p - q)) := by
  have hround := sub_rounds hx.finite hy.finite (toModel_canonical x) (toModel_canonical y)
  rw [show value x.toModel.unpack = p from hx.toRat, show value y.toModel.unpack = q from hy.toRat] at hround
  exact .of_rounds hround h rfl

theorem Is.mul (hx : Is x p) (hy : Is y q) (h : |fl (p * q)| < 2 ^ 1024) : Is (x * y) (fl (p * q)) := by
  have hround := mul_rounds hx.finite hy.finite (toModel_canonical x) (toModel_canonical y)
  rw [show value x.toModel.unpack = p from hx.toRat, show value y.toModel.unpack = q from hy.toRat] at hround
  exact .of_rounds hround h rfl

theorem Is.div (hx : Is x p) (hy : Is y q) (hq : q ≠ 0) (h : |fl (p / q)| < 2 ^ 1024) :
    Is (x / y) (fl (p / q)) := by
  have hyq : value y.toModel.unpack = q := hy.toRat
  have hround := div_rounds (F := .binary64) hx.finite hy.finite (by rwa [hyq])
  rw [show value x.toModel.unpack = p from hx.toRat, hyq] at hround
  exact .of_rounds hround h rfl

theorem unpack_fits (b : BitVec Format.binary64.numBits) : Fits .binary64 (unpack .binary64 b) := by
  unfold unpack
  simp only
  split_ifs with hmax hm hzero hm
  · trivial
  · trivial
  · trivial
  · rw [hzero]
    show (0 : ℤ) - (1023 + 52) + 1 + 1023 + 52 + 1 < 2 ^ 11
    norm_num
  · have hlt : (@unpackExponent .binary64 b).toNat < 2048 := (unpackExponent b).isLt
    have hne : (@unpackExponent .binary64 b).toNat ≠ 2047 := by
      intro h
      exact hmax (BitVec.eq_of_toNat_eq h)
    show ((@unpackExponent .binary64 b).toNat : ℤ) - (1023 + 52) + 1023 + 52 + 1 < 2 ^ 11
    omega

theorem Is.neg (hx : Is x q) : Is (-x) (-q) := by
  have hfin : x.toModel.unpack.neg.isFinite = true := (isFinite_neg _).trans hx.finite
  have hfits : Fits .binary64 x.toModel.unpack.neg := by
    have h := unpack_fits x.toModel.toBits.toBitVec
    change Fits .binary64 x.toModel.unpack at h
    cases hu : x.toModel.unpack with
    | finite s m e hm =>
      rw [hu] at h
      exact h
    | _ => trivial
  have hu : (-x).toModel.unpack = x.toModel.unpack.neg :=
    unpack_pack hfin (toModel_canonical x).neg hfits
  refine ⟨?_, ?_⟩
  · show (-x).toModel.unpack.isFinite = true
    rw [hu, hfin]
  · rw [Ieee.toRat, hu, value_neg, show value x.toModel.unpack = q from hx.toRat]

theorem Is.lt_iff (hx : Is x p) (hy : Is y q) : x < y ↔ p < q := by
  have h := Ieee.lt_iff hx.finite hy.finite (toModel_canonical x) (toModel_canonical y)
  rw [show value x.toModel.unpack = p from hx.toRat, show value y.toModel.unpack = q from hy.toRat] at h
  rw [← h]
  exact decide_eq_true_iff

theorem Is.le_iff (hx : Is x p) (hy : Is y q) : x ≤ y ↔ p ≤ q := by
  have h := Ieee.le_iff hx.finite hy.finite (toModel_canonical x) (toModel_canonical y)
  rw [show value x.toModel.unpack = p from hx.toRat, show value y.toModel.unpack = q from hy.toRat] at h
  rw [← h]
  exact decide_eq_true_iff

/-- Both zeros are equal. -/
theorem Is.beq_iff (hx : Is x p) (hy : Is y q) : (x == y) = true ↔ p = q := by
  have h := Ieee.beq_iff hx.finite hy.finite (toModel_canonical x) (toModel_canonical y)
  rwa [show value x.toModel.unpack = p from hx.toRat, show value y.toModel.unpack = q from hy.toRat] at h

theorem Is.unique (hx : Is x p) (hx' : Is x q) : p = q := hx.toRat.symm.trans hx'.toRat

/-- A number that is a double already. -/
theorem fl_of_double (h : Double q) : fl q = q := rnd_of_representable h

/-! ## Bounds -/

theorem double_two_pow (n : ℕ) : Double (2 ^ n) :=
  ⟨1, n, by decide, (show (-1074 : ℤ) ≤ 0 by decide).trans (Int.natCast_nonneg n), by simp⟩

theorem double_inv_two_pow {n : ℕ} (h : n ≤ 1074) : Double (1 / 2 ^ n) := by
  refine ⟨1, -n, by decide, ?_, by simp⟩
  show -1074 ≤ -(n : ℤ)
  omega

theorem abs_fl_le {c : ℚ} (hc : Double c) (h : |q| ≤ c) : |fl q| ≤ c := by
  obtain ⟨hlo, hhi⟩ := abs_le.1 h
  exact abs_le.2 ⟨le_rnd hc.neg hlo, rnd_le hc hhi⟩

theorem fl_nonneg (h : 0 ≤ q) : 0 ≤ fl q := le_rnd .zero h

theorem fl_nonpos (h : q ≤ 0) : fl q ≤ 0 := rnd_le .zero h

/-- What is far from the largest double is not rounded up to infinity. -/
theorem abs_fl_lt {n : ℕ} (hn : n < 1024) (h : |q| ≤ 2 ^ n) : |fl q| < 2 ^ 1024 :=
  (abs_fl_le (double_two_pow n) h).trans_lt (pow_lt_pow_right₀ one_lt_two hn)

theorem le_ulpExp {n : ℕ} (h : 2 ^ n ≤ q) : (n : ℤ) - 52 ≤ ulpExp .binary64 q := by
  have hpos : 0 < q := lt_of_lt_of_le (by positivity) h
  have hlog : (n : ℤ) ≤ Int.log 2 q := (Int.zpow_le_iff_le_log one_lt_two hpos).1 (by exact_mod_cast h)
  show (n : ℤ) - 52 ≤ max (Int.log 2 |q| + 1 - 53) (-1074)
  rw [abs_of_pos hpos]
  omega

/-- **Less than half of the last place is lost.** -/
theorem fl_absorb {n : ℕ} (hp : Double p) (hlo : 2 ^ n ≤ p) (hle : p ≤ q) (hlt : q < p + 2 ^ n / 2 ^ 53) :
    fl q = p := by
  have hpos : 0 < p := lt_of_lt_of_le (by positivity) hlo
  have hu := two_zpow_pos (ulpExp .binary64 q)
  have hhalf : (2 : ℚ) ^ n / 2 ^ 53 = 2 ^ ((n : ℤ) - 52) / 2 := by
    rw [zpow_sub₀ two_ne_zero, zpow_natCast, div_div]
    norm_num
  rw [hhalf] at hlt
  rcases hp.cases q (hpos.trans_le hle).ne' with ⟨N, hN⟩ | ⟨k, hpk, hkq⟩
  · have hulp : (2 : ℚ) ^ ((n : ℤ) - 52) ≤ 2 ^ ulpExp .binary64 q := two_zpow_le (le_ulpExp (hlo.trans hle))
    have hlo' : (N : ℚ) ≤ q / 2 ^ ulpExp .binary64 q := by
      rw [le_div_iff₀ hu, ← hN]
      exact hle
    have hhi' : q / 2 ^ ulpExp .binary64 q < N + 1 / 2 := by
      rw [div_lt_iff₀ hu, add_mul, ← hN]
      linarith
    have hfloor : ⌊q / 2 ^ ulpExp .binary64 q⌋ = N := Int.floor_eq_iff.2 ⟨hlo', by linarith⟩
    have hnear : nearest (q / 2 ^ ulpExp .binary64 q) = N := by
      rw [nearest, hfloor]
      exact if_pos (by linarith)
    show (nearest (q / 2 ^ ulpExp .binary64 q) : ℚ) * 2 ^ ulpExp .binary64 q = p
    rw [hnear, hN]
  · -- A power of two between `p` and `q` would be a last place of `p` away from it.
    exfalso
    have hmono : ulpExp .binary64 p ≤ ulpExp .binary64 q := by
      have hlog : Int.log 2 p ≤ Int.log 2 q := Int.log_mono_right hpos hle
      show max (Int.log 2 |p| + 1 - 53) (-1074) ≤ max (Int.log 2 |q| + 1 - 53) (-1074)
      rw [abs_of_pos hpos, abs_of_pos (hpos.trans_le hle)]
      omega
    rw [abs_of_pos hpos] at hpk
    rw [abs_of_pos (hpos.trans_le hle)] at hkq
    obtain ⟨N, hN⟩ : ∃ N : ℤ, p = N * 2 ^ ulpExp .binary64 p := by
      refine (hp.cases p hpos.ne').resolve_right ?_
      rintro ⟨j, hj, hj'⟩
      exact absurd hj (not_lt.2 hj')
    obtain ⟨d, hd⟩ := Int.eq_ofNat_of_zero_le (sub_nonneg.2 hmono)
    have hsplit := two_zpow_sub_mul (ulpExp .binary64 p) (ulpExp .binary64 q)
    rw [hd, zpow_natCast] at hsplit
    have hup := two_zpow_pos (ulpExp .binary64 p)
    have hstep : (N : ℚ) + 1 ≤ k * 2 ^ d := by
      have hNk : (N : ℚ) < k * 2 ^ d := by
        refine lt_of_mul_lt_mul_right ?_ hup.le
        rw [← hN, mul_assoc, hsplit]
        exact hpk
      exact_mod_cast Int.add_one_le_iff.2 (by exact_mod_cast hNk : N < k * 2 ^ d)
    have hgap : p + 2 ^ ulpExp .binary64 p ≤ k * 2 ^ ulpExp .binary64 q := by
      calc p + 2 ^ ulpExp .binary64 p = (N + 1) * 2 ^ ulpExp .binary64 p := by rw [add_mul, ← hN, one_mul]
        _ ≤ k * 2 ^ d * 2 ^ ulpExp .binary64 p := mul_le_mul_of_nonneg_right hstep hup.le
        _ = k * 2 ^ ulpExp .binary64 q := by rw [mul_assoc, hsplit]
    have hulp : (2 : ℚ) ^ ((n : ℤ) - 52) ≤ 2 ^ ulpExp .binary64 p := two_zpow_le (le_ulpExp hlo)
    have hplace := two_zpow_pos ((n : ℤ) - 52)
    linarith

/-- A range that little is added to is not left. -/
theorem abs_fl_le_two_pow {n : ℕ} (h : |q| < 2 ^ n + 2 ^ n / 2 ^ 53) : |fl q| ≤ 2 ^ n := by
  rcases le_total |q| (2 ^ n) with hle | hge
  · exact abs_fl_le (double_two_pow n) hle
  · rcases abs_cases q with ⟨habs, -⟩ | ⟨habs, -⟩ <;> rw [habs] at h hge
    · rw [fl_absorb (double_two_pow n) le_rfl hge h, abs_of_pos (by positivity)]
    · have hneg := fl_absorb (double_two_pow n) le_rfl hge h
      rw [fl, rnd_neg] at hneg
      rw [← abs_neg, hneg, abs_of_pos (by positivity)]

theorem abs_fl_sub_le (q : ℚ) : |fl q - q| ≤ |q| / 2 ^ 53 + 1 / 2 ^ 1075 := by
  have h := abs_rnd_sub_le (F := .binary64) q
  have hmin : (2 : ℚ) ^ (Format.binary64.minExponent - 1) = 1 / 2 ^ 1075 := by
    show (2 : ℚ) ^ (-1075 : ℤ) = _
    rw [zpow_neg, one_div]
    rfl
  rwa [hmin] at h

/-! ## Bits -/

theorem packed_components (b : BitVec Format.binary64.numBits) :
    packComponents .binary64 (Sign.ofBitVec (unpackSign b)) (@unpackExponent .binary64 b)
      (@unpackMantissa .binary64 b) = b := by
  have hsign : (Sign.ofBitVec (@unpackSign .binary64 b)).toBitVec = @unpackSign .binary64 b := by
    unfold Sign.ofBitVec
    split
    · rename_i h
      rw [h]
      rfl
    · rename_i h
      rw [(BitVec.eq_zero_or_eq_one (@unpackSign .binary64 b)).resolve_left h]
      rfl
  rw [packComponents, hsign]
  show ((b.extractLsb' 63 1 ++ b.extractLsb' 52 11) ++ b.extractLsb' 0 52 : BitVec (1 + 11 + 52)) = b
  ext i hi
  rw [BitVec.getElem_append]
  split
  · rw [BitVec.getElem_extractLsb', zero_add, BitVec.getLsbD_eq_getElem]
  · rw [BitVec.getElem_append]
    split
    · rw [BitVec.getElem_extractLsb', BitVec.getLsbD_eq_getElem (show 52 + (i - 52) < 64 by omega)]
      congr 1
      omega
    · rw [BitVec.getElem_extractLsb', BitVec.getLsbD_eq_getElem (show 63 + (i - 52 - 11) < 64 by omega)]
      congr 1
      omega

/-- What has been unpacked packs to what it was. -/
theorem pack_unpack {b : BitVec Format.binary64.numBits} (hb : Format.binary64.Valid b) :
    pack .binary64 (unpack .binary64 b) = b := by
  have hb' := packed_components b
  have hv := (@unpackMantissa .binary64 b).isLt
  have hexp : (@unpackExponent .binary64 b).toNat < 2048 := (unpackExponent b).isLt
  unfold unpack
  simp only
  split_ifs with hmax hm hzero hm
  · rw [hmax, hm] at hb'
    exact hb'
  · exact (hb.eq_packedNaN hmax hm).symm
  · rw [hzero, hm] at hb'
    exact hb'
  · have hne : (@unpackMantissa .binary64 b).toNat ≠ 0 := by simpa [BitVec.toNat_eq] using hm
    have hlog : (@unpackMantissa .binary64 b).toNat.log2 < 52 := (Nat.log2_lt hne).2 hv
    have hbiased : ((0 : ℤ) - (1023 + 52) + 1 + 1023 + 52).toNat = 1 := rfl
    rw [hzero] at hb' ⊢
    simp only [pack]
    rw [if_neg (by decide), if_neg (by show ¬ _ + 1 = 53; omega), BitVec.ofNat_toNat, BitVec.setWidth_eq]
    exact hb'
  · have hpos : 0 < (@unpackExponent .binary64 b).toNat := by
      refine Nat.pos_of_ne_zero fun h => hzero ?_
      simpa [BitVec.toNat_eq] using h
    have hne : (@unpackExponent .binary64 b).toNat ≠ 2047 := fun h => hmax (BitVec.eq_of_toNat_eq h)
    have hlow : (@unpackMantissa .binary64 b).toNat < 2 ^ 52 := hv
    have hlog : (1#1 ++ @unpackMantissa .binary64 b).toNat.log2 = 52 := by
      rw [toNat_implicit]
      show (2 ^ 52 + (@unpackMantissa .binary64 b).toNat).log2 = 52
      exact (Nat.log2_eq_iff (by positivity)).2 ⟨by omega, by omega⟩
    have hbiased : (((@unpackExponent .binary64 b).toNat : ℤ) - (1023 + 52) + 1023 + 52).toNat =
        (@unpackExponent .binary64 b).toNat := by omega
    have hmant : BitVec.ofNat 52 (1#1 ++ @unpackMantissa .binary64 b).toNat = unpackMantissa b := by
      rw [toNat_implicit]
      show BitVec.ofNat 52 (2 ^ 52 + (@unpackMantissa .binary64 b).toNat) = _
      refine BitVec.eq_of_toNat_eq ?_
      rw [BitVec.toNat_ofNat, Nat.add_mod_left, Nat.mod_eq_of_lt hlow]
    have hexpo : BitVec.ofNat 11 (((@unpackExponent .binary64 b).toNat : ℤ) - (1023 + 52) + 1023 + 52).toNat =
        @unpackExponent .binary64 b := by
      rw [hbiased, BitVec.ofNat_toNat]
      exact BitVec.setWidth_eq _
    simp only [pack]
    rw [if_neg (by show ¬ 2048 ≤ _ + 1; omega), if_pos (by show _ + 1 = 53; omega)]
    refine Eq.trans ?_ hb'
    congr 1

/-- Bits and back. -/
theorem ofBits_toBits (x : Float) : Float.ofBits x.toBits = x := by
  obtain ⟨⟨bits, hvalid⟩⟩ := x
  have h := pack_unpack hvalid
  show Float.ofModel (.pack (unpack .binary64 bits.toBitVec)) = _
  unfold Float.Model.pack
  simp only [h]

/-! ## Smaller and larger of two -/

/-- `f64::min`: the other one if one of the two is not a number. -/
def minNum (a b : Float) : Float := if a.isNaN then b else if b.isNaN then a else if a ≤ b then a else b

/-- `f64::max`. -/
def maxNum (a b : Float) : Float := if a.isNaN then b else if b.isNaN then a else if b ≤ a then a else b

theorem Is.not_nan (h : Is x q) : x.isNaN = false := by
  have hfin : x.toModel.unpack.isFinite = true := h.finite
  show x.toModel.unpack.isNaN = false
  cases hu : x.toModel.unpack with
  | notANumber =>
    rw [hu] at hfin
    cases hfin
  | _ => rfl

theorem Is.minNum (hx : Is x p) (hy : Is y q) : Is (minNum x y) (min p q) := by
  unfold Ieee.minNum
  rw [hx.not_nan, hy.not_nan]
  simp only [Bool.false_eq_true, if_false]
  split
  · rename_i h
    rwa [min_eq_left ((hx.le_iff hy).1 h)]
  · rename_i h
    rwa [min_eq_right (not_le.1 fun hle => h ((hx.le_iff hy).2 hle)).le]

theorem Is.maxNum (hx : Is x p) (hy : Is y q) : Is (maxNum x y) (max p q) := by
  unfold Ieee.maxNum
  rw [hx.not_nan, hy.not_nan]
  simp only [Bool.false_eq_true, if_false]
  split
  · rename_i h
    rwa [max_eq_left ((hy.le_iff hx).1 h)]
  · rename_i h
    rwa [max_eq_right (not_le.1 fun hle => h ((hy.le_iff hx).2 hle)).le]

/-! ## Integers -/

theorem double_natCast {n : ℕ} (h : n < 2 ^ 53) : Double n :=
  ⟨n, 0, by rw [Nat.abs_cast]; exact_mod_cast h, by decide, by simp⟩

/-- `as f64` is exact on 32 bits. -/
theorem is_toFloat (n : UInt32) : Is n.toFloat n.toNat := by
  have hlt : n.toNat < 2 ^ 53 := n.toNat_lt.trans (by norm_num)
  have hround := normalize_rounds (F := .binary64) n.toNat 0 .positive
  have hn : ((n.toNat : ℤ) : ℚ) * 2 ^ (0 : ℤ) = n.toNat := by simp
  rw [hn] at hround
  have hfl := fl_of_double (double_natCast hlt)
  have his : Is n.toFloat (fl n.toNat) := .of_rounds hround ?_ rfl
  · rwa [hfl] at his
  · rw [hfl, Nat.abs_cast]
    have hlt' : (n.toNat : ℚ) < 2 ^ 53 := by exact_mod_cast hlt
    exact hlt'.trans (pow_lt_pow_right₀ one_lt_two (by norm_num))

end
end Ieee
