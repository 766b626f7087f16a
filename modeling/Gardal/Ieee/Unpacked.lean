import Mathlib
import Gardal.Ieee.Round
/-!
# The operations of `Float.Model` round to nearest

`Float.Model` computes with a mantissa and two residual bits. What they say of the number that is meant is
`Describes`; shifting keeps it, and so `roundWithAccuracy` gives what `rnd` does (`roundWithAccuracy_rounds`).
The four operations then do, on numbers that are finite and in canonical form.
-/
namespace Ieee
open Float.Model (Format totalExponent UnpackedFloat)
open Float.Model.UnpackedFloat

/-- What an accuracy says of the part that is cut off. -/
def Describes : Accuracy → ℚ → Prop
  | .exact, f => f = 0
  | .inexact .lt, f => 0 < f ∧ f < 1 / 2
  | .inexact .eq, f => f = 1 / 2
  | .inexact .gt, f => 1 / 2 < f ∧ f < 1

section
variable {acc : Accuracy} {em : ExtendedMantissa} {x f : ℚ} {m : ℕ}

theorem Describes.nonneg (h : Describes acc f) : 0 ≤ f := by
  rcases acc with _ | _ | _ | _ <;> simp only [Describes] at h <;> linarith

theorem Describes.lt_one (h : Describes acc f) : f < 1 := by
  rcases acc with _ | _ | _ | _ <;> simp only [Describes] at h <;> linarith

theorem Describes.roundToNearestEven (h : Describes acc (x - m)) :
    (acc.roundToNearestEven m : ℤ) = nearest x := by
  have hfloor : ⌊x⌋ = m := by
    rw [Int.floor_eq_iff]
    push_cast
    constructor <;> linarith [h.nonneg, h.lt_one]
  unfold nearest
  rw [hfloor, Int.cast_natCast]
  rcases acc with _ | _ | _ | _ <;> simp only [Describes] at h <;>
    simp only [Accuracy.roundToNearestEven]
  · rw [if_pos (by linarith)]
  · rw [if_pos h.2]
  · rw [if_neg (by linarith), if_neg (by linarith)]
    norm_cast
  · rw [if_neg (by linarith), if_pos h.1]
    norm_cast

theorem accuracy_ofMantissaAndAccuracy (m : ℕ) (acc : Accuracy) :
    (ExtendedMantissa.ofMantissaAndAccuracy m acc).accuracy = acc ∧
      (ExtendedMantissa.ofMantissaAndAccuracy m acc).mantissa = m := by
  rcases acc with _ | _ | _ | _ <;> exact ⟨rfl, rfl⟩

theorem describes_shiftRightOne (h : Describes em.accuracy (x - em.mantissa)) :
    Describes em.shiftRightOne.accuracy (x / 2 - em.shiftRightOne.mantissa) := by
  obtain ⟨m, r, s⟩ := em
  have hdiv : (m : ℚ) = 2 * (m / 2 : ℕ) + (m % 2 : ℕ) := by exact_mod_cast (Nat.div_add_mod m 2).symm
  have hbit : ((1 : ℕ) != 0) = true := rfl
  have hf := h.nonneg
  have hf1 := h.lt_one
  rcases Nat.mod_two_eq_zero_or_one m with hm | hm <;> rw [hm] at hdiv <;> push_cast at hdiv <;>
    cases r <;> cases s <;>
    simp only [ExtendedMantissa.accuracy, ExtendedMantissa.shiftRightOne, Describes, hm, hbit,
      bne_self_eq_false, Bool.or_false, Bool.or_true, Bool.or_self] at h hf hf1 ⊢ <;>
    first | linarith | constructor <;> linarith

theorem describes_shiftRight (n : ℕ) (h : Describes em.accuracy (x - em.mantissa)) :
    Describes (em >>> n).accuracy (x / 2 ^ n - (em >>> n).mantissa) := by
  induction n with
  | zero => simpa [HShiftRight.hShiftRight, Nat.repeat] using h
  | succ n ih =>
    have hone := describes_shiftRightOne ih
    rwa [div_div, ← pow_succ] at hone

end

/-! ## Values -/

def sgn : Sign → ℚ
  | .negative => -1
  | .positive => 1

/-- The number an unpacked float stands for. -/
def value : UnpackedFloat → ℚ
  | .finite s m e _ => sgn s * (m * 2 ^ e)
  | _ => 0

/-- The exponent is the one the format has for a number of that size. -/
def Canonical (F : Format) : UnpackedFloat → Prop
  | .finite _ m e _ => F.targetExponent (totalExponent m e) = e
  | _ => True

/-- `u` is `q`, rounded. -/
structure Rounds (F : Format) (q : ℚ) (u : UnpackedFloat) : Prop where
  finite : u.isFinite = true
  canonical : Canonical F u
  value : value u = rnd F q

section
variable {F : Format} {m : ℕ} {e : ℤ} {q : ℚ}

theorem log_eq {k : ℤ} (hlo : 2 ^ k ≤ q) (hhi : q < 2 ^ (k + 1)) : Int.log 2 q = k := by
  have hq : 0 < q := (two_zpow_pos k).trans_le hlo
  refine le_antisymm ?_ ((Int.zpow_le_iff_le_log one_lt_two hq).1 (by exact_mod_cast hlo))
  exact Int.lt_add_one_iff.1 ((Int.lt_zpow_iff_log_lt one_lt_two hq).1 (by exact_mod_cast hhi))

theorem two_pow_log2_le (hm : m ≠ 0) : (2 : ℚ) ^ (m.log2 : ℤ) ≤ m := by
  rw [zpow_natCast]
  exact_mod_cast Nat.log2_self_le hm

theorem lt_two_pow_log2 (m : ℕ) : (m : ℚ) + 1 ≤ 2 ^ ((m.log2 : ℤ) + 1) := by
  have h : m + 1 ≤ 2 ^ (m.log2 + 1) := Nat.lt_log2_self
  exact_mod_cast h

/-- The size of a number whose mantissa begins with `m`. -/
theorem log_mul_zpow {x : ℚ} (hm : m ≠ 0) (hlo : (m : ℚ) ≤ x) (hhi : x < m + 1) (e : ℤ) :
    Int.log 2 (x * 2 ^ e) + 1 = totalExponent m e := by
  have he := two_zpow_pos e
  rw [log_eq (k := m.log2 + e)]
  · unfold totalExponent
    ring
  · rw [zpow_add₀ two_ne_zero]
    exact mul_le_mul_of_nonneg_right ((two_pow_log2_le hm).trans hlo) he.le
  · rw [add_right_comm, zpow_add₀ two_ne_zero]
    exact mul_lt_mul_of_pos_right (hhi.trans_le (lt_two_pow_log2 m)) he

theorem ulpExp_of_pos (hq : 0 < q) : ulpExp F q = F.targetExponent (Int.log 2 q + 1) := by
  rw [ulpExp, abs_of_pos hq]

/-- Where the rounding puts the last place, if it has not been passed yet. -/
theorem targetExponent_eq_ulpExp {x : ℚ} (hx : 0 < x) (hlo : (m : ℚ) ≤ x) (hhi : x < m + 1)
    (he : e ≤ ulpExp F (x * 2 ^ e)) :
    F.targetExponent (totalExponent m e) = ulpExp F (x * 2 ^ e) := by
  have hpos : 0 < x * 2 ^ e := mul_pos hx (two_zpow_pos e)
  rw [ulpExp_of_pos hpos] at he ⊢
  by_cases hm : m = 0
  · -- So small that the last place is the least there is.
    subst hm
    have hsmall : x * 2 ^ e < 2 ^ e := by
      have hx1 : x < 1 := by simpa using hhi
      nlinarith [two_zpow_pos e]
    have hlog : Int.log 2 (x * 2 ^ e) < e :=
      (Int.lt_zpow_iff_log_lt one_lt_two hpos).1 (by exact_mod_cast hsmall)
    have hbits : 0 < F.mantissaBits := Nat.add_pos_left Nat.one_pos _
    unfold Format.targetExponent totalExponent at *
    simp only [Nat.log2_zero] at *
    omega
  · rw [log_mul_zpow hm hlo hhi]

theorem mantissa_le_two_pow {N : ℕ} (hq : 0 < q) (hN : (N : ℤ) = nearest (q / 2 ^ ulpExp F q)) :
    N ≤ 2 ^ F.mantissaBits := by
  have hulp := two_zpow_pos (ulpExp F q)
  have hlt := Int.lt_zpow_succ_log_self one_lt_two q
  have hle : q / 2 ^ ulpExp F q ≤ ((2 ^ F.mantissaBits : ℤ) : ℚ) := by
    rw [div_le_iff₀ hulp]
    push_cast at hlt ⊢
    rw [← zpow_natCast, ← zpow_add₀ two_ne_zero]
    refine hlt.le.trans (two_zpow_le ?_)
    rw [ulpExp_of_pos hq, Format.targetExponent]
    omega
  have hint : (N : ℤ) ≤ 2 ^ F.mantissaBits := hN ▸ nearest_le hle
  exact_mod_cast hint

theorem le_mantissa {N : ℕ} (hq : 0 < q) (hN : (N : ℤ) = nearest (q / 2 ^ ulpExp F q))
    (hmin : ulpExp F q ≠ F.minExponent) : 2 ^ (F.mantissaBits - 1) ≤ N := by
  have hulp := two_zpow_pos (ulpExp F q)
  have hbits : 0 < F.mantissaBits := Nat.add_pos_left Nat.one_pos _
  have hlog := Int.zpow_log_le_self one_lt_two hq
  have hle : ((2 ^ (F.mantissaBits - 1) : ℤ) : ℚ) ≤ q / 2 ^ ulpExp F q := by
    rw [le_div_iff₀ hulp]
    push_cast at hlog ⊢
    rw [← zpow_natCast, ← zpow_add₀ two_ne_zero]
    refine (two_zpow_le ?_).trans hlog
    rw [ulpExp_of_pos hq, Format.targetExponent] at hmin ⊢
    omega
  have hint : (2 ^ (F.mantissaBits - 1) : ℤ) ≤ N := hN ▸ le_nearest hle
  exact_mod_cast hint

theorem shiftToExponent_spec {acc : Accuracy} {x : ℚ} (h : Describes acc (x - m)) {t : ℤ} (ht : e ≤ t) :
    (shiftToExponent m e acc t).2 = t ∧
      ((shiftToExponent m e acc t).1.roundedMantissa : ℤ) = nearest (x * 2 ^ e / 2 ^ t) := by
  obtain ⟨d, hd⟩ := Int.eq_ofNat_of_zero_le (sub_nonneg.2 ht)
  have hshift : (t - e).toNat = d := by rw [hd]; rfl
  have hinit : Describes (ExtendedMantissa.ofMantissaAndAccuracy m acc).accuracy
      (x - (ExtendedMantissa.ofMantissaAndAccuracy m acc).mantissa) := by
    rwa [(accuracy_ofMantissaAndAccuracy m acc).1, (accuracy_ofMantissaAndAccuracy m acc).2]
  have hscale : x * 2 ^ e / 2 ^ t = x / 2 ^ d := by
    have hsplit : (2 : ℚ) ^ t = 2 ^ d * 2 ^ e := by rw [← two_zpow_sub_mul e t, hd, zpow_natCast]
    rw [hsplit, mul_div_mul_right _ _ (two_zpow_pos e).ne']
  refine ⟨?_, ?_⟩
  · simp only [shiftToExponent, hshift]
    omega
  · rw [hscale]
    simp only [shiftToExponent, hshift]
    exact (describes_shiftRight d hinit).roundToNearestEven

theorem rnd_sgn (s : Sign) (q : ℚ) : rnd F (sgn s * q) = sgn s * rnd F q := by
  cases s with
  | negative => simp only [sgn, neg_mul, one_mul, rnd_neg]
  | positive => simp only [sgn, one_mul]

/-- A mantissa that fits is left as it is by the second shift. -/
theorem shift_fits {N : ℕ} (hN : N < 2 ^ F.mantissaBits) (he : F.minExponent ≤ e) :
    (shiftToTargetExponent F N e .exact).1.mantissa = N ∧ (shiftToTargetExponent F N e .exact).2 = e := by
  have hbits : 0 < F.mantissaBits := Nat.add_pos_left Nat.one_pos _
  have hlog : N.log2 < F.mantissaBits := by
    by_cases h : N = 0
    · rw [h]
      simpa using hbits
    · exact (Nat.log2_lt h).2 hN
  have hshift : (F.targetExponent (totalExponent N e) - e).toNat = 0 := by
    unfold Format.targetExponent totalExponent
    omega
  simp only [shiftToTargetExponent, shiftToExponent, hshift]
  exact ⟨rfl, by simp⟩

/-- One that has grown too long by rounding is a power of two. -/
theorem shift_overflows (he : F.minExponent ≤ e) :
    (shiftToTargetExponent F (2 ^ F.mantissaBits) e .exact).1.mantissa = 2 ^ (F.mantissaBits - 1) ∧
      (shiftToTargetExponent F (2 ^ F.mantissaBits) e .exact).2 = e + 1 := by
  have hbits : 0 < F.mantissaBits := Nat.add_pos_left Nat.one_pos _
  have hshift : (F.targetExponent (totalExponent (2 ^ F.mantissaBits) e) - e).toNat = 1 := by
    unfold Format.targetExponent totalExponent
    rw [Nat.log2_two_pow]
    omega
  simp only [shiftToTargetExponent, shiftToExponent, hshift]
  refine ⟨?_, by simp⟩
  change 2 ^ F.mantissaBits / 2 = 2 ^ (F.mantissaBits - 1)
  rw [← Nat.pow_div hbits two_pos, pow_one]

def ofParts (s : Sign) (m : ℕ) (e : ℤ) : UnpackedFloat :=
  if h : m = 0 then .zero s else .finite s m e (Nat.pos_of_ne_zero h)

theorem roundWithAccuracy_eq (s : Sign) (m : ℕ) (e : ℤ) (acc : Accuracy) :
    roundWithAccuracy F s m e acc =
      let first := shiftToTargetExponent F m e acc
      let last := shiftToTargetExponent F first.1.roundedMantissa first.2 .exact
      ofParts s last.1.mantissa last.2 := rfl

/-- **`roundWithAccuracy` rounds to nearest**, if the exponent is not past the last place. -/
theorem roundWithAccuracy_rounds {acc : Accuracy} {x : ℚ} (h : Describes acc (x - m)) (hx : 0 < x)
    (he : e ≤ ulpExp F (x * 2 ^ e)) (s : Sign) :
    Rounds F (sgn s * (x * 2 ^ e)) (roundWithAccuracy F s m e acc) := by
  have hq : 0 < x * 2 ^ e := mul_pos hx (two_zpow_pos e)
  have htarget := targetExponent_eq_ulpExp (F := F) hx (by linarith [h.nonneg]) (by linarith [h.lt_one]) he
  obtain ⟨hexp, hN⟩ := shiftToExponent_spec h he
  have hfirst : shiftToTargetExponent F m e acc = shiftToExponent m e acc (ulpExp F (x * 2 ^ e)) := by
    rw [shiftToTargetExponent, htarget]
  have hmin := minExponent_le_ulpExp (F := F) (x * 2 ^ e)
  have hvalue : rnd F (sgn s * (x * 2 ^ e)) =
      sgn s * ((shiftToExponent m e acc (ulpExp F (x * 2 ^ e))).1.roundedMantissa *
        2 ^ ulpExp F (x * 2 ^ e)) := by
    rw [rnd_sgn, rnd, ← hN, Int.cast_natCast]
  rw [roundWithAccuracy_eq, hfirst]
  simp only [hexp]
  revert hN hvalue
  generalize (shiftToExponent m e acc (ulpExp F (x * 2 ^ e))).1.roundedMantissa = N
  intro hN hvalue
  have hle := mantissa_le_two_pow hq hN
  have hbits : 0 < F.mantissaBits := Nat.add_pos_left Nat.one_pos _
  rcases hle.lt_or_eq with hlt | rfl
  · obtain ⟨hm₂, he₂⟩ := shift_fits hlt hmin
    rw [hm₂, he₂, ofParts]
    split
    · rename_i hzero
      exact ⟨rfl, trivial, by rw [hvalue, hzero]; simp [value]⟩
    · rename_i hne
      refine ⟨rfl, ?_, hvalue.symm⟩
      -- The mantissa is as long as it can be, or the exponent as small.
      have hlog : N.log2 < F.mantissaBits := (Nat.log2_lt hne).2 hlt
      by_cases hleast : ulpExp F (x * 2 ^ e) = F.minExponent
      · unfold Canonical Format.targetExponent totalExponent
        omega
      · have hlong : F.mantissaBits - 1 ≤ N.log2 := (Nat.le_log2 hne).2 (le_mantissa hq hN hleast)
        unfold Canonical Format.targetExponent totalExponent
        omega
  · obtain ⟨hm₂, he₂⟩ := shift_overflows hmin
    have hne : 2 ^ (F.mantissaBits - 1) ≠ 0 := by positivity
    rw [hm₂, he₂, ofParts, dif_neg hne]
    refine ⟨rfl, ?_, ?_⟩
    · simp only [Canonical, Format.targetExponent, totalExponent, Nat.log2_two_pow]
      omega
    · rw [hvalue, value, zpow_add_one₀ two_ne_zero]
      have hpow : (2 : ℚ) ^ F.mantissaBits = 2 ^ (F.mantissaBits - 1) * 2 := by
        rw [← pow_succ, Nat.sub_add_cancel hbits]
      push_cast
      rw [hpow]
      ring

theorem decreaseExponent_value (m : ℕ) (e t : ℤ) :
    ((decreaseExponent m e t).1 : ℚ) * 2 ^ (decreaseExponent m e t).2 = m * 2 ^ e := by
  simp only [decreaseExponent, Nat.shiftLeft_eq]
  push_cast
  rw [mul_assoc, ← zpow_natCast, ← zpow_add₀ two_ne_zero, add_sub_cancel]

theorem decreaseExponent_snd (m : ℕ) {e t : ℤ} (h : t ≤ e) : (decreaseExponent m e t).2 = t := by
  simp only [decreaseExponent]
  omega

theorem round_rounds (s : Sign) (hm : 0 < m) (e : ℤ) :
    Rounds F (sgn s * (m * 2 ^ e)) (round F s m e) := by
  have hm' : (0 : ℚ) < m := by exact_mod_cast hm
  have hulp : F.targetExponent (totalExponent m e) = ulpExp F (m * 2 ^ e) := by
    rw [ulpExp_of_pos (mul_pos hm' (two_zpow_pos e)), log_mul_zpow hm.ne' le_rfl (by linarith)]
  have hvalue := decreaseExponent_value m e (F.targetExponent (totalExponent m e))
  have hexact : Describes .exact (((decreaseExponent m e (F.targetExponent (totalExponent m e))).1 : ℚ) -
      (decreaseExponent m e (F.targetExponent (totalExponent m e))).1) := sub_self _
  have hround := roundWithAccuracy_rounds (F := F)
    (e := (decreaseExponent m e (F.targetExponent (totalExponent m e))).2) hexact ?_ ?_ s
  · rw [hvalue] at hround
    exact hround
  · simp only [decreaseExponent, Nat.shiftLeft_eq]
    positivity
  · rw [hvalue, ← hulp]
    simp only [decreaseExponent]
    omega

theorem normalize_rounds (n e : ℤ) (s : Sign) : Rounds F (n * 2 ^ e) (UnpackedFloat.normalize F n e s) := by
  unfold UnpackedFloat.normalize
  rcases lt_trichotomy n 0 with h | rfl | h
  · rw [compare_lt_iff_lt.2 h]
    have hround := round_rounds (F := F) .negative (m := (-n).toNat) (by omega) e
    have hcast : (((-n).toNat : ℤ) : ℚ) = -n := by
      rw [Int.toNat_of_nonneg (by omega)]
      push_cast
      rfl
    rw [← Int.cast_natCast, hcast] at hround
    simpa [sgn] using hround
  · have hzero : rnd F 0 = 0 := rnd_of_representable .zero
    exact ⟨rfl, trivial, by simp [value, hzero]⟩
  · rw [compare_gt_iff_gt.2 h]
    have hround := round_rounds (F := F) .positive (m := n.toNat) (by omega) e
    have hcast : ((n.toNat : ℤ) : ℚ) = n := by rw [Int.toNat_of_nonneg h.le]
    rw [← Int.cast_natCast, hcast] at hround
    simpa [sgn] using hround

end

/-! ## The operations -/

section
variable {F : Format} {a b : UnpackedFloat}

theorem Canonical.representable (h : Canonical F a) : Representable F (value a) := by
  cases a with
  | finite s m e hm =>
    have htarget : F.targetExponent (totalExponent m e) = e := h
    have hlog : m.log2 < F.mantissaBits ∧ F.minExponent ≤ e := by
      unfold Format.targetExponent totalExponent at htarget
      omega
    have hlt : (m : ℤ) < 2 ^ F.mantissaBits := by exact_mod_cast (Nat.log2_lt hm.ne').1 hlog.1
    cases s with
    | negative => exact ⟨-m, e, by rwa [abs_neg, Nat.abs_cast], hlog.2, by simp [value, sgn]⟩
    | positive => exact ⟨m, e, by rwa [Nat.abs_cast], hlog.2, by simp [value, sgn]⟩
  | _ => exact .zero

theorem Canonical.rounds (h : Canonical F a) (hfin : a.isFinite = true) : Rounds F (value a) a :=
  ⟨hfin, h, (rnd_of_representable h.representable).symm⟩

theorem sgn_apply (s : Sign) (n : ℤ) : ((s.apply n : ℤ) : ℚ) = sgn s * n := by
  cases s <;> simp [Sign.apply, sgn]

theorem add_rounds (ha : a.isFinite = true) (hb : b.isFinite = true) (hca : Canonical F a)
    (hcb : Canonical F b) : Rounds F (value a + value b) (add F a b) := by
  cases a with
  | notANumber | infinity => cases ha
  | zero s =>
    cases b with
    | notANumber | infinity => cases hb
    | zero s' =>
      have hzero : rnd F 0 = 0 := rnd_of_representable .zero
      simp only [add, value, add_zero]
      split <;> exact ⟨rfl, trivial, hzero.symm⟩
    | finite s' m' e' hm' =>
      rw [show value (.zero s) = 0 from rfl, zero_add]
      exact hcb.rounds rfl
  | finite s m e hm =>
    cases b with
    | notANumber | infinity => cases hb
    | zero s' =>
      rw [show value (.zero s') = 0 from rfl, add_zero]
      exact hca.rounds rfl
    | finite s' m' e' hm' =>
      have hround := normalize_rounds (F := F) (s.apply (decreaseExponent m e (min e e')).1 +
        s'.apply (decreaseExponent m' e' (min e e')).1) (min e e') .positive
      have hm₁ := decreaseExponent_value m e (min e e')
      have hm₂ := decreaseExponent_value m' e' (min e e')
      rw [decreaseExponent_snd m (min_le_left e e')] at hm₁
      rw [decreaseExponent_snd m' (min_le_right e e')] at hm₂
      have hsum : value (.finite s m e hm) + value (.finite s' m' e' hm') =
          ((s.apply (decreaseExponent m e (min e e')).1 + s'.apply (decreaseExponent m' e' (min e e')).1 :
            ℤ) : ℚ) * 2 ^ min e e' := by
        rw [Int.cast_add, sgn_apply, sgn_apply, add_mul, mul_assoc, mul_assoc, Int.cast_natCast,
          Int.cast_natCast, hm₁, hm₂, value, value]
      rw [hsum]
      exact hround

theorem sub_eq_add (a b : UnpackedFloat) : sub F a b = add F a b.neg := by
  cases a with
  | finite s m e hm =>
    cases b with
    | finite s' m' e' hm' =>
      have hneg : ∀ n : ℤ, (-s').apply n = -s'.apply n := by
        intro n
        cases s' with
        | negative => exact (neg_neg n).symm
        | positive => rfl
      show UnpackedFloat.normalize F (s.apply (decreaseExponent m e (min e e')).1 -
        s'.apply (decreaseExponent m' e' (min e e')).1) (min e e') .positive =
        UnpackedFloat.normalize F (s.apply (decreaseExponent m e (min e e')).1 +
          (-s').apply (decreaseExponent m' e' (min e e')).1) (min e e') .positive
      rw [hneg, ← sub_eq_add_neg]
    | _ => rfl
  | _ => cases b <;> rfl

theorem value_neg (a : UnpackedFloat) : value a.neg = -value a := by
  have hneg : ∀ s : Sign, sgn (-s) = -sgn s := by
    intro s
    cases s with
    | negative => exact (neg_neg (1 : ℚ)).symm
    | positive => rfl
  cases a with
  | finite s m e hm => rw [UnpackedFloat.neg, value, hneg, neg_mul, value]
  | _ => exact neg_zero.symm

theorem isFinite_neg (a : UnpackedFloat) : a.neg.isFinite = a.isFinite := by cases a <;> rfl

theorem Canonical.neg (h : Canonical F a) : Canonical F a.neg := by cases a <;> exact h

theorem sub_rounds (ha : a.isFinite = true) (hb : b.isFinite = true) (hca : Canonical F a)
    (hcb : Canonical F b) : Rounds F (value a - value b) (sub F a b) := by
  rw [sub_eq_add, sub_eq_add_neg, ← value_neg]
  exact add_rounds ha (by rwa [isFinite_neg]) hca hcb.neg

theorem sgn_mul (s s' : Sign) : sgn (s * s') = sgn s * sgn s' := by
  cases s <;> cases s'
  · exact (by norm_num : (1 : ℚ) = -1 * -1)
  · exact (mul_one (-1 : ℚ)).symm
  · exact (one_mul (-1 : ℚ)).symm
  · exact (one_mul (1 : ℚ)).symm

theorem minExponent_nonpos (F : Format) : F.minExponent ≤ 0 := by
  have hpow : (1 : ℤ) ≤ 2 ^ (F.exponentBits - 1) := one_le_pow₀ one_le_two
  have hm := F.hm
  unfold Format.minExponent Format.mantissaBits
  omega

theorem mul_rounds (ha : a.isFinite = true) (hb : b.isFinite = true) (hca : Canonical F a)
    (hcb : Canonical F b) : Rounds F (value a * value b) (mul F a b) := by
  have hzero : rnd F 0 = 0 := rnd_of_representable .zero
  cases a with
  | notANumber | infinity => cases ha
  | zero s =>
    cases b with
    | notANumber | infinity => cases hb
    | zero | finite => exact ⟨rfl, trivial, by simp [value, mul, hzero]⟩
  | finite s m e hm =>
    cases b with
    | notANumber | infinity => cases hb
    | zero => exact ⟨rfl, trivial, by simp [value, mul, hzero]⟩
    | finite s' m' e' hm' =>
      have hpos : (0 : ℚ) < (m * m' : ℕ) := by exact_mod_cast Nat.mul_pos hm hm'
      have hprod : value (.finite s m e hm) * value (.finite s' m' e' hm') =
          sgn (s * s') * ((m * m' : ℕ) * 2 ^ (e + e')) := by
        rw [value, value, sgn_mul, zpow_add₀ two_ne_zero]
        push_cast
        ring
      rw [hprod]
      have hexact : Describes .exact (((m * m' : ℕ) : ℚ) - (m * m' : ℕ)) := sub_self _
      refine roundWithAccuracy_rounds hexact hpos ?_ _
      -- One of the factors has a long mantissa, or both the least exponent.
      have hne := (Nat.mul_pos hm hm').ne'
      have hlog : m.log2 ≤ (m * m').log2 ∧ m'.log2 ≤ (m * m').log2 :=
        ⟨(Nat.le_log2 hne).2 ((Nat.log2_self_le hm.ne').trans (Nat.le_mul_of_pos_right m hm')),
          (Nat.le_log2 hne).2 ((Nat.log2_self_le hm'.ne').trans (Nat.le_mul_of_pos_left m' hm))⟩
      have hmin := minExponent_nonpos F
      rw [ulpExp_of_pos (mul_pos hpos (two_zpow_pos _)), log_mul_zpow hne le_rfl (by linarith)]
      simp only [Canonical, Format.targetExponent, totalExponent] at hca hcb ⊢
      omega

theorem sgn_div (s s' : Sign) : sgn (s / s') = sgn s / sgn s' := by
  cases s <;> cases s'
  · exact (by norm_num : (1 : ℚ) = -1 / -1)
  · exact (by norm_num : (-1 : ℚ) = -1 / 1)
  · exact (by norm_num : (-1 : ℚ) = 1 / -1)
  · exact (by norm_num : (1 : ℚ) = 1 / 1)

theorem describes_accuracyOfFraction {n d : ℕ} (h : n < d) :
    Describes (accuracyOfFraction n d) ((n : ℚ) / d) := by
  have hd : (0 : ℚ) < d := by exact_mod_cast (Nat.zero_le n).trans_lt h
  have hlt : (n : ℚ) < d := by exact_mod_cast h
  unfold accuracyOfFraction
  split
  · rename_i hzero
    simp [Describes, hzero]
  · rename_i hne
    have hpos : (0 : ℚ) < n := by exact_mod_cast Nat.pos_of_ne_zero hne
    rcases lt_trichotomy (2 * n) d with hc | hc | hc
    · rw [compare_lt_iff_lt.2 hc]
      have hc' : (2 : ℚ) * n < d := by exact_mod_cast hc
      exact ⟨div_pos hpos hd, (div_lt_iff₀ hd).2 (by linarith)⟩
    · rw [compare_eq_iff_eq.2 hc]
      have hc' : (2 : ℚ) * n = d := by exact_mod_cast hc
      exact (div_eq_iff hd.ne').2 (by linarith)
    · rw [compare_gt_iff_gt.2 hc]
      have hc' : (d : ℚ) < 2 * n := by exact_mod_cast hc
      exact ⟨(lt_div_iff₀ hd).2 (by linarith), (div_lt_one hd).2 hlt⟩

theorem div_rounds (ha : a.isFinite = true) (hb : b.isFinite = true) (hb0 : value b ≠ 0) :
    Rounds F (value a / value b) (div F a b) := by
  cases b with
  | notANumber | infinity => cases hb
  | zero => exact absurd rfl hb0
  | finite s' m' e' hm' =>
    cases a with
    | notANumber | infinity => cases ha
    | zero s =>
      have hzero : rnd F 0 = 0 := rnd_of_representable .zero
      rw [show value (.zero s) = 0 from rfl, zero_div]
      exact ⟨rfl, trivial, hzero.symm⟩
    | finite s m e hm =>
      have hpos : (0 : ℚ) < m := by exact_mod_cast hm
      have hpos' : (0 : ℚ) < m' := by exact_mod_cast hm'
      show Rounds F _ (roundWithAccuracy F (s / s') (divCore F m e m' e').1 (divCore F m e m' e').2.1
        (divCore F m e m' e').2.2)
      obtain ⟨t, ht⟩ : ∃ t, t = min (e - e') (F.targetExponent (totalExponent m e - totalExponent m' e')) :=
        ⟨_, rfl⟩
      obtain ⟨k, hk⟩ : ∃ k : ℕ, k = (e - e' - t).toNat := ⟨_, rfl⟩
      have hcore : divCore F m e m' e' =
          (m * 2 ^ k / m', t, accuracyOfFraction (m * 2 ^ k % m') m') := by
        simp only [divCore, ← ht, ← hk, Nat.shiftLeft_eq]
      have hquot : ((m * 2 ^ k : ℕ) : ℚ) / m' - (m * 2 ^ k / m' : ℕ) = (m * 2 ^ k % m' : ℕ) / m' := by
        have hdiv : ((m * 2 ^ k : ℕ) : ℚ) = m' * (m * 2 ^ k / m' : ℕ) + (m * 2 ^ k % m' : ℕ) := by
          exact_mod_cast (Nat.div_add_mod _ _).symm
        rw [hdiv, add_div, mul_div_cancel_left₀ _ hpos'.ne', add_sub_cancel_left]
      have hscale : ((m * 2 ^ k : ℕ) : ℚ) / m' * 2 ^ t = m * 2 ^ e / (m' * 2 ^ e') := by
        have hexp : (2 : ℚ) ^ k * 2 ^ t * 2 ^ e' = 2 ^ e := by
          rw [← zpow_natCast, ← zpow_add₀ two_ne_zero, ← zpow_add₀ two_ne_zero]
          congr 1
          omega
        push_cast
        rw [← hexp]
        field_simp
      have hvalue : value (.finite s m e hm) / value (.finite s' m' e' hm') =
          sgn (s / s') * (((m * 2 ^ k : ℕ) : ℚ) / m' * 2 ^ t) := by
        rw [hscale, sgn_div, value, value, mul_div_mul_comm]
      rw [hcore, hvalue]
      have hscaled : (0 : ℚ) < (m * 2 ^ k : ℕ) := by exact_mod_cast Nat.mul_pos hm (Nat.two_pow_pos k)
      refine roundWithAccuracy_rounds ?_ (div_pos hscaled hpos') ?_ _
      · rw [hquot]
        exact describes_accuracyOfFraction (Nat.mod_lt _ hm')
      · -- The quotient of two numbers is at least the quotient of their powers of two, halved.
        have hlow : (2 : ℚ) ^ (totalExponent m e - totalExponent m' e' - 1) ≤ m * 2 ^ e / (m' * 2 ^ e') := by
          have hlo := two_pow_log2_le hm.ne'
          have hhi := (le_add_of_nonneg_right zero_le_one).trans (lt_two_pow_log2 m')
          have hsplit : totalExponent m e - totalExponent m' e' - 1 = (m.log2 + e) - (m'.log2 + 1 + e') := by
            unfold totalExponent
            ring
          rw [hsplit, zpow_sub₀ two_ne_zero, zpow_add₀ two_ne_zero, zpow_add₀ two_ne_zero (m'.log2 + 1 : ℤ)]
          have he := two_zpow_pos e
          have he' := two_zpow_pos e'
          exact div_le_div₀ (mul_pos hpos he).le (mul_le_mul_of_nonneg_right hlo he.le) (mul_pos hpos' he')
            (mul_le_mul_of_nonneg_right hhi he'.le)
        have hq : 0 < m * (2 : ℚ) ^ e / (m' * 2 ^ e') :=
          div_pos (mul_pos hpos (two_zpow_pos e)) (mul_pos hpos' (two_zpow_pos e'))
        have hlog := (Int.zpow_le_iff_le_log one_lt_two hq).1 (by exact_mod_cast hlow)
        rw [hscale, ulpExp_of_pos hq]
        unfold Format.targetExponent at ht ⊢
        omega

/-! ## Comparing -/

theorem canonical_lt {m m' : ℕ} {e e' : ℤ} (hm' : 0 < m')
    (hc : F.targetExponent (totalExponent m e) = e) (hc' : F.targetExponent (totalExponent m' e') = e')
    (hlt : e < e') : (m : ℚ) * 2 ^ e < m' * 2 ^ e' := by
  have hhi := lt_two_pow_log2 m
  have hlo := two_pow_log2_le hm'.ne'
  have he := two_zpow_pos e
  have he' := two_zpow_pos e'
  have hexp : (m.log2 : ℤ) + 1 + e ≤ m'.log2 + e' := by
    unfold Format.targetExponent totalExponent at hc hc'
    omega
  calc (m : ℚ) * 2 ^ e < 2 ^ ((m.log2 : ℤ) + 1) * 2 ^ e := mul_lt_mul_of_pos_right (by linarith) he
    _ = 2 ^ ((m.log2 : ℤ) + 1 + e) := (zpow_add₀ two_ne_zero _ _).symm
    _ ≤ 2 ^ ((m'.log2 : ℤ) + e') := two_zpow_le hexp
    _ = 2 ^ (m'.log2 : ℤ) * 2 ^ e' := zpow_add₀ two_ne_zero _ _
    _ ≤ m' * 2 ^ e' := mul_le_mul_of_nonneg_right hlo he'.le

theorem then_compare_cases {m m' : ℕ} {e e' : ℤ} (hm : 0 < m) (hm' : 0 < m')
    (hc : F.targetExponent (totalExponent m e) = e) (hc' : F.targetExponent (totalExponent m' e') = e') :
    ((compare e e').then (compare m m') = .lt ∧ (m : ℚ) * 2 ^ e < m' * 2 ^ e') ∨
      ((compare e e').then (compare m m') = .eq ∧ (m : ℚ) * 2 ^ e = m' * 2 ^ e') ∨
      ((compare e e').then (compare m m') = .gt ∧ (m' : ℚ) * 2 ^ e' < m * 2 ^ e) := by
  rcases lt_trichotomy e e' with he | rfl | he
  · exact .inl ⟨by rw [compare_lt_iff_lt.2 he]; rfl, canonical_lt hm' hc hc' he⟩
  · have hpos := two_zpow_pos e
    rw [compare_eq_iff_eq.2 rfl]
    rcases lt_trichotomy m m' with h | rfl | h
    · refine .inl ⟨compare_lt_iff_lt.2 h, mul_lt_mul_of_pos_right ?_ hpos⟩
      exact_mod_cast h
    · exact .inr (.inl ⟨compare_eq_iff_eq.2 rfl, rfl⟩)
    · refine .inr (.inr ⟨compare_gt_iff_gt.2 h, mul_lt_mul_of_pos_right ?_ hpos⟩)
      exact_mod_cast h
  · exact .inr (.inr ⟨by rw [compare_gt_iff_gt.2 he]; rfl, canonical_lt hm hc' hc he⟩)

/-- Numbers compare as what they stand for. -/
theorem compare_cases (ha : a.isFinite = true) (hb : b.isFinite = true) (hca : Canonical F a)
    (hcb : Canonical F b) :
    (a.compare b = some .lt ∧ value a < value b) ∨ (a.compare b = some .eq ∧ value a = value b) ∨
      (a.compare b = some .gt ∧ value b < value a) := by
  have hpos : ∀ {m : ℕ} (e : ℤ), 0 < m → (0 : ℚ) < m * 2 ^ e := fun {m} e hm => by
    have hm' : (0 : ℚ) < m := by exact_mod_cast hm
    exact mul_pos hm' (two_zpow_pos e)
  cases a with
  | notANumber | infinity => cases ha
  | zero s =>
    cases b with
    | notANumber | infinity => cases hb
    | zero s' => exact .inr (.inl ⟨rfl, rfl⟩)
    | finite s' m' e' hm' =>
      have h := hpos e' hm'
      cases s' with
      | negative => exact .inr (.inr ⟨rfl, by simp only [value, sgn]; linarith⟩)
      | positive => exact .inl ⟨rfl, by simp only [value, sgn]; linarith⟩
  | finite s m e hm =>
    cases b with
    | notANumber | infinity => cases hb
    | zero s' =>
      have h := hpos e hm
      cases s with
      | negative => exact .inl ⟨rfl, by simp only [value, sgn]; linarith⟩
      | positive => exact .inr (.inr ⟨rfl, by simp only [value, sgn]; linarith⟩)
    | finite s' m' e' hm' =>
      have h := hpos e hm
      have h' := hpos e' hm'
      cases s <;> cases s' <;> simp only [UnpackedFloat.compare, value, sgn]
      · rcases then_compare_cases hm hm' hca hcb with ⟨hc, hv⟩ | ⟨hc, hv⟩ | ⟨hc, hv⟩ <;> rw [hc]
        · exact .inr (.inr ⟨rfl, by linarith⟩)
        · exact .inr (.inl ⟨rfl, by linarith⟩)
        · exact .inl ⟨rfl, by linarith⟩
      · exact .inl ⟨trivial, by linarith⟩
      · exact .inr (.inr ⟨trivial, by linarith⟩)
      · rcases then_compare_cases hm hm' hca hcb with ⟨hc, hv⟩ | ⟨hc, hv⟩ | ⟨hc, hv⟩ <;> rw [hc]
        · exact .inl ⟨rfl, by linarith⟩
        · exact .inr (.inl ⟨rfl, by linarith⟩)
        · exact .inr (.inr ⟨rfl, by linarith⟩)

theorem lt_iff (ha : a.isFinite = true) (hb : b.isFinite = true) (hca : Canonical F a)
    (hcb : Canonical F b) : a.lt b = true ↔ value a < value b := by
  unfold UnpackedFloat.lt
  rcases compare_cases ha hb hca hcb with ⟨hc, hv⟩ | ⟨hc, hv⟩ | ⟨hc, hv⟩ <;> rw [hc]
  · simp [hv]
  · simp [hv]
  · simpa using hv.le

theorem le_iff (ha : a.isFinite = true) (hb : b.isFinite = true) (hca : Canonical F a)
    (hcb : Canonical F b) : a.le b = true ↔ value a ≤ value b := by
  unfold UnpackedFloat.le
  rcases compare_cases ha hb hca hcb with ⟨hc, hv⟩ | ⟨hc, hv⟩ | ⟨hc, hv⟩ <;> rw [hc]
  · simp [hv.le]
  · simp [hv]
  · simpa using hv

theorem beq_iff (ha : a.isFinite = true) (hb : b.isFinite = true) (hca : Canonical F a)
    (hcb : Canonical F b) : a.beq b = true ↔ value a = value b := by
  unfold UnpackedFloat.beq
  rcases compare_cases ha hb hca hcb with ⟨hc, hv⟩ | ⟨hc, hv⟩ | ⟨hc, hv⟩ <;> rw [hc]
  · simp [hv.ne]
  · simp [hv]
  · simp [hv.ne']

end
end Ieee
