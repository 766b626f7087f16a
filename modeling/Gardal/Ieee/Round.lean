import Mathlib.Data.Int.Log
import Mathlib.Data.Rat.Floor
import Mathlib.Tactic.Linarith
import Mathlib.Tactic.Positivity
import Mathlib.Tactic.Ring
/-!
# Rounding to nearest, ties to even

`rnd F q` is the number of the format `F` that is nearest to `q`, with as many places below the point as the
format has at the size of `q` (`ulpExp`), and no bound above: what is too large is dealt with where numbers are
packed. Nothing here depends on how numbers are stored; `Gardal.Ieee.Unpacked` shows that the operations of
`Float.Model` compute it.
-/
namespace Ieee
open Float.Model (Format)

/-! ## To an integer -/

/-- The integer nearest to `x`, the even one of two. -/
def nearest (x : ℚ) : ℤ :=
  if x - ⌊x⌋ < 1 / 2 then ⌊x⌋
  else if 1 / 2 < x - ⌊x⌋ then ⌊x⌋ + 1
  else ⌊x⌋ + ⌊x⌋ % 2

section
variable {x : ℚ} {n : ℤ}

theorem floor_le_nearest (x : ℚ) : ⌊x⌋ ≤ nearest x := by
  unfold nearest
  split_ifs <;> omega

theorem nearest_le_floor_add_one (x : ℚ) : nearest x ≤ ⌊x⌋ + 1 := by
  unfold nearest
  split_ifs <;> omega

@[simp] theorem nearest_intCast (n : ℤ) : nearest n = n := by
  simp [nearest]

/-- No integer lies between a number and what it is rounded to. -/
theorem le_nearest (h : n ≤ x) : n ≤ nearest x := (Int.le_floor.2 h).trans (floor_le_nearest x)

theorem nearest_le (h : x ≤ n) : nearest x ≤ n := by
  rcases eq_or_lt_of_le (Int.floor_le x) with heq | hlt
  · rw [← heq, nearest_intCast]
    exact_mod_cast (heq.le.trans h : (⌊x⌋ : ℚ) ≤ n)
  · have hn : ⌊x⌋ + 1 ≤ n := by exact_mod_cast (hlt.trans_le h : (⌊x⌋ : ℚ) < n)
    exact (nearest_le_floor_add_one x).trans hn

theorem abs_nearest_sub_le (x : ℚ) : |(nearest x : ℚ) - x| ≤ 1 / 2 := by
  have hlo := Int.floor_le x
  have hhi := Int.lt_floor_add_one x
  unfold nearest
  split_ifs with hlt hgt
  · rw [abs_le]
    constructor <;> linarith
  · rw [abs_le]
    push_cast
    constructor <;> linarith
  · -- In the middle between two integers.
    have hmid : x = ⌊x⌋ + 1 / 2 := by linarith [not_lt.1 hlt, not_lt.1 hgt]
    rcases Int.emod_two_eq_zero_or_one ⌊x⌋ with h | h <;> rw [h, abs_le] <;> push_cast <;> constructor <;>
      linarith

theorem nearest_neg (x : ℚ) : nearest (-x) = -nearest x := by
  rcases eq_or_lt_of_le (Int.floor_le x) with heq | hlt
  · rw [← heq, ← Int.cast_neg, nearest_intCast, nearest_intCast]
  · have hfloor : ⌊-x⌋ = -⌊x⌋ - 1 := by
      rw [Int.floor_eq_iff]
      push_cast
      constructor <;> linarith [Int.lt_floor_add_one x]
    have hfrac : -x - (⌊-x⌋ : ℚ) = 1 - (x - ⌊x⌋) := by
      rw [hfloor]
      push_cast
      ring
    unfold nearest
    rw [hfrac, hfloor]
    split_ifs <;> first | omega | linarith

end

/-! ## To the numbers of a format -/

section
variable (F : Format) {q c : ℚ}

/-- The exponent of the last place of `q`. -/
def ulpExp (q : ℚ) : ℤ := F.targetExponent (Int.log 2 |q| + 1)

def rnd (q : ℚ) : ℚ := nearest (q / 2 ^ ulpExp F q) * 2 ^ ulpExp F q

/-- `q` is a number of the format. -/
def Representable (q : ℚ) : Prop :=
  ∃ n e : ℤ, |n| < 2 ^ F.mantissaBits ∧ F.minExponent ≤ e ∧ q = n * 2 ^ e

variable {F}

theorem minExponent_le_ulpExp (q : ℚ) : F.minExponent ≤ ulpExp F q := le_max_right _ _

theorem ulpExp_neg (q : ℚ) : ulpExp F (-q) = ulpExp F q := by rw [ulpExp, abs_neg, ulpExp]

theorem rnd_neg (q : ℚ) : rnd F (-q) = -rnd F q := by
  rw [rnd, ulpExp_neg, neg_div, nearest_neg, Int.cast_neg, neg_mul, rnd]

theorem Representable.neg (h : Representable F q) : Representable F (-q) := by
  obtain ⟨n, e, hn, he, rfl⟩ := h
  exact ⟨-n, e, by rwa [abs_neg], he, by push_cast; ring⟩

theorem Representable.zero : Representable F 0 := ⟨0, F.minExponent, by simp, le_rfl, by simp⟩

theorem two_zpow_pos (e : ℤ) : (0 : ℚ) < 2 ^ e := zpow_pos two_pos e

theorem two_zpow_le {e e' : ℤ} (h : e ≤ e') : (2 : ℚ) ^ e ≤ 2 ^ e' := zpow_le_zpow_right₀ one_le_two h

theorem two_zpow_sub_mul (e e' : ℤ) : (2 : ℚ) ^ (e' - e) * 2 ^ e = 2 ^ e' := by
  rw [← zpow_add₀ two_ne_zero, sub_add_cancel]

/-- A number of the format is a multiple of the last place of any number that is not larger, or smaller than
the power of two below that. -/
theorem Representable.cases (h : Representable F c) (q : ℚ) (hq : q ≠ 0) :
    (∃ n : ℤ, c = n * 2 ^ ulpExp F q) ∨
      ∃ k : ℤ, |c| < k * 2 ^ ulpExp F q ∧ k * 2 ^ ulpExp F q ≤ |q| := by
  obtain ⟨n, e, hn, he, rfl⟩ := h
  rcases le_or_gt (ulpExp F q) e with hle | hlt
  · left
    obtain ⟨d, hd⟩ := Int.eq_ofNat_of_zero_le (sub_nonneg.2 hle)
    refine ⟨n * 2 ^ d, ?_⟩
    have hsplit := two_zpow_sub_mul (ulpExp F q) e
    rw [hd] at hsplit
    rw [← hsplit]
    push_cast
    rw [zpow_natCast, mul_assoc]
  · right
    -- The last place is not the least one, so it is given by the size of `q`.
    have hexp : ulpExp F q = Int.log 2 |q| + 1 - F.mantissaBits := by
      have hmin := he.trans_lt hlt
      unfold ulpExp Format.targetExponent at hmin ⊢
      omega
    have hpos : 0 < F.mantissaBits := Nat.add_pos_left Nat.one_pos _
    refine ⟨2 ^ (F.mantissaBits - 1), ?_, ?_⟩
    · have hstep : e + 1 ≤ ulpExp F q := hlt
      rw [abs_mul, abs_of_pos (two_zpow_pos e)]
      have hn' : |(n : ℚ)| < 2 ^ F.mantissaBits := by exact_mod_cast hn
      calc |(n : ℚ)| * 2 ^ e < 2 ^ F.mantissaBits * 2 ^ e := mul_lt_mul_of_pos_right hn' (two_zpow_pos e)
        _ = 2 ^ (F.mantissaBits - 1) * 2 ^ (e + 1) := by
          rw [zpow_add₀ two_ne_zero, ← Nat.succ_pred_eq_of_pos hpos, pow_succ]
          simp only [Nat.pred_eq_sub_one, Nat.succ_eq_add_one, Nat.add_sub_cancel, zpow_one]
          ring
        _ ≤ ((2 ^ (F.mantissaBits - 1) : ℤ) : ℚ) * 2 ^ ulpExp F q := by
          push_cast
          exact mul_le_mul_of_nonneg_left (two_zpow_le hstep) (by positivity)
    · have hlog := Int.zpow_log_le_self one_lt_two (abs_pos.2 hq)
      refine le_trans (le_of_eq ?_) hlog
      push_cast
      rw [← zpow_natCast, ← zpow_add₀ two_ne_zero, hexp]
      congr 1
      omega

/-- **No number of the format lies between a number and what it is rounded to.** -/
theorem le_rnd (h : Representable F c) (hle : c ≤ q) : c ≤ rnd F q := by
  have hulp := two_zpow_pos (ulpExp F q)
  -- It is enough to find an integer number of last places between the two.
  have hstep : ∀ n : ℤ, c ≤ n * 2 ^ ulpExp F q → n * 2 ^ ulpExp F q ≤ q → c ≤ rnd F q := by
    intro n hcn hnq
    have hn : n ≤ nearest (q / 2 ^ ulpExp F q) := le_nearest ((le_div_iff₀ hulp).2 hnq)
    have hn' : (n : ℚ) ≤ nearest (q / 2 ^ ulpExp F q) := by exact_mod_cast hn
    exact hcn.trans (mul_le_mul_of_nonneg_right hn' hulp.le)
  by_cases hq : q = 0
  · subst hq
    exact hstep 0 (by simpa using hle) (by simp)
  rcases h.cases q hq with ⟨n, rfl⟩ | ⟨k, hck, hkq⟩
  · exact hstep n le_rfl hle
  · rcases le_or_gt 0 q with hpos | hneg
    · rw [abs_of_nonneg hpos] at hkq
      exact hstep k ((le_abs_self c).trans hck.le) hkq
    · -- `c` is nearer to zero.
      rw [abs_of_neg hneg] at hkq
      have hc := neg_abs_le c
      linarith

theorem rnd_le (h : Representable F c) (hle : q ≤ c) : rnd F q ≤ c := by
  have hneg := le_rnd h.neg (neg_le_neg hle)
  rw [rnd_neg] at hneg
  exact neg_le_neg_iff.1 hneg

theorem rnd_of_representable (h : Representable F q) : rnd F q = q :=
  le_antisymm (rnd_le h le_rfl) (le_rnd h le_rfl)

/-- **What rounding costs**: half of the last place, which is a small part of the number or the least there
is. -/
theorem abs_rnd_sub_le (q : ℚ) :
    |rnd F q - q| ≤ |q| / 2 ^ F.mantissaBits + 2 ^ (F.minExponent - 1) := by
  have hulp := two_zpow_pos (ulpExp F q)
  have hhalf : |rnd F q - q| ≤ 2 ^ (ulpExp F q - 1) := by
    have hsplit : rnd F q - q = (nearest (q / 2 ^ ulpExp F q) - q / 2 ^ ulpExp F q) * 2 ^ ulpExp F q := by
      rw [sub_mul, div_mul_cancel₀ _ hulp.ne', rnd]
    rw [hsplit, abs_mul, abs_of_pos hulp, zpow_sub_one₀ two_ne_zero, mul_comm ((2 : ℚ) ^ _), inv_eq_one_div]
    exact mul_le_mul_of_nonneg_right (abs_nearest_sub_le _) hulp.le
  have hmin := two_zpow_pos (F.minExponent - 1)
  have hrel : 0 ≤ |q| / 2 ^ F.mantissaBits := by positivity
  by_cases hq : q = 0
  · subst hq
    have hzero : rnd F 0 = 0 := rnd_of_representable .zero
    rw [hzero, sub_zero, abs_zero]
    positivity
  rcases max_choice (Int.log 2 |q| + 1 - F.mantissaBits) F.minExponent with h | h
  · have hlog := Int.zpow_log_le_self one_lt_two (abs_pos.2 hq)
    have hexp : (2 : ℚ) ^ (ulpExp F q - 1) ≤ |q| / 2 ^ F.mantissaBits := by
      rw [le_div_iff₀ (by positivity), ← zpow_natCast, ← zpow_add₀ two_ne_zero]
      refine (two_zpow_le ?_).trans hlog
      rw [ulpExp, Format.targetExponent, h]
      omega
    linarith
  · have hexp : ulpExp F q = F.minExponent := h
    rw [hexp] at hhalf
    linarith

end
end Ieee
