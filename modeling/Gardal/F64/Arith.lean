import Gardal.F64.Code
import Gardal.Tab
/-!
# What rounding does to the zero time

The arithmetic of the storage in rational numbers that are rounded after every operation. Where the exact zero
time would be lifted by the seconds a request takes, the rounded one may be lifted by a little less: no less
than some units in the last place of the burst, in seconds, and of the clock's reading (`ulps`).
-/
namespace Gardal.F64
open Ieee

theorem abs_fl_sub_lt (q : ℚ) : |fl q - q| ≤ |q| / 2 ^ 53 + 1 / 2 ^ 200 := by
  have hsmall : (1 : ℚ) / 2 ^ 1075 ≤ 1 / 2 ^ 200 :=
    one_div_le_one_div_of_le (by positivity) (pow_le_pow_right₀ one_le_two (by norm_num))
  exact (abs_fl_sub_le q).trans (add_le_add le_rfl hsmall)

section
variable {q : ℚ}

theorem fl_le_of_nonneg (h : 0 ≤ q) : fl q ≤ q + q / 2 ^ 53 + 1 / 2 ^ 200 := by
  have hle := le_abs_self (fl q - q)
  have herr := abs_fl_sub_lt q
  rw [abs_of_nonneg h] at herr
  linarith

theorem le_fl (q : ℚ) : q - |q| / 2 ^ 53 - 1 / 2 ^ 200 ≤ fl q := by
  have hle := neg_abs_le (fl q - q)
  linarith [abs_fl_sub_lt q]

end

/-- The balance as the storage computes it. -/
def roundedBalance (r b n z : ℚ) : ℚ := min (fl (fl (n - z) * r)) b

/-- The zero time as the loops of the storage compute it. -/
def roundedCharge (r n a c : ℚ) : ℚ := fl (n - fl (fl (a - c) / r))

/-- What an access may lose of the zero time `z`, at readings of up to `M` and with a burst of `B` seconds. -/
def ulps (B M z : ℚ) : ℚ := B / 2 ^ 49 + (M + |z|) / 2 ^ 53

section
variable {r b n z a c B M : ℚ}

theorem ulps_nonneg (hB : 0 ≤ B) (hM : 0 ≤ M) (z : ℚ) : 0 ≤ ulps B M z := by
  unfold ulps
  positivity

theorem roundedBalance_le_burst : roundedBalance r b n z ≤ b := min_le_right _ _

/-- An empty bucket has gained next to nothing. -/
theorem le_of_roundedBalance_nonpos (hr : 1 / 2 ^ 12 ≤ r) (hb : 1 ≤ b) (h : roundedBalance r b n z ≤ 0) :
    n ≤ z + 1 / 2 ^ 100 := by
  by_contra hlt
  have hx : 1 / 2 ^ 100 ≤ fl (n - z) := le_rnd (double_inv_two_pow (by norm_num)) (by linarith [not_le.1 hlt])
  have hmul : (1 : ℚ) / 2 ^ 112 ≤ fl (n - z) * r := by
    calc (1 : ℚ) / 2 ^ 112 = 1 / 2 ^ 100 * (1 / 2 ^ 12) := by norm_num
      _ ≤ fl (n - z) * r :=
        mul_le_mul hx hr (by norm_num) (by linarith [show (0 : ℚ) < 1 / 2 ^ 100 by norm_num])
  have hpos : (1 : ℚ) / 2 ^ 112 ≤ fl (fl (n - z) * r) := le_rnd (double_inv_two_pow (by norm_num)) hmul
  rcases min_le_iff.1 h with h | h
  · have : (0 : ℚ) < 1 / 2 ^ 112 := by norm_num
    linarith
  · linarith

/-- There is nothing at or before the zero time. -/
theorem roundedBalance_nonpos (hr : 0 ≤ r) (h : n ≤ z) : roundedBalance r b n z ≤ 0 :=
  (min_le_left _ _).trans (fl_nonpos (mul_nonpos_of_nonpos_of_nonneg (fl_nonpos (by linarith)) hr))

/-- There is something only after the zero time. -/
theorem lt_of_roundedBalance_pos (hr : 0 ≤ r) (h : 0 < roundedBalance r b n z) : z < n :=
  not_le.1 fun hle => not_lt.2 (roundedBalance_nonpos hr hle) h

/-- The seconds of a balance, which are no more than have passed, up to rounding. -/
theorem roundedBalance_div_le (hr : 1 / 2 ^ 12 ≤ r) (hB : b / r ≤ B) (hBlow : 1 / 2 ^ 32 ≤ B) (h : z ≤ n) :
    roundedBalance r b n z / r ≤ n - z + 7 * B / 2 ^ 53 := by
  have hrpos : (0 : ℚ) < r := lt_of_lt_of_le (by norm_num) hr
  have hcap : roundedBalance r b n z / r ≤ B :=
    (div_le_div_of_nonneg_right roundedBalance_le_burst hrpos.le).trans hB
  by_cases hlong : 2 * B ≤ n - z
  · linarith
  · have hx := fl_le_of_nonneg (q := n - z) (by linarith)
    have hx0 : 0 ≤ fl (n - z) := fl_nonneg (by linarith)
    have hxr := fl_le_of_nonneg (mul_nonneg hx0 hrpos.le)
    have hinv : (1 : ℚ) / 2 ^ 200 / r ≤ 1 / 2 ^ 188 := by
      rw [div_le_iff₀ hrpos]
      linarith
    have hdiv : roundedBalance r b n z / r ≤ fl (n - z) + fl (n - z) / 2 ^ 53 + 1 / 2 ^ 188 := by
      calc roundedBalance r b n z / r
          ≤ (fl (n - z) * r + fl (n - z) * r / 2 ^ 53 + 1 / 2 ^ 200) / r :=
            div_le_div_of_nonneg_right ((min_le_left _ _).trans hxr) hrpos.le
        _ = fl (n - z) + fl (n - z) / 2 ^ 53 + 1 / 2 ^ 200 / r := by
            field_simp
        _ ≤ fl (n - z) + fl (n - z) / 2 ^ 53 + 1 / 2 ^ 188 := by linarith
    linarith [not_le.1 hlong]

/-- The seconds of what is left, up to rounding. -/
theorem fl_div_le (hr : 1 / 2 ^ 12 ≤ r) (hc : c ≤ a) (hB : (a - c) / r ≤ B) (hBlow : 1 / 2 ^ 32 ≤ B) :
    fl (fl (a - c) / r) ≤ (a - c) / r + 3 * B / 2 ^ 53 := by
  have hrpos : (0 : ℚ) < r := lt_of_lt_of_le (by norm_num) hr
  have ht := fl_le_of_nonneg (sub_nonneg.2 hc)
  have ht0 : 0 ≤ fl (a - c) := fl_nonneg (sub_nonneg.2 hc)
  have hq := fl_le_of_nonneg (div_nonneg ht0 hrpos.le)
  have hinv : (1 : ℚ) / 2 ^ 200 / r ≤ 1 / 2 ^ 188 := by
    rw [div_le_iff₀ hrpos]
    linarith
  have hdiv : fl (a - c) / r ≤ (a - c) / r + (a - c) / r / 2 ^ 53 + 1 / 2 ^ 188 := by
    calc fl (a - c) / r ≤ (a - c + (a - c) / 2 ^ 53 + 1 / 2 ^ 200) / r :=
          div_le_div_of_nonneg_right ht hrpos.le
      _ = (a - c) / r + (a - c) / r / 2 ^ 53 + 1 / 2 ^ 200 / r := by ring
      _ ≤ (a - c) / r + (a - c) / r / 2 ^ 53 + 1 / 2 ^ 188 := by linarith
  linarith

theorem le_fl_div (hr : 1 / 2 ^ 12 ≤ r) (hc : c ≤ a) (hB : (a - c) / r ≤ B) (hBlow : 1 / 2 ^ 32 ≤ B) :
    (a - c) / r - 3 * B / 2 ^ 53 ≤ fl (fl (a - c) / r) := by
  have hrpos : (0 : ℚ) < r := lt_of_lt_of_le (by norm_num) hr
  have hup := fl_div_le hr hc hB hBlow
  have ht := le_fl (a - c)
  rw [abs_of_nonneg (sub_nonneg.2 hc)] at ht
  have ht' := fl_le_of_nonneg (sub_nonneg.2 hc)
  have ht0 : 0 ≤ fl (a - c) := fl_nonneg (sub_nonneg.2 hc)
  have hq := le_fl (fl (a - c) / r)
  rw [abs_of_nonneg (div_nonneg ht0 hrpos.le)] at hq
  have hinv : (1 : ℚ) / 2 ^ 200 / r ≤ 1 / 2 ^ 188 := by
    rw [div_le_iff₀ hrpos]
    linarith
  have hdiv : (a - c) / r - (a - c) / r / 2 ^ 53 - 1 / 2 ^ 188 ≤ fl (a - c) / r := by
    calc (a - c) / r - (a - c) / r / 2 ^ 53 - 1 / 2 ^ 188
        ≤ (a - c) / r - (a - c) / r / 2 ^ 53 - 1 / 2 ^ 200 / r := by linarith
      _ = (a - c - (a - c) / 2 ^ 53 - 1 / 2 ^ 200) / r := by ring
      _ ≤ fl (a - c) / r := div_le_div_of_nonneg_right ht hrpos.le
  have hdiv' : fl (a - c) / r ≤ (a - c) / r + (a - c) / r / 2 ^ 53 + 1 / 2 ^ 188 := by
    calc fl (a - c) / r ≤ (a - c + (a - c) / 2 ^ 53 + 1 / 2 ^ 200) / r :=
          div_le_div_of_nonneg_right ht' hrpos.le
      _ = (a - c) / r + (a - c) / r / 2 ^ 53 + 1 / 2 ^ 200 / r := by ring
      _ ≤ (a - c) / r + (a - c) / r / 2 ^ 53 + 1 / 2 ^ 188 := by linarith
  linarith

theorem fl_div_nonneg (hr : 0 ≤ r) (hc : c ≤ a) : 0 ≤ fl (fl (a - c) / r) :=
  fl_nonneg (div_nonneg (fl_nonneg (sub_nonneg.2 hc)) hr)

/-- A drain takes the zero time no further than the clock. -/
theorem roundedCharge_le (hn : Double n) (hr : 0 ≤ r) (hc : c ≤ a) : roundedCharge r n a c ≤ n :=
  rnd_le hn (by linarith [fl_div_nonneg hr hc])

/-- Draining everything takes it to the clock. -/
theorem roundedCharge_self (hn : Double n) : roundedCharge r n a a = n := by
  have hzero : fl (0 : ℚ) = 0 := fl_of_double .zero
  rw [roundedCharge, sub_self, hzero, zero_div, hzero, sub_zero, fl_of_double hn]

/-- What is left of the balance is still in the bucket, up to rounding. -/
theorem le_roundedCharge (hr : 1 / 2 ^ 12 ≤ r) (hc0 : 0 ≤ c) (hc : c ≤ a) (ha : a / r ≤ B)
    (hBlow : 1 / 2 ^ 32 ≤ B) (hM : |n| ≤ M) :
    n + c / r ≤ roundedCharge r n a c + a / r + (5 * B + M) / 2 ^ 53 := by
  have hrpos : (0 : ℚ) < r := lt_of_lt_of_le (by norm_num) hr
  have hsplit : (a - c) / r = a / r - c / r := sub_div a c r
  have hc' : 0 ≤ c / r := div_nonneg hc0 hrpos.le
  have hq := fl_div_le hr hc (by linarith) hBlow
  have hq0 := fl_div_nonneg hrpos.le hc
  have hw := le_fl (n - fl (fl (a - c) / r))
  have habs : |n - fl (fl (a - c) / r)| ≤ M + fl (fl (a - c) / r) := by
    refine (abs_sub _ _).trans ?_
    rw [abs_of_nonneg hq0]
    linarith
  unfold roundedCharge
  linarith

/-- **What a drain takes is taken**, up to rounding: the zero time is lifted by as many seconds, and to no more
than a burst before them. -/
theorem add_le_roundedCharge (hr : 1 / 2 ^ 12 ≤ r) (hB : b / r ≤ B) (hBlow : 1 / 2 ^ 32 ≤ B) (hM : |n| ≤ M)
    (hc0 : 0 < c) (hc : c ≤ roundedBalance r b n z) :
    z + c / r ≤ roundedCharge r n (roundedBalance r b n z) c + (12 * B + M) / 2 ^ 53 ∧
      n + c / r ≤ roundedCharge r n (roundedBalance r b n z) c + B + (12 * B + M) / 2 ^ 53 := by
  have hrpos : (0 : ℚ) < r := lt_of_lt_of_le (by norm_num) hr
  have hz := lt_of_roundedBalance_pos hrpos.le (hc0.trans_le hc)
  have hcap : roundedBalance r b n z / r ≤ B :=
    (div_le_div_of_nonneg_right roundedBalance_le_burst hrpos.le).trans hB
  have hpast := roundedBalance_div_le (b := b) hr hB hBlow hz.le
  have hleft := le_roundedCharge hr hc0.le hc hcap hBlow hM
  constructor <;> linarith

/-- All that rounding may lose of what is left is less than one token. -/
theorem le_sub_of_one_le (hr : 1 / 2 ^ 12 ≤ r) (hr' : r ≤ 2 ^ 32) (hb : 1 ≤ b) (hb' : b ≤ 2 ^ 32)
    (hc1 : 1 ≤ c) (hc : c ≤ roundedBalance r b n z) :
    z ≤ n - fl (fl (roundedBalance r b n z - c) / r) := by
  have hrpos : (0 : ℚ) < r := lt_of_lt_of_le (by norm_num) hr
  have hBlow : (1 : ℚ) / 2 ^ 32 ≤ b / r := by
    rw [div_le_div_iff₀ (by norm_num) hrpos]
    linarith
  have hlt := lt_of_roundedBalance_pos hrpos.le (lt_of_lt_of_le (by linarith) hc)
  have hcap : (roundedBalance r b n z - c) / r ≤ b / r :=
    div_le_div_of_nonneg_right
      (by linarith [roundedBalance_le_burst (r := r) (b := b) (n := n) (z := z)]) hrpos.le
  have hpast := roundedBalance_div_le (n := n) (z := z) hr le_rfl hBlow hlt.le
  have hq := fl_div_le hr hc hcap hBlow
  have hone : 10 * (b / r) / 2 ^ 53 ≤ c / r := by
    have hbc : 10 * b / 2 ^ 53 ≤ c := by linarith
    calc 10 * (b / r) / 2 ^ 53 = 10 * b / 2 ^ 53 / r := by ring
      _ ≤ c / r := div_le_div_of_nonneg_right hbc hrpos.le
  rw [sub_div] at hq
  linarith

/-- Whole tokens never take the zero time back. -/
theorem le_roundedCharge_of_one_le (hr : 1 / 2 ^ 12 ≤ r) (hr' : r ≤ 2 ^ 32) (hb : 1 ≤ b) (hb' : b ≤ 2 ^ 32)
    (hz : Double z) (hc1 : 1 ≤ c) (hc : c ≤ roundedBalance r b n z) :
    z ≤ roundedCharge r n (roundedBalance r b n z) c :=
  le_rnd hz (le_sub_of_one_le hr hr' hb hb' hc1 hc)

/-- What comes in is counted, up to rounding, as long as it fits. -/
theorem le_roundedBalance_div (hr : 1 / 2 ^ 12 ≤ r) (hBlow : 1 / 2 ^ 32 ≤ b / r) (h : z ≤ n)
    (hfits : n - z ≤ b / r) : n - z - 3 * (b / r) / 2 ^ 53 ≤ roundedBalance r b n z / r := by
  have hrpos : (0 : ℚ) < r := lt_of_lt_of_le (by norm_num) hr
  have hx := le_fl (n - z)
  rw [abs_of_nonneg (sub_nonneg.2 h)] at hx
  have hx' := fl_le_of_nonneg (sub_nonneg.2 h)
  have hx0 : 0 ≤ fl (n - z) := fl_nonneg (sub_nonneg.2 h)
  have hxr := le_fl (fl (n - z) * r)
  rw [abs_of_nonneg (mul_nonneg hx0 hrpos.le)] at hxr
  have hinv : (1 : ℚ) / 2 ^ 200 / r ≤ 1 / 2 ^ 188 := by
    rw [div_le_iff₀ hrpos]
    linarith
  rw [roundedBalance, ← min_div_div_right hrpos.le]
  refine le_min ?_ ?_
  · have hdiv : fl (n - z) - fl (n - z) / 2 ^ 53 - 1 / 2 ^ 188 ≤ fl (fl (n - z) * r) / r := by
      calc fl (n - z) - fl (n - z) / 2 ^ 53 - 1 / 2 ^ 188
          ≤ fl (n - z) - fl (n - z) / 2 ^ 53 - 1 / 2 ^ 200 / r := by linarith
        _ = (fl (n - z) * r - fl (n - z) * r / 2 ^ 53 - 1 / 2 ^ 200) / r := by field_simp
        _ ≤ fl (fl (n - z) * r) / r := div_le_div_of_nonneg_right hxr hrpos.le
    linarith
  · have hpos : 0 ≤ 3 * (b / r) / 2 ^ 53 := by linarith
    linarith

/-- **What is too little is not taken.** Tokens worth less than half of the last place of the zero time do not
move it. -/
theorem roundedCharge_absorb {e : ℕ} (hr : 1 / 2 ^ 12 ≤ r) (hr' : r ≤ 2 ^ 32) (hb : 1 ≤ b) (hb' : b ≤ 2 ^ 32)
    (hz : Double z) (he : 2 ^ e ≤ z) (hc1 : 1 ≤ c) (hc : c ≤ roundedBalance r b n z) (hfits : n - z ≤ b / r)
    (hsmall : c / r + 10 * (b / r) / 2 ^ 53 < 2 ^ e / 2 ^ 53) :
    roundedCharge r n (roundedBalance r b n z) c = z := by
  have hrpos : (0 : ℚ) < r := lt_of_lt_of_le (by norm_num) hr
  have hBlow : (1 : ℚ) / 2 ^ 32 ≤ b / r := by
    rw [div_le_div_iff₀ (by norm_num) hrpos]
    linarith
  have hlt := lt_of_roundedBalance_pos hrpos.le (lt_of_lt_of_le (by linarith) hc)
  have hleft := le_roundedBalance_div hr hBlow hlt.le hfits
  have hcap : (roundedBalance r b n z - c) / r ≤ b / r :=
    div_le_div_of_nonneg_right
      (by linarith [roundedBalance_le_burst (r := r) (b := b) (n := n) (z := z)]) hrpos.le
  have hq := le_fl_div hr hc hcap hBlow
  rw [sub_div] at hq
  exact fl_absorb hz he (le_sub_of_one_le hr hr' hb hb' hc1 hc) (by linarith)

/-- What is borrowed is borrowed, up to rounding. -/
theorem add_le_roundedDebt {k : ℚ} (hr : 1 / 2 ^ 12 ≤ r) (hk : 0 ≤ k) (hB : k / r ≤ B)
    (hBlow : 1 / 2 ^ 32 ≤ B) :
    z + k / r ≤ fl (z + fl (k / r)) + (4 * B + |z|) / 2 ^ 53 := by
  have hrpos : (0 : ℚ) < r := lt_of_lt_of_le (by norm_num) hr
  have hkr := div_nonneg hk hrpos.le
  have hq0 : 0 ≤ fl (k / r) := fl_nonneg hkr
  have hq := le_fl (k / r)
  have hq' := fl_le_of_nonneg hkr
  have hw := le_fl (z + fl (k / r))
  have habs : |z + fl (k / r)| ≤ |z| + fl (k / r) := by
    refine (abs_add_le _ _).trans ?_
    rw [abs_of_nonneg hq0]
  rw [abs_of_nonneg hkr] at hq
  linarith

/-- A debt never takes the zero time back. -/
theorem le_roundedDebt {k : ℚ} (hr : 0 ≤ r) (hk : 0 ≤ k) (hz : Double z) : z ≤ fl (z + fl (k / r)) :=
  le_rnd hz (le_add_of_nonneg_right (fl_nonneg (div_nonneg hk hr)))

/-- The seconds that a drain of `c` takes off a request for `k`, up to rounding. -/
theorem rest_div_le {k : ℚ} (hr : 1 / 2 ^ 12 ≤ r) (hc0 : 0 ≤ c) (hc : c ≤ k) (hB : k / r ≤ B)
    (hBlow : 1 / 2 ^ 32 ≤ B) : (k - fl (k - c)) / r ≤ c / r + 2 * B / 2 ^ 53 := by
  have hrpos : (0 : ℚ) < r := lt_of_lt_of_le (by norm_num) hr
  have hrest := le_fl (k - c)
  rw [abs_of_nonneg (sub_nonneg.2 hc)] at hrest
  have hinv : (1 : ℚ) / 2 ^ 200 / r ≤ 1 / 2 ^ 188 := by
    rw [div_le_iff₀ hrpos]
    linarith
  calc (k - fl (k - c)) / r ≤ (c + k / 2 ^ 53 + 1 / 2 ^ 200) / r :=
        div_le_div_of_nonneg_right (by linarith) hrpos.le
    _ = c / r + k / r / 2 ^ 53 + 1 / 2 ^ 200 / r := by ring
    _ ≤ c / r + 2 * B / 2 ^ 53 := by linarith

/-- The wait that is told ends no sooner than the debt is paid, up to rounding. -/
theorem max_le_roundedWait (hM : |n| ≤ M) :
    max n z ≤ n + max (fl (z - n)) 0 + (M + |z|) / 2 ^ 53 + 1 / 2 ^ 200 := by
  have herr := le_fl (z - n)
  have habs := abs_sub z n
  have hM0 : 0 ≤ (M + |z|) / 2 ^ 53 := by linarith [abs_nonneg z, abs_nonneg n]
  refine max_le ?_ ?_
  · linarith [le_max_right (fl (z - n)) 0]
  · linarith [le_max_left (fl (z - n)) 0]

end
end Gardal.F64
