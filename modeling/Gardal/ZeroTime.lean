import Gardal.Ledger
import Gardal.RawBucket
import Mathlib.Tactic.Ring
/-!
# Arithmetic of the zero time

Whatever path the code takes, a request moves the zero time in one of two ways. Taking `amount` at
`now` lifts it to where the burst cap would have it (`Limit.capped`) and then by `amount / rate`
(`Limit.charged`); returning tokens lowers it by `tokens / rate`. The loops of the storage are
rewritten here to these two functions, and so are the two closures they are run with.
-/
namespace Gardal
open Cell TokenBucketStorage RawTokenBucket

namespace Limit
variable (limit : Limit) (now zt c d : ℚ)

/-- The balance of a bucket with this limit. -/
abbrev balance : ℚ := balanceOf limit.rate limit.burst now zt

/-- The zero time with the burst cap applied at `now`. -/
def capped : ℚ := max zt (now - limit.burst / limit.rate)

/-- The zero time after `c` tokens are taken at `now`. -/
def charged : ℚ := limit.capped now zt + c / limit.rate

theorem le_capped : zt ≤ limit.capped now zt := le_max_left _ _

theorem floor_le_capped : now - limit.burst / limit.rate ≤ limit.capped now zt := le_max_right _ _

variable {now zt c d}

theorem capped_of_now_le (h : now ≤ zt) : limit.capped now zt = zt := by
  unfold capped
  have hb : 0 ≤ limit.burst / limit.rate := (div_pos limit.burst_pos limit.rate_pos).le
  rw [max_eq_left]
  linarith

theorem balance_eq : limit.balance now zt = (now - limit.capped now zt) * limit.rate := by
  have hr := limit.rate_pos
  have hb : limit.burst = (now - (now - limit.burst / limit.rate)) * limit.rate := by
    field_simp
    ring
  unfold balance balanceOf capped
  rcases le_total zt (now - limit.burst / limit.rate) with h | h
  · rw [max_eq_right h, ← hb, min_eq_right]
    rw [hb]
    exact mul_le_mul_of_nonneg_right (by linarith) hr.le
  · rw [max_eq_left h, min_eq_left]
    rw [hb]
    exact mul_le_mul_of_nonneg_right (by linarith) hr.le

theorem balance_le_burst : limit.balance now zt ≤ limit.burst := min_le_right _ _

theorem balance_nonpos_iff : limit.balance now zt ≤ 0 ↔ now ≤ zt := by
  have hr := limit.rate_pos
  have hb := limit.burst_pos
  unfold balance balanceOf
  rw [min_le_iff, or_iff_left (not_le.2 hb), ← not_lt, mul_pos_iff_of_pos_right hr, not_lt, sub_nonpos]

/-- There is less than `c` if not as much has come in yet, or if it would not fit. -/
theorem balance_lt_iff : limit.balance now zt < c ↔ (now - zt) * limit.rate < c ∨ limit.burst < c :=
  min_lt_iff

theorem balance_neg_iff : limit.balance now zt < 0 ↔ now < zt := by
  have hr := limit.rate_pos
  rw [balance_lt_iff, or_iff_left (not_lt.2 limit.burst_pos.le), ← not_le,
    mul_nonneg_iff_of_pos_right hr, sub_nonneg, not_le]

/-- What the loops of `consume` and `consume2` compute as the new zero time. -/
theorem zeroTimeNew_eq : now - (limit.balance now zt - c) / limit.rate = limit.charged now zt c := by
  have hr := limit.rate_pos.ne'
  rw [balance_eq, charged]
  field_simp
  ring

theorem charged_le_now_iff : limit.charged now zt c ≤ now ↔ c ≤ limit.balance now zt := by
  have hr := limit.rate_pos
  rw [balance_eq, charged, ← le_sub_iff_add_le', div_le_iff₀ hr]

theorem lt_charged_iff : now < limit.charged now zt c ↔ limit.balance now zt < c := by
  rw [← not_le, charged_le_now_iff, not_le]

theorem charged_of_now_le (h : now ≤ zt) : limit.charged now zt c = zt + c / limit.rate := by
  rw [charged, limit.capped_of_now_le h]

theorem add_div_le_charged (now zt c : ℚ) : zt + c / limit.rate ≤ limit.charged now zt c := by
  have := limit.le_capped now zt
  unfold charged
  linarith

theorem le_charged (hc : 0 ≤ c) : zt ≤ limit.charged now zt c := by
  have h : 0 ≤ c / limit.rate := div_nonneg hc limit.rate_pos.le
  have := limit.add_div_le_charged now zt c
  linarith

theorem lt_charged (hc : 0 < c) : zt < limit.charged now zt c := by
  have h : 0 < c / limit.rate := div_pos hc limit.rate_pos
  have := limit.add_div_le_charged now zt c
  linarith

/-- A zero time charged once is above the cap of that moment. -/
theorem capped_charged (hc : 0 ≤ c) :
    limit.capped now (limit.charged now zt c) = limit.charged now zt c := by
  have h : 0 ≤ c / limit.rate := div_nonneg hc limit.rate_pos.le
  have := limit.floor_le_capped now zt
  unfold capped
  rw [max_eq_left]
  unfold charged
  linarith

theorem balance_charged (now zt : ℚ) (hc : 0 ≤ c) :
    limit.balance now (limit.charged now zt c) = limit.balance now zt - c := by
  have hr := limit.rate_pos.ne'
  rw [balance_eq, balance_eq, limit.capped_charged hc, charged]
  field_simp
  ring

/-- Draining everything brings the zero time to `now`. -/
theorem charged_balance : limit.charged now zt (limit.balance now zt) = now := by
  rw [← zeroTimeNew_eq, sub_self, zero_div, sub_zero]

/-- The zero time that shows a given balance. -/
theorem balance_set : limit.balance now (now - c / limit.rate) = min c limit.burst := by
  have hr := limit.rate_pos.ne'
  have hc : (now - (now - c / limit.rate)) * limit.rate = c := by
    field_simp
    ring
  unfold balance balanceOf
  rw [hc]

open Ledger in
/-- Taking up to a burst is a grant at the time at which the tokens are there: `now`, or the new
zero time if the bucket goes into debt. -/
theorem charged_moves (now zt : ℚ) (hc : 0 ≤ c) (hb : c ≤ limit.burst) :
    (Entry.grant (max now (limit.charged now zt c)) c).Moves limit.rate limit.burst zt
      (limit.charged now zt c) := by
  have hroom : 0 ≤ (limit.burst - c) / limit.rate := div_nonneg (by linarith) limit.rate_pos.le
  refine ⟨hc, limit.add_div_le_charged now zt c, ?_, le_max_right _ _⟩
  rw [sub_le_iff_le_add]
  refine max_le ?_ (by linarith)
  have hfloor := limit.floor_le_capped now zt
  rw [sub_div, charged]
  linarith

open Ledger in
/-- Without debt the grant is at `now`. -/
theorem charged_moves_now (hc : 0 ≤ c) (ha : c ≤ limit.balance now zt) :
    (Entry.grant now c).Moves limit.rate limit.burst zt (limit.charged now zt c) := by
  have h := limit.charged_moves now zt hc (ha.trans limit.balance_le_burst)
  rwa [max_eq_left (limit.charged_le_now_iff.2 ha)] at h

end Limit

/-! ## The closures -/

section
variable {k a : ℚ}

theorem exactly_of_lt (h : a < k) : exactly k a = 0 := if_pos h

theorem exactly_of_le (h : k ≤ a) : exactly k a = k := if_neg (not_lt.2 h)

theorem upTo_nonneg (hk : 0 ≤ k) : 0 ≤ upTo k a := le_min (le_max_right _ _) hk

theorem upTo_le : upTo k a ≤ k := min_le_right _ _

theorem upTo_of_nonpos (hk : 0 ≤ k) (ha : a ≤ 0) : upTo k a = 0 := by
  rw [upTo, max_eq_right ha, min_eq_left hk]

theorem upTo_of_pos (ha : 0 < a) : upTo k a = min a k := by
  rw [upTo, max_eq_left ha.le]

theorem upTo_eq_zero_iff (hk : 0 < k) : upTo k a = 0 ↔ a ≤ 0 := by
  constructor
  · intro h
    by_contra ha
    have hpos : 0 < min a k := lt_min (not_le.1 ha) hk
    rw [upTo_of_pos (not_le.1 ha)] at h
    exact hpos.ne' h
  · exact upTo_of_nonpos hk.le

theorem upTo_le_avail (hk : 0 < k) (h : upTo k a ≠ 0) : upTo k a ≤ a := by
  have ha : 0 < a := not_le.1 fun ha => h ((upTo_eq_zero_iff hk).2 ha)
  rw [upTo_of_pos ha]
  exact min_le_left _ _

end

/-! ## The loops -/

section
variable (limit : Limit) (now : ℚ) (f : ℚ → ℚ) (zt : ℚ)

theorem consumeStep_eq : consumeStep limit.rate limit.burst now f zt =
    if f (limit.balance now zt) = 0 then .stop 0
    else .write (limit.charged now zt (f (limit.balance now zt))) (f (limit.balance now zt)) := by
  rw [← Limit.zeroTimeNew_eq]
  rfl

theorem consume2Step_eq : consume2Step limit.rate limit.burst now f zt =
    if f (limit.balance now zt) = 0 then .stop (.zeroedAt zt)
    else .write (limit.charged now zt (f (limit.balance now zt)))
      (.acquired (f (limit.balance now zt))) := by
  rw [← Limit.zeroTimeNew_eq]
  rfl

end

end Gardal
