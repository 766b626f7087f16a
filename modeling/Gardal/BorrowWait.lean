import Gardal.Backlog
import Gardal.Linearizability
import Gardal.Reference
/-!
# The wait of a borrower, over a run

A borrower is told to wait from its reading of the clock to the zero time that it leaves behind. One request
adds at most `burst / rate` to that, but nothing bounds the debt the bucket carries already, and the wait
is made into a `Duration`, which holds less than `2 ^ 64` seconds, after the debt has been taken.

The zero time of a run is a `Backlog.level`: each call lifts it to `now - burst / rate` and then by
`amount / rate`. Unrolled, that gives the condition on the calls alone under which every wait fits
(`waits_fit_iff`).
-/
namespace Gardal
open Cell Backlog

/-- What a borrowing call takes, and its reading of the clock. -/
structure Borrowing where
  amount : ℚ
  now : ℚ
  deriving DecidableEq

/-- What a borrowing call takes: nothing if it is refused for asking for more than the burst. -/
def Request.borrowing (limit : Limit) (req : Request) : Option Borrowing :=
  match req.call with
  | .consumeWithBorrow k => if limit.burst < k.toRat then none else some ⟨k.toRat, req.now⟩
  | .saturatingConsumeWithBorrow k => some ⟨min k.toRat limit.burst, req.now⟩
  | _ => none

def borrowings (limit : Limit) (reqs : List Request) : List Borrowing :=
  reqs.filterMap (Request.borrowing limit)

/-- The tokens that some calls take together. -/
def totalTaken (l : List Borrowing) : ℚ := (l.map Borrowing.amount).sum

/-- The tokens taken in any stretch of consecutive calls come in within `2 ^ 64` seconds after the last
of them: if the bucket was full at the first, and, for a stretch from the start, if it was as full as
the zero time says. -/
def PaidOffInTime (limit : Limit) (zt : ℚ) (l : List Borrowing) : Prop :=
  (∀ p x, p ++ [x] <+: l → totalTaken (p ++ [x]) < limit.rate * (x.now - zt + 2 ^ 64)) ∧
  ∀ s (h : s ≠ []), s <:+: l →
    totalTaken s < limit.burst + limit.rate * ((s.getLast h).now - (s.head h).now + 2 ^ 64)

namespace Borrowing
variable (limit : Limit)

/-- Where the burst cap has the zero time. -/
def floor (x : Borrowing) : ℚ := x.now - limit.burst / limit.rate

/-- How far the charge lifts the zero time. -/
def size (x : Borrowing) : ℚ := x.amount / limit.rate

/-- A zero time from which no wait can be told. -/
def bound (x : Borrowing) : ℚ := x.now + 2 ^ 64

theorem load_size (l : List Borrowing) : load (size limit) l = totalTaken l / limit.rate := by
  induction l with
  | nil => simp [totalTaken]
  | cons x l ih => simp [totalTaken, size, add_div, ih]

/-- The unrolled zero time is below every bound when the tokens come in in time. -/
theorem stays_iff_paidOff (zt : ℚ) (l : List Borrowing) :
    Stays (floor limit) (size limit) bound zt l ↔ PaidOffInTime limit zt l := by
  have hr := limit.rate_pos
  have key : ∀ c a t : ℚ, a + c / limit.rate < t ↔ c < limit.rate * (t - a) := by
    intro c a t
    rw [← lt_sub_iff_add_lt', div_lt_iff₀' hr]
  rw [stays_iff]
  simp only [load_size, key]
  refine and_congr ?_ ?_
  · refine forall_congr' fun p => forall_congr' fun x => imp_congr_right fun _ => ?_
    have hx : bound x - zt = x.now - zt + 2 ^ 64 := by
      unfold bound
      ring
    rw [hx]
  · refine forall_congr' fun s => forall_congr' fun h => imp_congr_right fun _ => ?_
    have hs : limit.rate * (bound (s.getLast h) - floor limit (s.head h)) =
        limit.burst + limit.rate * ((s.getLast h).now - (s.head h).now + 2 ^ 64) := by
      have := hr.ne'
      unfold bound floor
      field_simp
      ring
    rw [hs]

end Borrowing

/-! ## The waits of a run -/

section
variable (limit : Limit) {req : Request} (zt : ℚ)

/-- A borrowing call that is not refused charges the zero time and reports what that leaves to wait. -/
theorem outcome_borrowing (hb : req.call.borrows = true) :
    match req.borrowing limit with
    | none => (req.outcome limit zt).1.wait = none ∧ (req.outcome limit zt).2 = zt
    | some x =>
      x.now = req.now ∧ (req.outcome limit zt).2 = limit.charged req.now zt x.amount ∧
      (req.outcome limit zt).1.wait =
        if limit.charged req.now zt x.amount ≤ req.now then none
        else some (limit.charged req.now zt x.amount - req.now) := by
  obtain ⟨call, now⟩ := req
  cases call with
  | consume k | tryConsume k | saturatingConsume k | addTokens k => cases hb
  | consumeWithBorrow k =>
    by_cases hk : limit.burst < k.toRat
    · simp [Request.borrowing, Request.outcome, hk, Response.wait]
    · by_cases h : limit.charged now zt k.toRat ≤ now <;>
        simp [Request.borrowing, Request.outcome, hk, h, Response.wait]
  | saturatingConsumeWithBorrow k =>
    by_cases h : limit.charged now zt (min k.toRat limit.burst) ≤ now <;>
      simp [Request.borrowing, Request.outcome, h, Response.wait]

/-- The waits among some responses can all be told. -/
def WaitsFit (rs : List Response) : Prop := ∀ r ∈ rs, ∀ wait, r.wait = some wait → Duration.InRange wait

theorem wait_inRange_iff (x : Borrowing) :
    (∀ wait, (if limit.charged x.now zt x.amount ≤ x.now then none
        else some (limit.charged x.now zt x.amount - x.now)) = some wait → Duration.InRange wait) ↔
      max zt (x.floor limit) + x.size limit < x.bound := by
  have hbound : max zt (x.floor limit) + x.size limit < x.bound ↔
      limit.charged x.now zt x.amount - x.now < 2 ^ 64 := by
    rw [sub_lt_iff_lt_add']
    rfl
  rw [hbound]
  by_cases h : limit.charged x.now zt x.amount ≤ x.now
  · have hlt : limit.charged x.now zt x.amount - x.now < 2 ^ 64 := by
      have : (0 : ℚ) < 2 ^ 64 := by norm_num
      linarith
    simp [h, hlt]
  · have hnonneg : 0 ≤ limit.charged x.now zt x.amount - x.now := by linarith
    simp [h, Duration.InRange, hnonneg]

theorem waitsFit_iff_stays {reqs : List Request} (hb : ∀ req ∈ reqs, req.call.borrows = true) :
    WaitsFit (replay (Request.outcome limit) reqs zt).1 ↔
      Stays (Borrowing.floor limit) (Borrowing.size limit) Borrowing.bound zt (borrowings limit reqs) := by
  induction reqs generalizing zt with
  | nil => simp [WaitsFit, replay, borrowings, Stays]
  | cons req reqs ih =>
    have hborrowing := outcome_borrowing limit zt (hb req (List.mem_cons_self ..))
    have hrest : ∀ v, WaitsFit (replay (Request.outcome limit) reqs v).1 ↔
        Stays (Borrowing.floor limit) (Borrowing.size limit) Borrowing.bound v (borrowings limit reqs) :=
      fun v => ih v fun r hr => hb r (List.mem_cons_of_mem _ hr)
    have hsplit : WaitsFit (replay (Request.outcome limit) (req :: reqs) zt).1 ↔
        (∀ wait, (req.outcome limit zt).1.wait = some wait → Duration.InRange wait) ∧
        WaitsFit (replay (Request.outcome limit) reqs (req.outcome limit zt).2).1 :=
      List.forall_mem_cons
    rw [hsplit, hrest]
    cases hx : req.borrowing limit with
    | none =>
      rw [hx] at hborrowing
      obtain ⟨hwait, hzt⟩ := hborrowing
      simp [borrowings, hx, hwait, hzt]
    | some x =>
      rw [hx] at hborrowing
      obtain ⟨hnow, hzt, hwait⟩ := hborrowing
      have hl : borrowings limit (req :: reqs) = x :: borrowings limit reqs := by simp [borrowings, hx]
      rw [hl, hzt, hwait, ← hnow, wait_inRange_iff, Stays]
      rfl

end

theorem runCalls_isSome (limit : Limit) (zt : ℚ) (reqs : List Request) {fuel : Nat} (hf : 2 ≤ fuel) :
    ∃ rs zt', runCalls limit fuel reqs zt = some (rs, zt') :=
  ⟨_, _, runCalls_eq limit hf reqs zt⟩

/-- The waits of a run fit when the debts are paid off in time. -/
theorem runCalls_waitsFit_iff (limit : Limit) (zt : ℚ) {reqs : List Request}
    (hb : ∀ req ∈ reqs, req.call.borrows = true) {fuel : Nat} (hf : 2 ≤ fuel) {rs : List Response} {zt' : ℚ}
    (h : runCalls limit fuel reqs zt = some (rs, zt')) :
    WaitsFit rs ↔ PaidOffInTime limit zt (borrowings limit reqs) := by
  rw [runCalls_eq limit hf, Option.some.injEq] at h
  rw [← Borrowing.stays_iff_paidOff, ← waitsFit_iff_stays limit zt hb, h]

/-- **When the waits fit a `Duration`.** Along any run of borrowing calls, from any zero time: if and only
if the debts are paid off in time. -/
theorem waits_fit_iff (limit : Limit) (zt : ℚ) (reqs : List Request)
    (hborrows : ∀ req ∈ reqs, req.call.borrows = true) {fuel : Nat} (hf : 2 ≤ fuel) :
    ∃ rs zt', runCalls limit fuel reqs zt = some (rs, zt') ∧
      (WaitsFit rs ↔ PaidOffInTime limit zt (borrowings limit reqs)) := by
  obtain ⟨rs, zt', h⟩ := runCalls_isSome limit zt reqs hf
  exact ⟨rs, zt', h, runCalls_waitsFit_iff limit zt hborrows hf h⟩

/-- Two debts of an hour each, and a request for more than the burst. -/
theorem waits_fit_two :
    let limit := Limit.perHour ⟨1, by decide⟩
    let reqs : List Request := [⟨.consumeWithBorrow ⟨1, by decide⟩, 0⟩,
      ⟨.saturatingConsumeWithBorrow ⟨7, by decide⟩, 5⟩, ⟨.consumeWithBorrow ⟨2, by decide⟩, 5⟩]
    ∃ rs zt', runCalls limit 2 reqs 0 = some (rs, zt') ∧
      (WaitsFit rs ↔ PaidOffInTime limit 0 (borrowings limit reqs)) :=
  waits_fit_iff _ _ _ (by decide) le_rfl

/-- One amount again and again at one reading, from an empty bucket. -/
theorem not_paidOff_replicate (limit : Limit) (x : Borrowing) {n : Nat}
    (h : limit.rate * 2 ^ 64 ≤ (n + 1 : ℕ) * x.amount) :
    ¬ PaidOffInTime limit x.now (List.replicate (n + 1) x) := by
  rintro ⟨hall, -⟩
  have hlt := hall (List.replicate n x) x (by rw [← List.replicate_succ'])
  rw [← List.replicate_succ', sub_self, zero_add, totalTaken, List.map_replicate, List.sum_replicate,
    nsmul_eq_mul] at hlt
  exact absurd h (not_le.2 hlt)

/-- One token an hour and the largest burst: each `saturating_consume_with_borrow` of all of it adds
4294967295 hours of debt. Made again and again at one reading of the clock, the call for which
that comes to `2 ^ 64` seconds is the 1193047th. -/
theorem borrowed_past_range :
    let limit := (Limit.perHour ⟨1, by decide⟩).withBurst ⟨4294967295, by decide⟩
    let reqs : List Request :=
      List.replicate 1193047 ⟨.saturatingConsumeWithBorrow ⟨4294967295, by decide⟩, 0⟩
    ∃ rs zt', runCalls limit 2 reqs 0 = some (rs, zt') ∧ ¬ WaitsFit rs := by
  intro limit reqs
  obtain ⟨rs, zt', h⟩ := runCalls_isSome limit 0 reqs le_rfl
  have hborrows : ∀ req ∈ reqs, req.call.borrows = true := by
    intro req hr
    rw [List.eq_of_mem_replicate hr]
    rfl
  refine ⟨rs, zt', h, ?_⟩
  rw [runCalls_waitsFit_iff limit 0 hborrows le_rfl h]
  have hborrowing : Request.borrowing limit ⟨.saturatingConsumeWithBorrow ⟨4294967295, by decide⟩, 0⟩ =
      some ⟨4294967295, 0⟩ := by decide +kernel
  have hl : borrowings limit reqs = List.replicate (1193046 + 1) ⟨4294967295, 0⟩ := by
    rw [borrowings, List.filterMap_replicate_of_some hborrowing]
  rw [hl]
  have hrate : limit.rate = 1 / 3600 := by decide +kernel
  refine not_paidOff_replicate limit ⟨4294967295, 0⟩ ?_
  rw [hrate]
  norm_num

end Gardal
