import Gardal.RateSafety
import Gardal.Sequential
/-!
# Rate conformance, borrowed tokens included

A borrower that waits as long as it is told to is admitted at its clock reading plus the wait. With
every call admitted at that time the bucket is a `Ledger.History` again, whatever order the clock
readings come in: the wait is exactly what brings the admission to the new zero time, so debt never
lets a grant happen before the tokens are there.
-/
namespace Gardal
open Cell Stretch Ledger

/-- What a finished call enters in the ledger when borrowing counts: the whole request of a borrower,
at the time it is admitted. -/
def Request.admission (limit : Limit) (req : Request) (r : Response) : Option (Entry ℚ) :=
  match req.call, r with
  | .consumeWithBorrow k, .consumeWithBorrow (.ok none) => some (.grant req.now k.toRat)
  | .consumeWithBorrow k, .consumeWithBorrow (.ok (some wait)) =>
    some (.grant (req.now + wait.secs) k.toRat)
  | .saturatingConsumeWithBorrow k, .saturatingConsumeWithBorrow (_, wait) =>
    some (.grant (req.now + wait.secs) (min k.toRat limit.burst))
  | _, _ => req.entry r

/-- The ledger of calls made one at a time. -/
def admissions (limit : Limit) (reqs : List Request) (rs : List Response) : List (Entry ℚ) :=
  (reqs.zip rs).filterMap fun x => x.1.admission limit x.2

/-- A request that may borrow is admitted when the zero time it leaves behind has come, or at once. -/
theorem borrow_moves (limit : Limit) (now zt : ℚ) {k : ℚ} (hk : 0 ≤ k) (hb : k ≤ limit.burst) :
    (Entry.grant (if limit.charged now zt k ≤ now then now else now + (limit.charged now zt k - now))
      k).Moves limit.rate limit.burst zt (limit.charged now zt k) := by
  have h := limit.charged_moves now zt hk hb
  split
  · rename_i hle
    rwa [max_eq_left hle] at h
  · rename_i hgt
    rw [max_eq_right (not_le.1 hgt).le] at h
    rwa [add_sub_cancel]

/-- One call, in its turn, is one move of the ledger or changes nothing. -/
theorem outcome_moves (limit : Limit) (req : Request) (zt : ℚ) :
    match req.admission limit (req.outcome limit zt).1 with
    | none => zt ≤ (req.outcome limit zt).2
    | some e => e.Moves limit.rate limit.burst zt (req.outcome limit zt).2 := by
  obtain ⟨call, now⟩ := req
  cases call with
  | consume k | tryConsume k =>
    by_cases h : limit.balance now zt < k.toRat
    · simp only [Request.outcome, if_pos h]
      exact le_rfl
    · simp only [Request.outcome, if_neg h]
      exact limit.charged_moves_now k.toRat_pos.le (not_lt.1 h)
  | saturatingConsume k =>
    by_cases h : limit.balance now zt ≤ 0
    · simp only [Request.outcome, if_pos h]
      exact le_rfl
    · simp only [Request.outcome, if_neg h]
      exact limit.charged_moves_now (le_min (not_le.1 h).le k.toRat_pos.le) (min_le_left _ _)
  | consumeWithBorrow k =>
    by_cases hb : limit.burst < k.toRat
    · simp only [Request.outcome, if_pos hb]
      exact le_rfl
    · have hm := borrow_moves limit now zt k.toRat_pos.le (not_lt.1 hb)
      by_cases h : limit.charged now zt k.toRat ≤ now
      · simp only [Request.outcome, if_neg hb, if_pos h]
        rwa [if_pos h] at hm
      · simp only [Request.outcome, if_neg hb, if_neg h]
        rwa [if_neg h] at hm
  | saturatingConsumeWithBorrow k =>
    have hm := borrow_moves limit now zt (le_min k.toRat_pos.le limit.burst_pos.le)
      (min_le_right k.toRat limit.burst)
    by_cases h : limit.charged now zt (min k.toRat limit.burst) ≤ now
    · simp only [Request.outcome, if_pos h]
      rw [if_pos h] at hm
      simpa [Request.admission] using hm
    · simp only [Request.outcome, if_neg h]
      rwa [if_neg h] at hm
  | addTokens tokens => exact le_rfl

theorem replay_history {limit : Limit} {v₀ zt : ℚ} {l : List (Entry ℚ)}
    (h : History limit.rate limit.burst v₀ l zt) (reqs : List Request) :
    History limit.rate limit.burst v₀
      (l ++ admissions limit reqs (replay (Request.outcome limit) reqs zt).1)
      (replay (Request.outcome limit) reqs zt).2 := by
  induction reqs generalizing l zt with
  | nil => simpa [admissions, replay] using h
  | cons req reqs ih =>
    have hm := outcome_moves limit req zt
    cases ha : req.admission limit (req.outcome limit zt).1 with
    | none =>
      rw [ha] at hm
      simpa [admissions, replay, ha] using ih (h.rise hm)
    | some e =>
      rw [ha] at hm
      simpa [admissions, replay, ha] using ih (h.entry hm)

/-- **Rate conformance.** The tokens taken by the calls admitted in `[t₁, t₂]` are at most
`burst + rate * (t₂ - t₁)` and what `add_tokens` put back between the first and the last of them. -/
theorem rate_conformance (limit : Limit) (zt : ℚ) (reqs : List Request) {fuel : Nat} (hf : 2 ≤ fuel)
    {t₁ t₂ : ℚ} (ht : t₁ ≤ t₂) :
    ∃ rs zt', runCalls limit fuel reqs zt = some (rs, zt') ∧ rs.length = reqs.length ∧
      granted t₁ t₂ (admissions limit reqs rs) ≤ limit.burst + limit.rate * (t₂ - t₁) +
        refunds (between (Entry.inWindow t₁ t₂) (admissions limit reqs rs)) := by
  refine ⟨_, _, runCalls_eq limit hf reqs zt, replay_length _ _ _, ?_⟩
  have h := replay_history (History.start : History limit.rate limit.burst zt [] zt) reqs
  rw [List.nil_append] at h
  exact window_bound limit.rate_pos limit.burst_pos.le ht h

/-- A burst, two debts one second and two seconds out, and a refund between them: four tokens in two
seconds of which one had been put back. -/
theorem rate_conformance_debts :
    let limit := Limit.perSecond ⟨1, by decide⟩
    let one : NonZeroU32 := ⟨1, by decide⟩
    let reqs : List Request := [⟨.consumeWithBorrow one, 1⟩, ⟨.consumeWithBorrow one, 1⟩,
      ⟨.addTokens ⟨1, by decide⟩, 1⟩, ⟨.saturatingConsumeWithBorrow one, 1⟩, ⟨.consumeWithBorrow one, 1⟩]
    ∃ rs zt', runCalls limit 2 reqs 0 = some (rs, zt') ∧ rs.length = 5 ∧
      granted 1 3 (admissions limit reqs rs) ≤ 1 + 1 * (3 - 1) +
        refunds (between (Entry.inWindow 1 3) (admissions limit reqs rs)) :=
  rate_conformance _ 0 _ le_rfl (by norm_num)

end Gardal
