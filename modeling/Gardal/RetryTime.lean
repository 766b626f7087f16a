import Gardal.Conservation
import Gardal.Reference
/-!
# The wait of `try_consume`

A refused `try_consume(k)` reports `zt - now + k / rate`, from the zero time as it is stored; the refusal
itself compares `k` with the balance, which is capped at the burst. For a `k` within the burst the
two agree, and the wait is exact (`retry_time`): it is positive, waiting that long is enough, and no
call that takes tokens makes less of it enough.

Above the burst they need not agree. `try_consume` has no guard against such a `k`, as
`consume_with_borrow` has: a full bucket refuses it however long it has been full, and from
`now = zt + k / rate` on the reported wait is zero or less (`positive_iff`).
-/
namespace Gardal
open Cell TokenBucketStorage RawTokenBucket

namespace Limit
variable (limit : Limit) {now zt k : ℚ}

/-- The reported wait is over when `k` tokens have come in since the zero time. -/
theorem wait_pos_iff : 0 < zt - now + k / limit.rate ↔ (now - zt) * limit.rate < k := by
  rw [← lt_div_iff₀ limit.rate_pos]
  constructor <;> intro h <;> linarith

theorem not_balance_lt_of_wait (hk : k ≤ limit.burst) :
    ¬ limit.balance (now + (zt - now + k / limit.rate)) zt < k := by
  have hr := limit.rate_pos.ne'
  have hin : (now + (zt - now + k / limit.rate) - zt) * limit.rate = k := by
    field_simp
    ring
  rw [balance_lt_iff, hin]
  exact not_or.2 ⟨lt_irrefl k, not_lt.2 hk⟩

end Limit

/-! ## The wait is exact -/

section
variable {limit : Limit} {now zt : ℚ} {k : NonZeroU32}

theorem tryConsume_refused (h : limit.balance now zt < k.toRat) :
    Request.outcome limit ⟨.tryConsume k, now⟩ zt =
      (.tryConsume (.error ⟨⟨zt - now + k.toRat / limit.rate⟩⟩), zt) := by
  simp only [Request.outcome, if_pos h]

theorem tryConsume_granted (h : ¬ limit.balance now zt < k.toRat) :
    Request.outcome limit ⟨.tryConsume k, now⟩ zt =
      (.tryConsume (.ok ⟨k.toRat⟩), limit.charged now zt k.toRat) := by
  simp only [Request.outcome, if_neg h]

/-- What is known of a refusal. -/
theorem refused_of_error {e : RateLimited} {zt₁ : ℚ}
    (h : Request.outcome limit ⟨.tryConsume k, now⟩ zt = (.tryConsume (.error e), zt₁)) :
    limit.balance now zt < k.toRat ∧ e.earliestRetryTime.secs = zt - now + k.toRat / limit.rate ∧
      zt₁ = zt := by
  by_cases hlt : limit.balance now zt < k.toRat
  · rw [tryConsume_refused hlt] at h
    cases h
    exact ⟨hlt, rfl, rfl⟩
  · rw [tryConsume_granted hlt] at h
    cases h

/-- Only `add_tokens` puts the zero time back. -/
theorem le_outcome {req : Request} (h : req.call.isAddTokens = false) :
    zt ≤ (req.outcome limit zt).2 := by
  obtain ⟨call, now⟩ := req
  cases call with
  | consume k | tryConsume k =>
    simp only [Request.outcome]
    split
    · exact le_rfl
    · exact limit.le_charged k.toRat_pos.le
  | saturatingConsume k =>
    simp only [Request.outcome]
    split
    · exact le_rfl
    · rename_i ha
      exact limit.le_charged (le_min (not_le.1 ha).le k.toRat_pos.le)
  | consumeWithBorrow k =>
    have hle : zt ≤ limit.charged now zt k.toRat := limit.le_charged k.toRat_pos.le
    simp only [Request.outcome]
    split
    · exact le_rfl
    · split <;> exact hle
  | saturatingConsumeWithBorrow k =>
    have hle : zt ≤ limit.charged now zt (min k.toRat limit.burst) :=
      limit.le_charged (le_min k.toRat_pos.le limit.burst_pos.le)
    simp only [Request.outcome]
    split <;> exact hle
  | addTokens tokens => cases h

theorem le_replay {reqs : List Request} (h : ∀ req ∈ reqs, req.call.isAddTokens = false) :
    zt ≤ (replay (Request.outcome limit) reqs zt).2 := by
  induction reqs generalizing zt with
  | nil => exact le_rfl
  | cons req reqs ih =>
    have hstep : zt ≤ (req.outcome limit zt).2 := le_outcome (h req (List.mem_cons_self ..))
    exact hstep.trans (ih fun r hr => h r (List.mem_cons_of_mem _ hr))

end

/-- **The wait of `try_consume` is exact.** Of a refusal of `k`, within the burst: the wait is positive,
trying again after it works, and whatever other calls take tokens in between, trying again sooner
is refused. -/
theorem retry_time (limit : Limit) (zt now : ℚ) (k : NonZeroU32) (hk : k.toRat ≤ limit.burst) {fuel : Nat}
    (hf : 2 ≤ fuel) {e : RateLimited} {zt₁ : ℚ}
    (herr : (Request.code limit ⟨.tryConsume k, now⟩).runLocal fuel zt =
      some (.tryConsume (.error e), zt₁)) :
    let wait := e.earliestRetryTime.secs
    0 < wait ∧
    (∃ zt₂, (Request.code limit ⟨.tryConsume k, now + wait⟩).runLocal fuel zt₁ =
      some (.tryConsume (.ok ⟨k.toRat⟩), zt₂)) ∧
    ∀ reqs : List Request, (∀ req ∈ reqs, req.call.isAddTokens = false) →
      ∃ rs zt₂, runCalls limit fuel reqs zt₁ = some (rs, zt₂) ∧
        ∀ t < now + wait, ∃ e' zt₃, (Request.code limit ⟨.tryConsume k, t⟩).runLocal fuel zt₂ =
          some (.tryConsume (.error e'), zt₃) := by
  rw [code_runLocal _ _ hf, Option.some.injEq] at herr
  obtain ⟨hlt, hwait, rfl⟩ := refused_of_error herr
  intro wait
  have hw : wait = zt₁ - now + k.toRat / limit.rate := hwait
  rw [hw]
  refine ⟨?_, ?_, ?_⟩
  · exact limit.wait_pos_iff.2 ((limit.balance_lt_iff.1 hlt).resolve_right (not_lt.2 hk))
  · rw [code_runLocal _ _ hf, tryConsume_granted (limit.not_balance_lt_of_wait hk)]
    exact ⟨_, rfl⟩
  · intro reqs hreqs
    refine ⟨_, _, runCalls_eq limit hf reqs zt₁, fun t ht => ?_⟩
    have hup : zt₁ ≤ (replay (Request.outcome limit) reqs zt₁).2 := le_replay hreqs
    have hsoon : 0 < (replay (Request.outcome limit) reqs zt₁).2 - t + k.toRat / limit.rate := by linarith
    rw [code_runLocal _ _ hf,
      tryConsume_refused (limit.balance_lt_iff.2 (.inl (limit.wait_pos_iff.1 hsoon)))]
    exact ⟨_, _, rfl⟩

/-- Two tokens asked for when half a token is there. -/
theorem retry_time_half :
    let limit := Limit.perSecondAndBurst ⟨1, by decide⟩ ⟨3, by decide⟩
    (0 : ℚ) < 3 / 2 ∧
    (∃ zt₂, (Request.code limit ⟨.tryConsume ⟨2, by decide⟩, 1 / 2 + 3 / 2⟩).runLocal 2 0 =
      some (.tryConsume (.ok ⟨2⟩), zt₂)) ∧
    ∀ reqs : List Request, (∀ req ∈ reqs, req.call.isAddTokens = false) →
      ∃ rs zt₂, runCalls limit 2 reqs 0 = some (rs, zt₂) ∧
        ∀ t < (1 / 2 + 3 / 2 : ℚ), ∃ e' zt₃,
          (Request.code limit ⟨.tryConsume ⟨2, by decide⟩, t⟩).runLocal 2 zt₂ =
            some (.tryConsume (.error e'), zt₃) :=
  retry_time _ 0 (1 / 2) ⟨2, by decide⟩ (by decide +kernel) le_rfl (e := ⟨⟨3 / 2⟩⟩) (by decide +kernel)

/-! ## The wait over a run -/

/-- One operation of a run: the bucket it found, the reading of the clock, and the response. -/
structure Performed where
  bucket : TokenBucket
  op : Op
  now : ℚ
  response : Option Response

/-- The operations made one after another, each with its reading of the clock. -/
def TokenBucket.performAll (fuel : Nat) :
    TokenBucket → List (Op × ℚ) → Option (List Performed × TokenBucket)
  | b, [] => some ([], b)
  | b, (op, now) :: ops => do
    let (r, b') ← b.perform fuel op now
    let (steps, b'') ← performAll fuel b' ops
    return (⟨b, op, now, r⟩ :: steps, b'')

namespace Performed
variable (s : Performed)

/-- An error, if that is the response, carries a positive wait: `debug_assert!(est_time >= 0.0)` holds, the
`NonZeroU64` in `Nanos` is not zero, and `earliest_retry_after` (`error.rs:63`) has a `Duration` to
return. -/
def WaitPositive : Prop :=
  ∀ e, s.response = some (.tryConsume (.error e)) → 0 < e.earliestRetryTime.secs

/-- A `try_consume` asks for no more than the burst, or comes before as many tokens have come in since
the zero time. -/
def InTime : Prop :=
  ∀ k, s.op = .call (.tryConsume k) → k.toRat ≤ s.bucket.limit.burst ∨
    (s.now - s.bucket.zeroTime) * s.bucket.limit.rate < k.toRat

end Performed

/-- Every operation returns. -/
theorem perform_isSome {fuel : Nat} (hf : 2 ≤ fuel) (b : TokenBucket) (op : Op) (now : ℚ) :
    ∃ r b', b.perform fuel op now = some (r, b') := by
  cases op with
  | call call => exact ⟨_, _, perform_call hf b call now⟩
  | reset limit | updateLimit limit => exact ⟨_, _, rfl⟩

/-- No other call answers with a wait to retry. -/
theorem outcome_tryConsume {limit : Limit} {call : Call} {now zt : ℚ} {e : RateLimited}
    (h : (Request.outcome limit ⟨call, now⟩ zt).1 = .tryConsume (.error e)) :
    ∃ k, call = .tryConsume k := by
  cases call with
  | tryConsume k => exact ⟨k, rfl⟩
  | consume k | saturatingConsume k | saturatingConsumeWithBorrow k =>
    simp only [Request.outcome] at h
    split at h <;> cases h
  | consumeWithBorrow k =>
    simp only [Request.outcome] at h
    split at h
    · cases h
    · split at h <;> cases h
  | addTokens tokens => cases h

/-- One operation. -/
theorem waitPositive_iff_inTime {fuel : Nat} (hf : 2 ≤ fuel) {b b' : TokenBucket} {op : Op} {now : ℚ}
    {r : Option Response} (h : b.perform fuel op now = some (r, b')) :
    (Performed.mk b op now r).WaitPositive ↔ (Performed.mk b op now r).InTime := by
  cases op with
  | reset limit | updateLimit limit =>
    cases h
    constructor
    · rintro - k ⟨⟩
    · rintro - e ⟨⟩
  | call call =>
    rw [perform_call hf] at h
    cases h
    constructor
    · rintro hpos k ⟨⟩
      rw [or_iff_not_imp_left]
      intro hk
      have hlt : b.limit.balance now b.zeroTime < k.toRat :=
        b.limit.balance_lt_iff.2 (.inr (not_le.1 hk))
      have hwait := hpos ⟨⟨b.zeroTime - now + k.toRat / b.limit.rate⟩⟩ (by rw [tryConsume_refused hlt])
      exact b.limit.wait_pos_iff.1 hwait
    · rintro hin e he
      rw [Option.some.injEq] at he
      obtain ⟨k, rfl⟩ := outcome_tryConsume he
      obtain ⟨hlt, hwait, -⟩ := refused_of_error (Prod.ext he rfl)
      rw [hwait, b.limit.wait_pos_iff]
      rcases hin k rfl with hk | hin
      · exact (b.limit.balance_lt_iff.1 hlt).resolve_right (not_lt.2 hk)
      · exact hin

/-- **When the waits are positive.** Along any run of operations, from any zero time: if and only if
every `try_consume` of more than the burst comes before that many tokens have come in since the zero
time. -/
theorem positive_iff (limit : Limit) (zt : ℚ) (ops : List (Op × ℚ)) {fuel : Nat} (hf : 2 ≤ fuel) :
    ∃ steps b', TokenBucket.performAll fuel ⟨limit, zt⟩ ops = some (steps, b') ∧
      ((∀ s ∈ steps, s.WaitPositive) ↔ ∀ s ∈ steps, s.InTime) := by
  generalize TokenBucket.mk limit zt = b
  induction ops generalizing b with
  | nil => exact ⟨[], b, rfl, by simp⟩
  | cons x ops ih =>
    obtain ⟨op, now⟩ := x
    obtain ⟨r, b', hop⟩ := perform_isSome hf b op now
    obtain ⟨steps, b'', hrest, hiff⟩ := ih b'
    refine ⟨⟨b, op, now, r⟩ :: steps, b'', by simp [TokenBucket.performAll, hop, hrest], ?_⟩
    rw [List.forall_mem_cons, List.forall_mem_cons, hiff, waitPositive_iff_inTime hf hop]

/-- A bucket that is created full, filled on by a refund, and then overdrawn. -/
theorem positive_iff_refund :
    ∃ steps b', TokenBucket.performAll 2 ⟨.perSecond ⟨1, by decide⟩, 0⟩
        [(.call (.addTokens ⟨5, by decide⟩), 1), (.call (.tryConsume ⟨4, by decide⟩), 2),
          (.call (.consumeWithBorrow ⟨1, by decide⟩), 2), (.call (.tryConsume ⟨3, by decide⟩), 3)] =
        some (steps, b') ∧
      ((∀ s ∈ steps, s.WaitPositive) ↔ ∀ s ∈ steps, s.InTime) :=
  positive_iff _ _ _ le_rfl

/-- `TokenBucket::new` with one token a second and a burst of one, used for the first time at second two
and at second ten, for two tokens: no time to wait, and eight seconds ago. -/
theorem wait_zero_and_negative :
    let b : TokenBucket := ⟨.perSecond ⟨1, by decide⟩, 0⟩
    let op : Op := .call (.tryConsume ⟨2, by decide⟩)
    (b.perform 2 op 2).map Prod.fst = some (some (.tryConsume (.error ⟨⟨0⟩⟩))) ∧
      (b.perform 2 op 10).map Prod.fst = some (some (.tryConsume (.error ⟨⟨-8⟩⟩))) ∧
      ¬ ∀ steps b', b.performAll 2 [(op, 10)] = some (steps, b') → ∀ s ∈ steps, s.WaitPositive := by
  intro b op
  have hten : (b.perform 2 op 10).map Prod.fst = some (some (.tryConsume (.error ⟨⟨-8⟩⟩))) := by
    decide +kernel
  refine ⟨by decide +kernel, hten, fun h => ?_⟩
  obtain ⟨r, b', hop⟩ := perform_isSome le_rfl b op 10
  rw [hop, Option.map_some, Option.some.injEq] at hten
  have hpos := h [⟨b, op, 10, r⟩] b' (by simp [TokenBucket.performAll, hop]) _ (List.mem_singleton.2 rfl)
  have hneg : (0 : ℚ) < -8 := hpos ⟨⟨-8⟩⟩ hten
  exact absurd hneg (by decide)

end Gardal
