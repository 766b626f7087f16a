import Gardal.Cell.Alone
import Gardal.ZeroTime
/-!
# What a call amounts to when it runs alone

`Request.outcome` is the closed form of every call: its response and the new zero time, from the
zero time it finds. `code_runLocal` proves it of the code over `LocalStorage`, for every number of
iterations from two on that the loops are allowed; the borrowing loop never goes round more than
that.
-/
namespace Gardal
open Cell TokenBucketStorage RawTokenBucket

/-- The response and the new zero time of a call that runs alone. -/
def Request.outcome (limit : Limit) (req : Request) (zt : ℚ) : Response × ℚ :=
  let available := limit.balance req.now zt
  match req.call with
  | .consume k =>
    if available < k.toRat then (.consume none, zt)
    else (.consume (some ⟨k.toRat⟩), limit.charged req.now zt k.toRat)
  | .tryConsume k =>
    if available < k.toRat then
      (.tryConsume (.error ⟨⟨zt - req.now + k.toRat / limit.rate⟩⟩), zt)
    else (.tryConsume (.ok ⟨k.toRat⟩), limit.charged req.now zt k.toRat)
  | .saturatingConsume k =>
    if available ≤ 0 then (.saturatingConsume none, zt)
    else (.saturatingConsume (some ⟨min available k.toRat⟩),
      limit.charged req.now zt (min available k.toRat))
  | .consumeWithBorrow k =>
    let debtPaid := limit.charged req.now zt k.toRat
    if limit.burst < k.toRat then (.consumeWithBorrow (.error .exceededBurstCapacity), zt)
    else if debtPaid ≤ req.now then (.consumeWithBorrow (.ok none), debtPaid)
    else (.consumeWithBorrow (.ok (some ⟨debtPaid - req.now⟩)), debtPaid)
  | .saturatingConsumeWithBorrow k =>
    let taken := min k.toRat limit.burst
    let debtPaid := limit.charged req.now zt taken
    if debtPaid ≤ req.now then (.saturatingConsumeWithBorrow (none, ⟨0⟩), debtPaid)
    else (.saturatingConsumeWithBorrow (some ⟨taken⟩, ⟨debtPaid - req.now⟩), debtPaid)
  | .addTokens tokens => (.addTokens, zt - tokens / limit.rate)

/-! ## The storage loops -/

section
variable {limit : Limit} {now zt k : ℚ} {fuel : Nat}

theorem consume_exactly_runLocal (hf : 0 < fuel) (hk : 0 < k) :
    (TokenBucketStorage.consume limit.rate limit.burst now (exactly k)).runLocal fuel zt =
      some (if limit.balance now zt < k then (0, zt) else (k, limit.charged now zt k)) := by
  unfold TokenBucketStorage.consume
  rw [casLoop_runLocal hf, consumeStep_eq]
  by_cases h : limit.balance now zt < k
  · simp [exactly_of_lt h, h]
  · simp [exactly_of_le (not_lt.1 h), h, hk.ne']

theorem consume2_exactly_runLocal (hf : 0 < fuel) (hk : 0 < k) :
    (consume2 limit.rate limit.burst now (exactly k)).runLocal fuel zt =
      some (if limit.balance now zt < k then (.zeroedAt zt, zt)
        else (.acquired k, limit.charged now zt k)) := by
  unfold consume2
  rw [casLoop_runLocal hf, consume2Step_eq]
  by_cases h : limit.balance now zt < k
  · simp [exactly_of_lt h, h]
  · simp [exactly_of_le (not_lt.1 h), h, hk.ne']

theorem saturatingConsumeInner_empty (hf : 0 < fuel) (hk : 0 < k) (ha : limit.balance now zt ≤ 0) :
    (saturatingConsumeInner k now limit).runLocal fuel zt = some (0, zt) := by
  unfold saturatingConsumeInner TokenBucketStorage.consume
  rw [casLoop_runLocal hf, consumeStep_eq, upTo_of_nonpos hk.le ha, if_pos rfl]
  rfl

theorem saturatingConsumeInner_drain (hf : 0 < fuel) (hk : 0 < k) (ha : 0 < limit.balance now zt) :
    (saturatingConsumeInner k now limit).runLocal fuel zt =
      some (min (limit.balance now zt) k, limit.charged now zt (min (limit.balance now zt) k)) := by
  unfold saturatingConsumeInner TokenBucketStorage.consume
  rw [casLoop_runLocal hf, consumeStep_eq, upTo_of_pos ha, if_neg (lt_min ha hk).ne']
  rfl

theorem returnTokens_runLocal (hf : 0 < fuel) (tokens rate : ℚ) :
    (returnTokens tokens rate).runLocal fuel zt = some (zt - tokens / rate, zt - tokens / rate) := by
  unfold returnTokens
  rw [casLoop_runLocal hf]
  rfl

/-! ## The borrowing loop -/

variable {R : Type} {borrowed : ℚ → R} {paid : R}

theorem borrowStep_paid_runLocal (hk : k ≤ 0) :
    (borrowStep now limit borrowed paid k).runLocal fuel zt = some (.inr paid, zt) := by
  unfold borrowStep
  rw [if_neg (not_lt.2 hk)]
  rfl

theorem borrowStep_drain_runLocal (hf : 0 < fuel) (hk : 0 < k) (ha : 0 < limit.balance now zt) :
    (borrowStep now limit borrowed paid k).runLocal fuel zt =
      some (.inl (k - min (limit.balance now zt) k),
        limit.charged now zt (min (limit.balance now zt) k)) := by
  unfold borrowStep
  rw [if_pos hk, Prog.bind_eq_bind, Prog.runLocal_bind (saturatingConsumeInner_drain hf hk ha),
    if_pos (lt_min ha hk)]
  rfl

theorem borrowStep_borrow_runLocal (borrowed : ℚ → R) (paid : R) (hf : 0 < fuel) (hk : 0 < k)
    (ha : limit.balance now zt ≤ 0) :
    (borrowStep now limit borrowed paid k).runLocal fuel zt =
      some (.inr (borrowed (zt + k / limit.rate - now)), zt + k / limit.rate) := by
  have hd : 0 < k / limit.rate := div_pos hk limit.rate_pos
  have hnow : now ≤ zt := limit.balance_nonpos_iff.1 ha
  unfold borrowStep
  rw [if_pos hk, Prog.bind_eq_bind, Prog.runLocal_bind (saturatingConsumeInner_empty hf hk ha),
    if_neg (lt_irrefl _), Prog.bind_eq_bind, Prog.runLocal_bind (returnTokens_runLocal hf _ _)]
  have hzt : zt - -k / limit.rate = zt + k / limit.rate := by ring
  simp only [timeWhenBucket, Prog.bind_eq_bind, Prog.pure_eq_ret, Prog.runLocal, Access.performLocal,
    hzt, zero_div, add_zero]
  rw [max_eq_left (by linarith)]

/-- The whole loop: it charges `k`, and borrows exactly when that leaves the bucket in debt. -/
theorem borrowLoop_runLocal (hf : 2 ≤ fuel) (hk : 0 < k) :
    (Prog.loop (borrowStep now limit borrowed paid) k).runLocal fuel zt =
      some (if limit.charged now zt k ≤ now then paid else borrowed (limit.charged now zt k - now),
        limit.charged now zt k) := by
  obtain ⟨fuel, rfl⟩ : ∃ n, fuel = n + 2 := ⟨fuel - 2, by omega⟩
  simp only [Prog.runLocal]
  rcases le_or_gt (limit.balance now zt) 0 with ha | ha
  · -- Nothing to drain: all of it is debt, in the first iteration.
    have hnow : now ≤ zt := limit.balance_nonpos_iff.1 ha
    have hneg : ¬ limit.charged now zt k ≤ now := by
      rw [limit.charged_le_now_iff]
      linarith
    rw [if_neg hneg, limit.charged_of_now_le hnow]
    exact Prog.iterate_done (borrowStep_borrow_runLocal _ _ (by omega) hk ha) (by omega)
  · rw [Prog.iterate_again (borrowStep_drain_runLocal (by omega) hk ha)]
    rcases le_or_gt k (limit.balance now zt) with hle | hlt
    · -- The drain covers it: the second iteration leaves the loop.
      rw [min_eq_right hle, if_pos (limit.charged_le_now_iff.2 hle)]
      exact Prog.iterate_done (borrowStep_paid_runLocal (by linarith)) (by omega)
    · -- The drain empties the bucket: the second iteration borrows the rest.
      rw [min_eq_left hlt.le, limit.charged_balance, if_neg (not_le.2 (limit.lt_charged_iff.2 hlt))]
      have hempty : limit.balance now now ≤ 0 := limit.balance_nonpos_iff.2 le_rfl
      have hnew : now + (k - limit.balance now zt) / limit.rate = limit.charged now zt k := by
        rw [← limit.zeroTimeNew_eq]
        ring
      have hstep := borrowStep_borrow_runLocal borrowed paid (show 0 < fuel + 2 by omega)
        (sub_pos.2 hlt) hempty
      rw [hnew] at hstep
      exact Prog.iterate_done hstep (by omega)

/-- `consume_with_borrow` alone, for what else calls it. -/
theorem consumeWithBorrow_runLocal (k : NonZeroU32) (hf : 2 ≤ fuel) :
    (consumeWithBorrow k now limit).runLocal fuel zt =
      some (if limit.burst < k.toRat then (.error .exceededBurstCapacity, zt)
        else if limit.charged now zt k.toRat ≤ now then (.ok none, limit.charged now zt k.toRat)
        else (.ok (some ⟨limit.charged now zt k.toRat - now⟩), limit.charged now zt k.toRat)) := by
  unfold consumeWithBorrow
  by_cases hb : limit.burst < k.toRat
  · simp only [if_pos hb]
    rfl
  · simp only [if_neg hb]
    rw [borrowLoop_runLocal hf k.toRat_pos]
    by_cases h : limit.charged now zt k.toRat ≤ now
    · simp only [if_pos h]
    · have hpos : ¬ limit.charged now zt k.toRat - now ≤ 0 := by linarith
      simp only [if_neg h, Nanos.newChecked, Nanos.fromSecsF64Unchecked, if_neg hpos]

end

/-! ## The calls -/

/-- **Every call, run alone.** -/
theorem code_runLocal (limit : Limit) (req : Request) {fuel : Nat} (hf : 2 ≤ fuel) (zt : ℚ) :
    (req.code limit).runLocal fuel zt = some (req.outcome limit zt) := by
  have hf0 : 0 < fuel := by omega
  obtain ⟨call, now⟩ := req
  cases call with
  | consume k =>
    simp only [Request.code, Request.outcome, RawTokenBucket.consume, Prog.bind_eq_bind, Prog.runLocal,
      consume_exactly_runLocal hf0 k.toRat_pos, Prog.pure_eq_ret]
    split <;> simp [Tokens.newChecked, Tokens.newUnchecked, k.toRat_ne_zero]
  | tryConsume k =>
    simp only [Request.code, Request.outcome, tryConsume, Prog.bind_eq_bind, Prog.runLocal,
      consume2_exactly_runLocal hf0 k.toRat_pos, Prog.pure_eq_ret]
    split <;> rfl
  | saturatingConsume k =>
    simp only [Request.code, Request.outcome, saturatingConsume, Prog.bind_eq_bind, Prog.runLocal,
      Prog.pure_eq_ret]
    rcases le_or_gt (limit.balance now zt) 0 with ha | ha
    · rw [saturatingConsumeInner_empty hf0 k.toRat_pos ha, if_pos ha]
      rfl
    · have hpos : 0 < min (limit.balance now zt) k.toRat := lt_min ha k.toRat_pos
      rw [saturatingConsumeInner_drain hf0 k.toRat_pos ha, if_neg (not_le.2 ha)]
      simp [Tokens.newChecked, Tokens.newUnchecked, hpos.ne']
  | consumeWithBorrow k =>
    simp only [Request.code, Request.outcome, Prog.bind_eq_bind, Prog.runLocal,
      consumeWithBorrow_runLocal k hf, Prog.pure_eq_ret]
    split
    · rfl
    · split <;> rfl
  | saturatingConsumeWithBorrow k =>
    have hk : 0 < min k.toRat limit.burst := lt_min k.toRat_pos limit.burst_pos
    simp only [Request.code, Request.outcome, saturatingConsumeWithBorrow, Prog.bind_eq_bind,
      Prog.runLocal_bind (borrowLoop_runLocal hf hk), Prog.pure_eq_ret, Prog.runLocal_ret]
    split
    · rfl
    · simp [Tokens.newChecked, Tokens.newUnchecked, Duration.fromSecsF64, hk.ne']
  | addTokens tokens =>
    simp only [Request.code, Request.outcome, addTokens, Prog.bind_eq_bind, Prog.runLocal,
      returnTokens_runLocal hf0, Prog.pure_eq_ret]

/-! ## Spurious failures -/

theorem borrowStep_steady {R : Type} (now : ℚ) (limit : Limit) (borrowed : ℚ → R) (paid : R) (k : ℚ) :
    (borrowStep now limit borrowed paid k).Steady := by
  unfold borrowStep
  split
  · refine .bind (.casLoop _ _) fun consumed => ?_
    split
    · exact .ret _
    · exact .bind (.casLoop _ _) fun _ => .bind (.bind (.load _) fun _ => .ret _) fun _ => .ret _
  · exact .ret _

theorem consumeWithBorrow_steady (k : NonZeroU32) (now : ℚ) (limit : Limit) :
    (consumeWithBorrow k now limit).Steady := by
  unfold consumeWithBorrow
  split
  · exact .ret _
  · exact .loop _ fun _ => borrowStep_steady _ _ _ _ _

/-! ## Calls made one at a time -/

/-- Calls made one at a time over `LocalStorage`: their responses and the final zero time. -/
def runCalls (limit : Limit) (fuel : Nat) : List Request → ℚ → Option (List Response × ℚ)
  | [], zt => some ([], zt)
  | req :: reqs, zt => do
    let (r, zt') ← (req.code limit).runLocal fuel zt
    let (rs, zt'') ← runCalls limit fuel reqs zt'
    return (r :: rs, zt'')

theorem runCalls_eq (limit : Limit) {fuel : Nat} (hf : 2 ≤ fuel) (reqs : List Request) (zt : ℚ) :
    runCalls limit fuel reqs zt = some (replay (Request.outcome limit) reqs zt) := by
  induction reqs generalizing zt with
  | nil => rfl
  | cons req reqs ih =>
    rw [runCalls, code_runLocal limit req hf]
    simp [ih, replay]

end Gardal
