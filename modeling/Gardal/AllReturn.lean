import Gardal.BorrowLoop
import Gardal.StreamThreads
import Gardal.Work
/-!
# Every call returns

A thread that is given enough turns makes all its calls, whatever the other threads do, whether they go on or
stop in the middle of a call. `while to_consume > 0.0` has no bound of its own (`Gardal.Work`): a bound there is
only for a given number of accesses that lower the zero time. A poll that panics has come to its end as well
(`Outcome.panicked`).
-/
namespace Gardal
open Cell TokenBucketStorage RawTokenBucket

variable {κ Item : Type}

/-- A poll makes the accesses of one `consume_with_borrow` or none, and then answers. -/
theorem pollNext_wp {G : Type} {M : Protocol ℚ Site G} {Q : G → Prop} {g : G} (hrtime : Bool)
    (s : WeightedStream Item) (env : Env Item) (hnone : Q g)
    (hborrow : ∀ weight limit,
      (RawTokenBucket.consumeWithBorrow weight env.now limit).wp M (fun _ g' => Q g') g) :
    (s.pollNext hrtime env).wp M (fun _ g' => Q g') g := by
  obtain ⟨bucket, weightFn, delay, pendingItem⟩ := s
  obtain ⟨coop, edelay, inner, now, spurious⟩ := env
  cases coop with
  | pending => exact hnone
  | ready u =>
    cases bucket with
    | none => cases inner <;> exact hnone
    | some limit =>
      cases pendingItem with
      | some item =>
        cases delay with
        | none => exact hnone
        | some d => cases edelay <;> exact hnone
      | none =>
        rcases inner with _ | _ | item
        · exact hnone
        · exact hnone
        · refine Prog.wp_bind (hborrow (weightFn item) limit) fun r g' hg' => ?_
          rcases r with _ | _ | nap
          · exact hg'
          · exact hg'
          · cases h : nap.toDuration <;> simp only [h] <;> exact hg'

/-- The zero time is what is in the cell. -/
abbrev exactWork : Protocol ℚ Site Worker := workProtocol Site (fun v => v) fun _ => True

/-! ## Every job keeps to it -/

section
variable {limit : Limit} {now k : ℚ} {m l : ℕ} {g : Worker}

/-- What a drain of `k` leaves, begun by a load that gets inside or finds nothing. -/
def Drained (now k : ℚ) (m l : ℕ) (c : ℚ) (g : Worker) : Prop :=
  (c = 0 ∧ HasLeft (m + 3) l g) ∨ (0 < c ∧ c < k ∧ g = ⟨.drain now m, l⟩) ∨ (c = k ∧ HasLeft m l g)

theorem saturatingConsumeInner_works (hk : 0 < k)
    (henter : ∀ v, WorkMove (fun v => v) g (.load v) ⟨.inside now m, l⟩)
    (hempty : ∀ v, ∃ g', WorkMove (fun v => v) g (.load v) g' ∧ HasLeft (m + 3) l g') :
    (saturatingConsumeInner k now limit).wp exactWork (Drained now k m l) g := by
  refine drain_works Site.consume (fun v _ => ?_) henter hempty
  rw [consumeStep_eq]
  rcases le_or_gt (limit.balance now v) 0 with ha | ha
  · rw [upTo_of_nonpos hk.le ha, if_pos rfl]
    exact .inl ⟨0, rfl, fun g' hg' => .inl ⟨rfl, hg'⟩⟩
  · rw [upTo_of_pos ha, if_neg (lt_min ha hk).ne']
    refine .inr ⟨_, _, rfl, trivial, ?_⟩
    rcases lt_or_ge (limit.balance now v) k with hlt | hge
    · -- Everything there was: the zero time is `now`.
      have hv : v < now := not_le.1 fun h => not_le.2 ha (limit.balance_nonpos_iff.2 h)
      rw [min_eq_left hlt.le, limit.charged_balance]
      exact .inl ⟨hv, rfl, .inr (.inl ⟨ha, hlt, rfl⟩)⟩
    · rw [min_eq_right hge]
      exact .inr ⟨l, .fully (limit.le_charged hk.le), .inr (.inr ⟨rfl, m, le_rfl, rfl⟩)⟩

theorem borrowLoop_works {R : Type} {borrowed : ℚ → R} {paid : R} (hk : 0 < k)
    (h : HasLeft (m + 6) l g) :
    (Prog.loop (borrowStep now limit borrowed paid) k).wp exactWork (fun _ g' => HasLeft m l g') g := by
  refine ⟨borrowStep_nospin, fun k g =>
    (0 < k ∧ (HasLeft (m + 6) l g ∨ ∃ i, m ≤ i ∧ g = ⟨.drain now i, l⟩)) ∨ (k = 0 ∧ HasLeft m l g),
    .inl ⟨hk, .inl h⟩, ?_⟩
  rintro k g (⟨hk, hg⟩ | ⟨rfl, hg⟩)
  · have hdrain : ∃ i, m ≤ i ∧ (∀ v, WorkMove (fun v => v) g (.load v) ⟨.inside now i, l⟩) ∧
        ∀ v, ∃ g', WorkMove (fun v => v) g (.load v) g' ∧ HasLeft (i + 3) l g' := by
      rcases hg with ⟨j, hj, rfl⟩ | ⟨i, hi, rfl⟩
      · obtain ⟨i, rfl⟩ := Nat.exists_eq_add_of_le' hj
        refine ⟨i + m, Nat.le_add_left m i, fun v => .enter, fun v => ?_⟩
        exact ⟨_, .step (Nat.lt_succ_self _) le_rfl, i + m + 5, by omega, rfl⟩
      · exact ⟨i, hi, fun v => .again, fun v => ⟨_, .dry, i + 3, le_rfl, rfl⟩⟩
    obtain ⟨i, hi, henter, hempty⟩ := hdrain
    unfold borrowStep
    rw [if_pos hk]
    refine Prog.wp_bind (saturatingConsumeInner_works hk henter hempty) ?_
    rintro c g (⟨rfl, hleft⟩ | ⟨hc, hck, rfl⟩ | ⟨rfl, hleft⟩)
    · rw [if_neg (lt_irrefl _)]
      have hraise : 0 ≤ k / limit.rate := (div_pos hk limit.rate_pos).le
      refine Prog.wp_bind (casLoop_works Site.returnTokens ?_ hleft) ?_
      · rintro v new a - hwrite
        cases hwrite
        refine ⟨trivial, ?_⟩
        rw [neg_div]
        linarith
      · rintro _ _ ⟨j, hj, rfl⟩
        exact timeWhenBucket_wp fun v _ =>
          ⟨⟨.steps i, l⟩, ⟨trivial, .step (by omega) le_rfl⟩, i, hi, rfl⟩
    · rw [if_pos hc]
      exact .inl ⟨sub_pos.2 hck, .inr ⟨i, hi, rfl⟩⟩
    · rw [if_pos hk]
      exact .inr ⟨sub_self _, hleft.mono hi⟩
  · unfold borrowStep
    rw [if_neg (lt_irrefl _)]
    exact hg

theorem consumeWithBorrow_works {weight : NonZeroU32} (h : HasLeft (m + 6) l g) :
    (RawTokenBucket.consumeWithBorrow weight now limit).wp exactWork (fun _ g' => HasLeft m l g') g := by
  unfold RawTokenBucket.consumeWithBorrow
  split
  · exact h.mono (Nat.le_add_right m 6)
  · exact borrowLoop_works weight.toRat_pos h

theorem consumeStep_up (limit : Limit) (now : ℚ) {f : ℚ → ℚ} (hf : ∀ avail, 0 ≤ f avail) (v new a : ℚ)
    (h : consumeStep limit.rate limit.burst now f v = .write new a) : True ∧ v ≤ new := by
  rw [consumeStep_eq] at h
  split at h
  · cases h
  · cases h
    exact ⟨trivial, limit.le_charged (hf _)⟩

theorem consume2Step_up (limit : Limit) (now : ℚ) {f : ℚ → ℚ} (hf : ∀ avail, 0 ≤ f avail) (v new : ℚ)
    (a : TokenAcquisition) (h : consume2Step limit.rate limit.burst now f v = .write new a) :
    True ∧ v ≤ new := by
  rw [consume2Step_eq] at h
  split at h
  · cases h
  · cases h
    exact ⟨trivial, limit.le_charged (hf _)⟩

theorem exactly_nonneg (hk : 0 ≤ k) (avail : ℚ) : 0 ≤ exactly k avail := by
  unfold exactly
  split
  · exact le_rfl
  · exact hk

end

namespace Job

/-- The accesses of a job that get through if nobody lowers the zero time. -/
def work : Job κ Item → ℕ
  | call c => if c.req.call.borrows then 6 else 2
  | poll _ _ _ => 6
  | reset _ _ _ | updateLimit _ _ _ | rawReset _ _ => 2

/-- The accesses of a job that may lower the zero time. -/
def lowers : Job κ Item → ℕ
  | call c => if c.req.call.isAddTokens then 1 else 0
  | poll _ _ _ => 0
  | reset _ _ _ | updateLimit _ _ _ | rawReset _ _ => 1

def worker (j : Job κ Item) : Worker := ⟨.steps j.work, j.lowers⟩

theorem code_works (hrtime : Bool) (j : Job κ Item) :
    (j.code hrtime).wp exactWork (fun _ _ => True) j.worker := by
  cases j with
  | reset | updateLimit | rawReset =>
    -- A load and a store.
    exact fun v _ _ => ⟨⟨.steps 1, 1⟩, ⟨trivial, .step (Nat.lt_succ_self 1) le_rfl⟩,
      fun w _ _ => ⟨⟨.steps 0, 0⟩, ⟨trivial, .lower Nat.one_pos⟩, trivial⟩⟩
  | poll k s env =>
    refine Prog.wp_map (pollNext_wp hrtime s env trivial fun weight limit => ?_)
    exact done_works (consumeWithBorrow_works (m := 0) ⟨6, le_rfl, rfl⟩)
  | call c =>
    obtain ⟨limit, call, now⟩ := c
    have hleft : ∀ {k l}, HasLeft k l ⟨.steps k, l⟩ := fun {k l} => ⟨k, le_rfl, rfl⟩
    cases call with
    | consume k =>
      have hup := consumeStep_up limit now (exactly_nonneg k.toRat_pos.le)
      refine Prog.wp_map (Prog.wp_map (Prog.wp_map ?_))
      exact done_works (casLoop_works Site.consume (fun v new a _ => hup v new a) hleft)
    | tryConsume k =>
      have hup := consume2Step_up limit now (exactly_nonneg k.toRat_pos.le)
      refine Prog.wp_map (Prog.wp_map (Prog.wp_map ?_))
      exact done_works (casLoop_works Site.consume2 (fun v new a _ => hup v new a) hleft)
    | saturatingConsume k =>
      have hup := consumeStep_up limit now (f := upTo k.toRat) fun _ => upTo_nonneg k.toRat_pos.le
      refine Prog.wp_map (Prog.wp_map (Prog.wp_map ?_))
      exact done_works (casLoop_works Site.consume (fun v new a _ => hup v new a) hleft)
    | consumeWithBorrow k => exact Prog.wp_map (Prog.wp_map (done_works (consumeWithBorrow_works hleft)))
    | saturatingConsumeWithBorrow k =>
      refine Prog.wp_map (Prog.wp_map ?_)
      exact done_works (borrowLoop_works (lt_min k.toRat_pos limit.burst_pos) hleft)
    | addTokens tokens =>
      refine Prog.wp_map (Prog.wp_map (Prog.wp_map ?_))
      refine done_works (casLoop_lowers Site.returnTokens ?_ ?_ hleft)
      · exact fun v => ⟨_, _, rfl⟩
      · exact fun _ _ _ _ _ => trivial

/-! ## Every job reads what it then expects -/

theorem consumeWithBorrow_reads (weight : NonZeroU32) (now : ℚ) (limit : Limit) (g : Option ℚ) :
    (RawTokenBucket.consumeWithBorrow weight now limit).wp (readProtocol ℚ Site) (fun _ _ => True) g := by
  unfold RawTokenBucket.consumeWithBorrow
  split
  · trivial
  · refine ⟨borrowStep_nospin, fun _ _ => True, trivial, fun k g _ => ?_⟩
    unfold borrowStep
    split
    · refine Prog.wp_bind (casLoop_reads _ _) fun c g _ => ?_
      split
      · trivial
      · refine Prog.wp_bind (casLoop_reads _ _) fun _ g _ => ?_
        exact Prog.wp_map (load_reads _)
    · trivial

theorem code_reads (hrtime : Bool) (j : Job κ Item) :
    (j.code hrtime).wp (readProtocol ℚ Site) (fun _ _ => True) none := by
  cases j with
  | call c => exact Prog.wp_map (Gardal.code_reads c.limit c.req)
  | poll k s env =>
    refine Prog.wp_map (pollNext_wp hrtime s env trivial fun weight limit => ?_)
    exact consumeWithBorrow_reads weight env.now limit none
  | reset | updateLimit | rawReset =>
    exact fun v _ _ => ⟨some v, .load v, fun w _ _ => ⟨none, .store w _, trivial⟩⟩

end Job

/-! ## Every run -/

/-- **Every call returns.** Any number of threads make any calls, change limits and poll streams. A thread that
has had more turns than it has calls and accesses to make, and all threads together accesses, and exchanges
failed spuriously, has made all its calls, whatever the others have done in the meantime: they may have stopped
at any access. A poll that panics is made. -/
theorem jobs_return {ι : Type} [Fintype ι] [DecidableEq ι] (hrtime : Bool) (zt : ℚ)
    (calls : ι → List (Job κ Item)) (sched : List (ι × Bool)) (i : ι)
    (hturns : (calls i).length + accessBound Job.work Job.lowers calls i +
      ∑ j, accessBound Job.work Job.lowers calls j + (sched.countP fun t => t.2) <
        sched.countP fun t => t.1 = i) :
    (Pool.run (Job.code hrtime) sched (.init zt calls)).Idle i :=
  idle_of_works (fun _ job _ => job.code_works hrtime) (fun _ job _ => job.code_reads hrtime) trivial sched i
    hturns

/-- One thread stops between the load and the exchange of its `add_tokens`, for good. The other borrows and then
polls a stream, and is done before it has used half of its turns. -/
theorem jobs_return_stopped :
    let limit := Limit.perSecondAndBurst ⟨1, by decide⟩ ⟨5, by decide⟩
    let jobs : Bool → List (Job Unit ℕ) := fun i =>
      if i then [.call ⟨limit, .consumeWithBorrow ⟨3, by decide⟩, 1⟩,
        .poll () (.new (some limit) fun _ => ⟨2, by decide⟩) ⟨.ready (), .pending, .ready (some 7), 1, []⟩]
      else [.call ⟨limit, .addTokens ⟨1, by decide⟩, 1⟩]
    let sched := [(false, false), (false, false), (true, true)] ++ List.replicate 35 (true, false)
    (Pool.run (Job.code true) sched (.init 0 jobs)).Idle true ∧
      (Pool.run (Job.code true) (sched.take 18) (.init 0 jobs)).Idle true ∧
      ¬ (Pool.run (Job.code true) sched (.init 0 jobs)).Idle false := by
  intro limit jobs sched
  refine ⟨jobs_return true 0 jobs sched true (by decide +kernel), ?_, ?_⟩
  · exact ⟨by decide +kernel, by decide +kernel⟩
  · intro h
    exact absurd h.1 (by decide +kernel)

end Gardal
