import Gardal.SharedRate
import Gardal.StreamRate
/-!
# Streams and calls on many threads

A thread polls throttled streams, or calls the bucket itself, or changes its limit; a poll interleaves with
everything the other threads do, access by access. `system_rate` bounds what is delivered and taken in a
window, with the limits of all the handles their own.

A stream belongs to no thread. It is polled by one at a time, and each poll finds it as the one before left it
(`Follow`). A poll that charges an item puts the item's pieces on its tab and arms the sleep for the end of the
wait, so the item has been paid for by the time it is admitted.
-/
namespace Gardal
open Cell Ledger Stretch TokenBucketStorage RawTokenBucket

variable {ι κ Item : Type}

/-! ## One poll -/

section
variable {burst : ℚ} {t₁ t₂ : ℚ} {limit : Limit} {weightFn : Item → NonZeroU32} {s : WeightedStream Item}
  {env : Env Item} {g g' : Tab} {p : Polled Item}

/-- `consume_with_borrow` of a weight that fits is paid for by the end of the wait. -/
theorem consumeWithBorrow_tab {weight : NonZeroU32} {now : ℚ} (hlimit : limit.burst / limit.rate ≤ burst)
    (hr : g.reads now) (hb : weight.toRat ≤ limit.burst) :
    (RawTokenBucket.consumeWithBorrow weight now limit).wp (tabProtocol burst)
      (fun r g' => (r = .ok none ∧ g.Paid g' now now (weight.toRat / limit.rate)) ∨
        ∃ nap, r = .ok (some nap) ∧ 0 < nap.secs ∧
          g.Paid g' now (now + nap.secs) (weight.toRat / limit.rate)) g := by
  unfold RawTokenBucket.consumeWithBorrow
  rw [if_neg (not_lt.2 hb)]
  refine Prog.wp_mono _ ?_ (borrowLoop_tab hlimit hr weight.toRat_pos.le hb)
  rintro r g' (⟨rfl, h⟩ | ⟨nap, rfl, -, h⟩)
  · exact .inl ⟨rfl, h⟩
  · by_cases hle : nap ≤ 0
    · refine .inl ⟨by rw [Nanos.newChecked, if_pos hle], h.mono (by linarith)⟩
    · refine .inr ⟨⟨nap⟩, by rw [Nanos.newChecked, if_neg hle]; rfl, not_le.1 hle, h⟩

/-- What is admitted no sooner than it is paid for is settled. -/
theorem Pays.within_le {now t rate w back : ℚ} {ps : List Piece} (h : Pays now t (w / rate) ps)
    (ht : t ≤ back) (t₁ t₂ : ℚ) :
    (if t₁ ≤ now ∧ back ≤ t₂ then w else 0) / rate ≤ (ps.map (Piece.settled t₁ t₂)).sum := by
  split
  · rename_i hin
    exact (h.settled hin.1 (ht.trans hin.2)).ge
  · rw [zero_div]
    exact settled_sum_nonneg t₁ t₂ ps

theorem Tab.Paid.settled {now t secs : ℚ} (h : g.Paid g' now t secs) (hg : g.pieces = []) :
    ∃ ps, Pays now t secs ps ∧ g'.settled t₁ t₂ = (ps.map (Piece.settled t₁ t₂)).sum := by
  obtain ⟨-, ps, hps, hpays⟩ := h
  exact ⟨ps, hpays, by rw [Tab.settled, hps, hg, List.append_nil]⟩

/-- The seconds of refill that the items are worth which a poll pulls from `t₁` on and admits until `t₂`. -/
def Step.secsWithin (limit : Limit) (weightFn : Item → NonZeroU32) (t₁ t₂ : ℚ) (x : Step Item) : ℚ :=
  x.admittedIn weightFn t₁ t₂ / limit.rate

/-- What is to be shown of a poll that leaves the tab `g'`: it is a turn of its stream, and what it admits in
a window is settled in it. -/
structure Step.Pays (limit : Limit) (weightFn : Item → NonZeroU32) (t₁ t₂ : ℚ) (x : Step Item) (g' : Tab) :
    Prop where
  turn : x.before.Turn x.env x.polled
  settled : x.secsWithin limit weightFn t₁ t₂ ≤ g'.settled t₁ t₂

theorem pays_of_none (hturn : s.Turn env p) (hpulled : Step.pulled ⟨s, env, p⟩ = []) :
    Step.Pays limit weightFn t₁ t₂ ⟨s, env, p⟩ g := by
  refine ⟨hturn, ?_⟩
  rw [Step.secsWithin, Step.admittedIn, Step.pulledAt, hpulled]
  exact (zero_div limit.rate).trans_le (settled_sum_nonneg t₁ t₂ g.pieces)

theorem pays_of_paid {item : Item} {t : ℚ} (hturn : s.Turn env p)
    (hpulled : Step.pulled ⟨s, env, p⟩ = [item]) (hg : g.pieces = [])
    (hpaid : g.Paid g' env.now t ((weightFn item).toRat / limit.rate))
    (ht : t ≤ Step.admittedAt ⟨s, env, p⟩) : Step.Pays limit weightFn t₁ t₂ ⟨s, env, p⟩ g' := by
  refine ⟨hturn, ?_⟩
  obtain ⟨ps, hpays, hsettled⟩ := hpaid.settled hg
  have hone : Step.admittedIn weightFn t₁ t₂ ⟨s, env, p⟩ =
      if t₁ ≤ env.now ∧ Step.admittedAt ⟨s, env, p⟩ ≤ t₂ then (weightFn item).toRat else 0 := by
    simp [Step.admittedIn, weightWithin, Step.pulledAt, Step.admitted, hpulled]
  rw [Step.secsWithin, hone, hsettled]
  exact hpays.within_le ht t₁ t₂

/-- **One poll**, interleaved with anything. -/
theorem pollNext_tab (hrtime : Bool) (t₁ t₂ : ℚ) (hlimit : limit.burst / limit.rate ≤ burst)
    (hw : ∀ item, (weightFn item).toRat ≤ limit.burst) (hbucket : s.bucket = some limit)
    (hweights : s.weightFn = weightFn) (hr : g.reads env.now) (hg : g.pieces = []) :
    (s.pollNext hrtime env).wp (tabProtocol burst) (fun p g' => s.Of limit weightFn →
      (∀ why, p.outcome ≠ .panicked why) → Step.Pays limit weightFn t₁ t₂ ⟨s, env, p⟩ g') g := by
  obtain ⟨bucket, weights, delay, pendingItem⟩ := s
  obtain rfl : bucket = some limit := hbucket
  obtain rfl : weights = weightFn := hweights
  obtain ⟨coop, edelay, inner, now, spurious⟩ := env
  cases coop with
  | pending =>
    exact fun _ _ => pays_of_none (.idle (.inl rfl) (by simp)) rfl
  | ready u =>
    cases pendingItem with
    | some item =>
      cases delay with
      | none => exact fun _ _ => pays_of_none (.undelayed rfl rfl) rfl
      | some d =>
        cases edelay with
        | pending =>
          exact fun _ _ =>
            pays_of_none (.idle (.inl rfl) (by simp)) rfl
        | ready u => exact fun _ _ => pays_of_none (.released rfl rfl) rfl
    | none =>
      rcases inner with _ | _ | item
      · exact fun _ _ =>
          pays_of_none (.idle (.inl rfl) (by simp)) rfl
      · exact fun _ _ => pays_of_none
          (.idle (.inr ⟨rfl, rfl, by simp⟩) (by simp)) rfl
      · refine Prog.wp_bind (consumeWithBorrow_tab hlimit hr (hw item)) ?_
        rintro r g' (⟨rfl, hpaid⟩ | ⟨nap, rfl, hpos, hpaid⟩)
        · intro hs _
          have hnone := hs.unarmed rfl
          exact pays_of_paid (.passed rfl hnone) rfl hg hpaid (admittedAt_of_none hnone).ge
        · cases hnap : nap.toDuration with
          | none =>
            simp only [hnap]
            exact fun _ hdone => absurd rfl (hdone _)
          | some duration =>
            simp only [hnap]
            intro hs _
            obtain rfl : delay = none := hs.unarmed rfl
            obtain rfl : duration = ⟨nap.secs⟩ := by
              unfold Nanos.toDuration at hnap
              split at hnap <;> cases hnap
              rfl
            cases hrtime <;> exact pays_of_paid (.staged rfl (lt_add_of_pos_right now hpos)) rfl hg hpaid le_rfl

end

/-! ## All polls of a stream -/

/-- What a stream remembers from one poll to the next. -/
def WeightedStream.memory (s : WeightedStream Item) : Option Item × Option Sleep := (s.pendingItem, s.delay)

/-- Each poll finds what the one before it left, the first one `memory`. -/
def Follow : Option Item × Option Sleep → List (Step Item) → Prop
  | _, [] => True
  | memory, x :: steps => x.before.memory = memory ∧ Follow x.polled.stream.memory steps

instance decidableFollow [DecidableEq Item] : (memory : Option Item × Option Sleep) →
    (steps : List (Step Item)) → Decidable (Follow memory steps)
  | _, [] => inferInstanceAs (Decidable True)
  | _, x :: steps =>
    haveI := decidableFollow x.polled.stream.memory steps
    inferInstanceAs (Decidable (_ ∧ _))

section
variable {limit : Limit} {weightFn : Item → NonZeroU32} {s s' : WeightedStream Item}
  {before steps : List (Step Item)}

theorem WeightedStream.eq_of_memory (hb : s'.bucket = s.bucket) (hw : s'.weightFn = s.weightFn)
    (hm : s'.memory = s.memory) : s' = s := by
  obtain ⟨bucket, weightFn, delay, pendingItem⟩ := s
  obtain ⟨bucket', weightFn', delay', pendingItem'⟩ := s'
  obtain ⟨rfl, rfl⟩ := Prod.mk.inj hm
  obtain rfl : bucket' = bucket := hb
  obtain rfl : weightFn' = weightFn := hw
  rfl

/-- Polls that follow one another and take turns are timely, after any that were. -/
theorem follow_timely (htimely : Timely before s) (hs : s.Of limit weightFn) (hfollow : Follow s.memory steps)
    (hbucket : ∀ x ∈ steps, x.before.bucket = some limit) (hweights : ∀ x ∈ steps, x.before.weightFn = weightFn)
    (hturn : ∀ x ∈ steps, x.before.Of limit weightFn → x.before.Turn x.env x.polled) :
    (∃ s', Timely (before ++ steps) s') ∧ ∀ x ∈ steps, x.before.Of limit weightFn := by
  induction steps generalizing before s with
  | nil => exact ⟨⟨s, by simpa using htimely⟩, by simp⟩
  | cons x steps ih =>
    rw [List.forall_mem_cons] at hbucket hweights hturn
    obtain ⟨hmemory, hfollow⟩ := hfollow
    obtain rfl : x.before = s := WeightedStream.eq_of_memory (hbucket.1.trans hs.bucket.symm)
      (hweights.1.trans hs.weights.symm) hmemory
    have hx := hturn.1 hs
    obtain ⟨⟨s', h⟩, hof⟩ := ih (htimely.step (turn_timely hx)) (poll_adds hs hx).stream hfollow hbucket.2
      hweights.2 hturn.2
    exact ⟨⟨s', by simpa using h⟩, List.forall_mem_cons.2 ⟨hs, hof⟩⟩

theorem Timely.secs_le (h : Timely steps s) (hdone : ∀ x ∈ steps, x.Completes)
    (hsleep : ∀ x ∈ steps, x.SleepsFully) (limit : Limit) (weightFn : Item → NonZeroU32) (t₁ t₂ : ℚ) :
    delivered weightFn t₁ t₂ steps / limit.rate ≤ (steps.map (Step.secsWithin limit weightFn t₁ t₂)).sum := by
  have hsum : (steps.map (Step.admittedIn weightFn t₁ t₂)).sum / limit.rate =
      (steps.map (Step.secsWithin limit weightFn t₁ t₂)).sum := by
    rw [div_eq_mul_inv, ← List.sum_map_mul_right]
    rfl
  rw [← hsum]
  exact div_le_div_of_nonneg_right (h.delivered_le hdone hsleep) limit.rate_pos.le

end

/-! ## Jobs -/

/-- What a thread does with a handle of its own: it makes a call, changes the limit, or polls a stream made
with it. -/
inductive Job (κ Item : Type)
  | call (c : HandleCall)
  | reset (old limit : Limit) (now : ℚ)
  | updateLimit (old limit : Limit) (now : ℚ)
  /-- `RawTokenBucket::reset`. -/
  | rawReset (limit : Limit) (now : ℚ)
  /-- A poll of the stream `k`, which is `s` when the poll starts. -/
  | poll (k : κ) (s : WeightedStream Item) (env : Env Item)

inductive JobResponse (Item : Type)
  | call (r : Response)
  | reset
  | updateLimit (limit : Limit)
  | poll (p : Polled Item)

namespace Job

def code (hrtime : Bool) : Job κ Item → Code (JobResponse Item)
  | call c => do return .call (← c.code)
  | reset old limit now => do
    TokenBucket.reset old limit now
    return .reset
  | updateLimit old limit now => do return .updateLimit (← TokenBucket.updateLimit old limit now)
  | rawReset limit now => do
    RawTokenBucket.reset limit now
    return .reset
  | poll _ s env => do return .poll (← s.pollNext hrtime env)

/-- A call on a handle with no more than `burst` seconds of burst, or a poll of one of the streams. -/
def Fits (burst : ℚ) (limit : κ → Limit) (weightFn : κ → Item → NonZeroU32) : Job κ Item → Prop
  | call c => c.limit.burst / c.limit.rate ≤ burst
  | poll k s _ => s.bucket = some (limit k) ∧ s.weightFn = weightFn k
  | _ => True

/-- It takes tokens at a reading of the clock no earlier than `t₁`, or may do so. -/
def readsFrom (t₁ : ℚ) : Job κ Item → Bool
  | call c => c.readsFrom t₁
  | poll _ _ env => decide (t₁ ≤ env.now)
  | _ => false

/-- The seconds of refill taken by a call that falls into the window. -/
def secsWithin (t₁ t₂ : ℚ) : Job κ Item → JobResponse Item → ℚ
  | call c, .call r => c.secsWithin t₁ t₂ r
  | _, _ => 0

/-- The poll that has been made, if it is one. -/
def step : Job κ Item → JobResponse Item → Option (κ × Step Item)
  | poll k s env, .poll p => some (k, ⟨s, env, p⟩)
  | _, _ => none

/-- The tab a job starts with. -/
def tab : Job κ Item → Tab
  | call c => c.tab
  | poll _ _ env => ⟨fun now => now = env.now, [], none⟩
  | _ => ⟨fun _ => False, [], none⟩

end Job

/-- The polls made so far, in the order in which they have ended. -/
def pollsIn {V N : Type} (trace : List (Event ι V N (Job κ Item) (JobResponse Item))) : List (κ × Step Item) :=
  (returns trace).filterMap fun x => x.request.step x.response

section
variable {burst t₁ t₂ : ℚ} {limit : κ → Limit} {weightFn : κ → Item → NonZeroU32}

/-- What is to be shown of a job that leaves the tab `g`. -/
structure Job.Settles (limit : κ → Limit) (weightFn : κ → Item → NonZeroU32) (t₁ t₂ : ℚ) (j : Job κ Item)
    (r : JobResponse Item) (g : Tab) : Prop where
  call : j.secsWithin t₁ t₂ r ≤ g.settled t₁ t₂
  bucket : ∀ y ∈ j.step r, y.2.before.bucket = some (limit y.1)
  weights : ∀ y ∈ j.step r, y.2.before.weightFn = weightFn y.1
  poll : ∀ y ∈ j.step r, y.2.before.Of (limit y.1) (weightFn y.1) → y.2.Completes →
    j.secsWithin t₁ t₂ r = 0 ∧ y.2.Pays (limit y.1) (weightFn y.1) t₁ t₂ g

theorem Job.code_tab (hrtime : Bool) (hlimit : ∀ k, (limit k).burst / (limit k).rate ≤ burst)
    (hw : ∀ k item, (weightFn k item).toRat ≤ (limit k).burst) (j : Job κ Item)
    (hj : j.Fits burst limit weightFn) :
    (j.code hrtime).wp (tabProtocol burst) (j.Settles limit weightFn t₁ t₂) j.tab := by
  cases j with
  | call c =>
    refine Prog.wp_bind (c.code_tab hj) fun r g h => ⟨h.le t₁ t₂, ?_, ?_, ?_⟩ <;> rintro _ ⟨⟩
  | reset | updateLimit | rawReset =>
    -- A load and a store, and nothing on the tab.
    refine fun v _ _ => ⟨tab _, .nothing, fun w _ _ => ⟨tab _, .nothing, le_rfl, ?_, ?_, ?_⟩⟩ <;> rintro _ ⟨⟩
  | poll k s env =>
    refine Prog.wp_bind (pollNext_tab hrtime t₁ t₂ (hlimit k) (hw k) hj.1 hj.2 rfl rfl) fun p g h => ?_
    refine ⟨settled_sum_nonneg t₁ t₂ g.pieces, ?_, ?_, ?_⟩ <;> rintro _ ⟨⟩
    · exact hj.1
    · exact hj.2
    · exact fun hs hdone => ⟨rfl, h hs hdone⟩

/-! ## Every run -/

open Classical in
/-- What a job counts for. A poll does if its stream may have been made so, and it completes. -/
noncomputable def Job.paid (limit : κ → Limit) (weightFn : κ → Item → NonZeroU32) (t₁ t₂ : ℚ) (j : Job κ Item)
    (r : JobResponse Item) : ℚ :=
  j.secsWithin t₁ t₂ r + (j.step r).elim 0 fun y =>
    if y.2.before.Of (limit y.1) (weightFn y.1) ∧ y.2.Completes then
      y.2.secsWithin (limit y.1) (weightFn y.1) t₁ t₂
    else 0

theorem Job.Settles.paid_le {j : Job κ Item} {r : JobResponse Item} {g : Tab}
    (h : j.Settles limit weightFn t₁ t₂ r g) : j.paid limit weightFn t₁ t₂ r ≤ g.settled t₁ t₂ := by
  unfold Job.paid
  cases hstep : j.step r with
  | none =>
    rw [Option.elim_none, add_zero]
    exact h.call
  | some y =>
    rw [Option.elim_some]
    split
    · rename_i hy
      obtain ⟨hzero, hpays⟩ := h.poll y hstep hy.1 hy.2
      rw [hzero, zero_add]
      exact hpays.settled
    · rw [add_zero]
      exact h.call

theorem sum_add_elim {α β : Type} (f : α → Option β) (a : α → ℚ) (b : β → ℚ) (l : List α) :
    (l.map fun x => a x + (f x).elim 0 b).sum = (l.map a).sum + ((l.filterMap f).map b).sum := by
  induction l with
  | nil => simp
  | cons x l ih =>
    cases h : f x <;> simp only [List.map_cons, List.sum_cons, List.filterMap_cons, h, Option.elim_none,
      Option.elim_some, ih] <;> ring

/-- Where the polls of every stream follow one another, the jobs count for what their calls take and for what
is pulled and delivered. -/
theorem delivered_le_paid [Fintype κ] [DecidableEq κ] {V N : Type}
    {trace : List (Event ι V N (Job κ Item) (JobResponse Item))}
    (hsettles : ∀ x ∈ returns trace, ∃ g, x.request.Settles limit weightFn t₁ t₂ x.response g)
    (hfollow : ∀ k, Follow (none, none) (stepsOf k (pollsIn trace)))
    (hdone : ∀ y ∈ pollsIn trace, y.2.Completes) (hsleep : ∀ y ∈ pollsIn trace, y.2.SleepsFully) :
    ((returns trace).map fun x => x.request.secsWithin t₁ t₂ x.response).sum +
        ∑ k, delivered (weightFn k) t₁ t₂ (stepsOf k (pollsIn trace)) / (limit k).rate ≤
      paidFor (Job.paid limit weightFn t₁ t₂) trace := by
  have hpolls : ∀ y ∈ pollsIn trace, y.2.before.bucket = some (limit y.1) ∧ y.2.before.weightFn = weightFn y.1 ∧
      (y.2.before.Of (limit y.1) (weightFn y.1) → y.2.before.Turn y.2.env y.2.polled) := by
    intro y hy
    obtain ⟨x, hx, hstep⟩ := List.mem_filterMap.1 hy
    obtain ⟨g, h⟩ := hsettles x hx
    exact ⟨h.bucket y hstep, h.weights y hstep, fun hof => (h.poll y hstep hof (hdone y hy)).2.turn⟩
  have htimely : ∀ k, (∃ s, Timely (stepsOf k (pollsIn trace)) s) ∧
      ∀ x ∈ stepsOf k (pollsIn trace), x.before.Of (limit k) (weightFn k) := by
    intro k
    have hmem := fun x (hx : x ∈ stepsOf k (pollsIn trace)) => hpolls _ (mem_stepsOf_iff.1 hx)
    exact follow_timely (.start (some (limit k)) (weightFn k)) (.new (limit k) (weightFn k)) (hfollow k)
      (fun x hx => (hmem x hx).1) (fun x hx => (hmem x hx).2.1) fun x hx => (hmem x hx).2.2
  have hdelivered : ∀ k, delivered (weightFn k) t₁ t₂ (stepsOf k (pollsIn trace)) / (limit k).rate ≤
      ((stepsOf k (pollsIn trace)).map (Step.secsWithin (limit k) (weightFn k) t₁ t₂)).sum := by
    intro k
    obtain ⟨s, h⟩ := (htimely k).1
    exact h.secs_le (fun x hx => hdone (k, x) (mem_stepsOf_iff.1 hx))
      (fun x hx => hsleep (k, x) (mem_stepsOf_iff.1 hx)) (limit k) (weightFn k) t₁ t₂
  have hpaid : paidFor (Job.paid limit weightFn t₁ t₂) trace =
      ((returns trace).map fun x => x.request.secsWithin t₁ t₂ x.response).sum +
        ((pollsIn trace).map fun y => y.2.secsWithin (limit y.1) (weightFn y.1) t₁ t₂).sum := by
    unfold paidFor Job.paid
    rw [sum_add_elim fun x : Returned ι (Job κ Item) (JobResponse Item) => x.request.step x.response]
    congr 2
    refine List.map_congr_left fun y hy => if_pos ⟨?_, hdone y hy⟩
    exact (htimely y.1).2 y.2 (mem_stepsOf_iff.2 hy)
  rw [hpaid, ← sum_stepsOf fun k => Step.secsWithin (limit k) (weightFn k) t₁ t₂]
  exact add_le_add le_rfl (Finset.sum_le_sum fun k _ => hdelivered k)

end

/-- **The rate of a whole system.** Any number of threads make any calls, change limits and poll streams, on
handles with limits of their own, and their accesses interleave as they like. The polls of each stream follow
one another, on whatever threads, and no poll panics. What is taken in a window, and what streams pull and
return in it if no sleep ends early, is at most the largest burst, in seconds, and the length of the window,
and what lowered the zero time since the first job that counts was started. -/
theorem system_rate [DecidableEq ι] [Fintype κ] [DecidableEq κ] (hrtime : Bool) (zt : ℚ)
    {calls : ι → List (Job κ Item)} (sched : List (ι × Bool)) {limit : κ → Limit}
    {weightFn : κ → Item → NonZeroU32} {burst t₁ t₂ : ℚ} (hburst : 0 ≤ burst) (ht : t₁ ≤ t₂)
    (hlimit : ∀ k, (limit k).burst / (limit k).rate ≤ burst)
    (hw : ∀ k item, (weightFn k item).toRat ≤ (limit k).burst)
    (hfits : ∀ i, ∀ j ∈ calls i, j.Fits burst limit weightFn) :
    let trace := (Pool.run (Job.code hrtime) sched (.init zt calls)).trace
    (∀ k, Follow (none, none) (stepsOf k (pollsIn trace))) → (∀ y ∈ pollsIn trace, y.2.Completes) →
      (∀ y ∈ pollsIn trace, y.2.SleepsFully) →
        ((returns trace).map fun x => x.request.secsWithin t₁ t₂ x.response).sum +
          ∑ k, delivered (weightFn k) t₁ t₂ (stepsOf k (pollsIn trace)) / (limit k).rate ≤
        burst + (t₂ - t₁) + putBack (fromFirst (opening (Job.readsFrom t₁)) trace) := by
  intro trace hfollow hdone hsleep
  have hcode : ∀ i, ∀ j ∈ calls i,
      (j.code hrtime).wp (tabProtocol burst) (j.Settles limit weightFn t₁ t₂) j.tab :=
    fun i j hj => j.code_tab hrtime hlimit hw (hfits i j hj)
  obtain ⟨γ, hrun, -⟩ := adequacy (tabProtocol burst) Job.tab (Job.Settles limit weightFn t₁ t₂)
    (fun _ _ => trivial) hcode zt sched
  refine (delivered_le_paid hrun.returned hfollow hdone hsleep).trans ?_
  refine tab_bound hburst ht Job.tab _ (Job.readsFrom t₁) (fun j => by cases j <;> exact ⟨rfl, rfl⟩)
    ?_ ?_ zt sched
  · intro j hfalse now hreads
    cases j with
    | call c =>
      obtain ⟨hadd, rfl⟩ := hreads
      simpa [Job.readsFrom, HandleCall.readsFrom, hadd] using hfalse
    | reset | updateLimit | rawReset => exact hreads.elim
    | poll k s env =>
      obtain rfl := hreads
      simpa [Job.readsFrom] using hfalse
  · exact fun i j hj => Prog.wp_mono _ (fun r g h => h.paid_le) (hcode i j hj)

/-- A stream at one token a second and a borrower at two share a bucket. They race for its token: the stream
gets it, and both go into debt between each other's accesses. The borrower's thread then polls the stream: it
delivers the item that is staged, and a poll for the next is under way. -/
theorem system_rate_race :
    let limit := Limit.perSecond ⟨1, by decide⟩
    let stream : Option ℕ → Option Sleep → WeightedStream ℕ :=
      fun item delay => ⟨some limit, fun _ => ⟨1, by decide⟩, delay, item⟩
    let jobs : Bool → List (Job Unit ℕ) := fun i =>
      if i then [.poll () (stream none none) ⟨.ready (), .pending, .ready (some 7), 1, []⟩,
        .poll () (stream none none) ⟨.ready (), .pending, .ready (some 8), 1, []⟩]
      else [.call ⟨.perSecondAndBurst ⟨2, by decide⟩ ⟨4, by decide⟩, .consumeWithBorrow ⟨2, by decide⟩, 1⟩,
        .poll () (stream (some 8) (some ⟨3⟩)) ⟨.ready (), .ready (), .pending, 4, []⟩,
        .poll () (stream none none) ⟨.ready (), .pending, .ready (some 9), 4, []⟩]
    let sched := ((List.range 12).map fun n => (n % 2 == 0, n % 5 == 3)) ++ List.replicate 5 (true, false) ++
      List.replicate 3 (false, false)
    let trace := (Pool.run (Job.code true) sched (.init 0 jobs)).trace
    let called := ((returns trace).map fun x => x.request.secsWithin 1 4 x.response).sum
    let streamed := ∑ k, delivered (fun _ => ⟨1, by decide⟩) 1 4 (stepsOf k (pollsIn trace)) / limit.rate
    called = 1 ∧ streamed = 2 ∧
      called + streamed ≤ 2 + (4 - 1) + putBack (fromFirst (opening (Job.readsFrom 1)) trace) := by
  intro limit stream jobs sched trace called streamed
  have hfits : ∀ i, ∀ j ∈ jobs i, j.Fits 2 (fun _ => limit) (fun _ _ => ⟨1, by decide⟩) := by
    have hcall : Limit.burst (.perSecondAndBurst ⟨2, by decide⟩ ⟨4, by decide⟩) /
        Limit.rate (.perSecondAndBurst ⟨2, by decide⟩ ⟨4, by decide⟩) ≤ 2 := by decide +kernel
    intro i
    cases i <;> simp [jobs, Job.Fits, stream, hcall]
  refine ⟨by decide +kernel, by decide +kernel, ?_⟩
  refine system_rate true 0 sched (by norm_num) (by norm_num) (fun _ => by decide +kernel)
    (fun _ _ => le_rfl) hfits ?_ ?_ ?_
  · decide +kernel
  · decide +kernel
  · decide +kernel

end Gardal
