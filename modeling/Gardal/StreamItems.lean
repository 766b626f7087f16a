import Gardal.Stream
/-!
# What happens to the items of a stream

A stream is polled any number of times, with any answers of the coop budget, the sleep and the inner
stream, and whatever the other holders of the bucket have made of the zero time before each poll.

As long as no weight exceeds the burst, nothing is lost, repeated, reordered or charged twice. But where the
wait for an item is too long for a `Duration` the poll panics when it has staged the item and not yet armed
the delay: `faithful_iff`. `unwrap_iff`: a weight above the burst, and nothing else, makes the poll that
pulls the item reach the `unwrap` of an `Err` and lose it.
-/
namespace Gardal
open Cell

variable {Item : Type}

/-- One poll of a history: the stream before it, what it met and what it did. -/
structure Step (Item : Type) where
  before : WeightedStream Item
  env : Env Item
  polled : Polled Item

@[simp] def Effect.pulled : Effect Item → Option Item
  | .inner (.ready (some item)) => some item
  | _ => none

@[simp] def Effect.charged : Effect Item → Option NonZeroU32
  | .consumeWithBorrow weight => some weight
  | _ => none

@[simp] def Effect.isReset : Effect Item → Bool
  | .resetDelay _ => true
  | _ => false

def Outcome.item : Outcome Item → Option Item
  | .returned (.ready (some item)) => some item
  | _ => none

/-- The items a poll took out of the inner stream. -/
def Step.pulled (x : Step Item) : List Item := x.polled.effects.filterMap Effect.pulled

/-- The items pulled from the inner stream. -/
def pulled (steps : List (Step Item)) : List Item := steps.flatMap Step.pulled

/-- The weights `consume_with_borrow` was called with. -/
def charged (steps : List (Step Item)) : List NonZeroU32 :=
  steps.flatMap fun x => x.polled.effects.filterMap Effect.charged

/-- The items returned. -/
def returned (steps : List (Step Item)) : List Item := steps.filterMap fun x => x.polled.outcome.item

@[simp] theorem pulled_concat (steps : List (Step Item)) (x : Step Item) :
    pulled (steps ++ [x]) = pulled steps ++ x.pulled := by
  simp [pulled]

@[simp] theorem charged_concat (steps : List (Step Item)) (x : Step Item) :
    charged (steps ++ [x]) = charged steps ++ x.polled.effects.filterMap Effect.charged := by
  simp [charged]

@[simp] theorem returned_concat (steps : List (Step Item)) (x : Step Item) :
    returned (steps ++ [x]) = returned steps ++ x.polled.outcome.item.toList := by
  unfold returned
  rw [List.filterMap_append]
  cases h : x.polled.outcome.item <;> simp [h]

theorem forall_mem_concat {α : Type} {P : α → Prop} {l : List α} {a : α} :
    (∀ x ∈ l ++ [a], P x) ↔ (∀ x ∈ l, P x) ∧ P a := by
  rw [List.forall_mem_append, List.forall_mem_singleton]

/-- Polls one after another, each with what it meets and the zero time it finds. -/
def WeightedStream.polls (fuel : Nat) (hrtime : Bool) :
    WeightedStream Item → List (Env Item × ℚ) → Option (List (Step Item) × WeightedStream Item)
  | s, [] => some ([], s)
  | s, (env, zt) :: rest => do
    let (p, _) ← s.poll fuel hrtime env zt
    let (steps, s') ← p.stream.polls fuel hrtime rest
    return (⟨s, env, p⟩ :: steps, s')

/-- What every poll keeps holds after any number of them. The log has the zero time that each poll found. -/
theorem polls_log_induction {fuel : Nat} (hf : 2 ≤ fuel) (hrtime : Bool)
    (P : List (Step Item × ℚ) → WeightedStream Item → Prop)
    (hstep : ∀ {log s env zt p w}, P log s → s.Polls hrtime env zt p w →
      P (log ++ [(⟨s, env, p⟩, zt)]) p.stream)
    (s : WeightedStream Item) (h : P [] s) (inputs : List (Env Item × ℚ)) :
    ∃ log s', s.polls fuel hrtime inputs = some (log.map Prod.fst, s') ∧
      log.map (fun y => (y.1.env, y.2)) = inputs ∧ P log s' := by
  suffices hany : ∀ before s, P before s → ∃ log s', s.polls fuel hrtime inputs = some (log.map Prod.fst, s') ∧
      log.map (fun y => (y.1.env, y.2)) = inputs ∧ P (before ++ log) s' by simpa using hany [] s h
  clear h s
  intro before s h
  induction inputs generalizing before s with
  | nil => exact ⟨[], s, rfl, rfl, by simpa using h⟩
  | cons x inputs ih =>
    obtain ⟨env, zt⟩ := x
    obtain ⟨p, w, hrun, hp⟩ := poll_polls hrtime s env hf zt
    obtain ⟨log, s', hrest, hlog, hP⟩ := ih _ _ (hstep h hp)
    refine ⟨(⟨s, env, p⟩, zt) :: log, s', ?_, by simp [hlog], by simpa using hP⟩
    simp [WeightedStream.polls, hrun, hrest]

/-- The same of what does not depend on the zero times. -/
theorem polls_induction {fuel : Nat} (hf : 2 ≤ fuel) (hrtime : Bool)
    (P : List (Step Item) → WeightedStream Item → Prop)
    (hstep : ∀ {steps s env zt p w}, P steps s → s.Polls hrtime env zt p w →
      P (steps ++ [⟨s, env, p⟩]) p.stream)
    (s : WeightedStream Item) (h : P [] s) (inputs : List (Env Item × ℚ)) :
    ∃ steps s', s.polls fuel hrtime inputs = some (steps, s') ∧ steps.map Step.env = inputs.map Prod.fst ∧
      P steps s' := by
  obtain ⟨log, s', hrun, hlog, hP⟩ := polls_log_induction hf hrtime (fun log => P (log.map Prod.fst))
    (fun h hp => by simpa using hstep h hp) s h inputs
  refine ⟨log.map Prod.fst, s', hrun, ?_, hP⟩
  rw [← hlog, List.map_map, List.map_map]
  rfl

/-! ## What a poll pulls -/

/-- If the poll pulls an item for the bucket, `P` holds of the limit and the item. -/
def WeightedStream.ForPull (s : WeightedStream Item) (env : Env Item) (P : Limit → Item → Prop) : Prop :=
  ∀ limit item, env.coop = .ready () → s.bucket = some limit → s.pendingItem = none →
    env.inner = .ready (some item) → P limit item

section
variable {s : WeightedStream Item} {env : Env Item} {item : Item} {P : Limit → Item → Prop}

theorem forPull_of_coop (hc : env.coop = .pending) : s.ForPull env P := by
  rintro limit item hready - - -
  rw [hc] at hready
  cases hready

theorem forPull_of_pending (hp : s.pendingItem = some item) : s.ForPull env P := by
  rintro limit item' - - hnone -
  rw [hp] at hnone
  cases hnone

theorem forPull_of_inner {r : Poll (Option Item)} (hi : env.inner = r) (hr : ∀ item, r ≠ .ready (some item)) :
    s.ForPull env P := by
  rintro limit item - - - hi'
  exact absurd (hi.symm.trans hi') (hr item)

theorem forPull_of_pull {limit : Limit} (hb : s.bucket = some limit) (hi : env.inner = .ready (some item))
    (h : P limit item) : s.ForPull env P := by
  rintro limit' item' - hb' - hi'
  rw [hb] at hb'
  rw [hi] at hi'
  cases hb'
  cases hi'
  exact h

theorem forPull_of_unthrottled (hb : s.bucket = none) : s.ForPull env P := by
  rintro limit item - hb' - -
  rw [hb] at hb'
  cases hb'

end

/-- An item the poll is going to pull for the bucket, if there is one, weighs no more than the burst. -/
def WeightedStream.Fits (s : WeightedStream Item) (env : Env Item) : Prop :=
  s.ForPull env fun limit item => (s.weightFn item).toRat ≤ limit.burst

/-- If the poll is going to pull an item for the bucket, the debt that the bucket carries leaves room for
it: together they are paid off in less than `2 ^ 64` seconds. -/
def WeightedStream.WaitFits (s : WeightedStream Item) (env : Env Item) (zt : ℚ) : Prop :=
  s.ForPull env fun limit item => zt + (s.weightFn item).toRat / limit.rate < env.now + 2 ^ 64

/-! ## Nothing lost, repeated, reordered or charged twice -/

/-- An item is staged exactly when a delay is armed. -/
def WeightedStream.Settled (s : WeightedStream Item) : Prop := s.pendingItem.isSome = s.delay.isSome

/-- What of it holds of every history whose weights fit. -/
structure Accounted (weightFn : Item → NonZeroU32) (steps : List (Step Item)) (s : WeightedStream Item) :
    Prop where
  items : returned steps ++ s.pendingItem.toList = pulled steps
  charges : charged steps = (pulled steps).map weightFn
  neverReset : ∀ x ∈ steps, ∀ e ∈ x.polled.effects, e.isReset = false
  ended : ∀ x ∈ steps, x.polled.outcome = .returned (.ready none) →
    x.before.pendingItem = none ∧ .inner (.ready none) ∈ x.polled.effects

section
variable {limit : Limit} {weightFn : Item → NonZeroU32} {hrtime : Bool} {s : WeightedStream Item}
  {env : Env Item} {zt w : ℚ} {p : Polled Item} {steps : List (Step Item)}

/-- The stream has the bucket and the weights it was made with, and arms a delay for a staged item only. -/
structure WeightedStream.Of (limit : Limit) (weightFn : Item → NonZeroU32) (s : WeightedStream Item) :
    Prop where
  bucket : s.bucket = some limit
  weights : s.weightFn = weightFn
  unarmed : s.pendingItem = none → s.delay = none

theorem WeightedStream.Of.new (limit : Limit) (weightFn : Item → NonZeroU32) :
    (WeightedStream.new (some limit) weightFn).Of limit weightFn := ⟨rfl, rfl, fun _ => rfl⟩

/-- With no delay armed the sleep is set, never reset. -/
theorem arm_of_none {now : ℚ} {duration : Duration} {delay : Option Sleep} {armed : Effect Item}
    (h : WeightedStream.arm hrtime none now duration = (delay, armed)) :
    delay = some ⟨now + duration.secs⟩ ∧ armed = .setDelay delay := by
  cases hrtime <;> (obtain ⟨rfl, rfl⟩ := Prod.mk.inj h; exact ⟨rfl, rfl⟩)

theorem not_settled_of_unarmed {item : Item} (hp : s.pendingItem = some item) (hd : s.delay = none) :
    ¬ s.Settled := by
  unfold WeightedStream.Settled
  rw [hp, hd]
  simp

/-- What is left of `Polls` for such a stream if its weights fit: a poll returns no item and changes nothing,
or delivers the staged item, or pulls one and passes or stages it. -/
inductive WeightedStream.Turn (s : WeightedStream Item) (env : Env Item) : Polled Item → Prop
  | idle {r : Poll (Option Item)} {effects : List (Effect Item)}
      (hr : r = .pending ∨ r = .ready none ∧ s.pendingItem = none ∧ .inner (.ready none) ∈ effects)
      (hnone : ∀ e ∈ effects, e.pulled = none ∧ e.charged = none ∧ e.isReset = false) :
      s.Turn env ⟨.returned r, s, effects⟩
  | released {item : Item} {delay : Sleep} (hp : s.pendingItem = some item) (hd : s.delay = some delay) :
      s.Turn env ⟨.returned (.ready (some item)), { s with delay := none, pendingItem := none },
        [.coop (.ready ()), .delay (.ready ()), .setDelay none]⟩
  | undelayed {item : Item} (hp : s.pendingItem = some item) (hd : s.delay = none) :
      s.Turn env ⟨.returned (.ready (some item)), { s with pendingItem := none }, [.coop (.ready ())]⟩
  | passed {item : Item} (hp : s.pendingItem = none) (hd : s.delay = none) :
      s.Turn env ⟨.returned (.ready (some item)), s,
        [.coop (.ready ()), .inner (.ready (some item)), .consumeWithBorrow (s.weightFn item),
          .madeProgress]⟩
  | staged {item : Item} {deadline : ℚ} (hp : s.pendingItem = none) (hlt : env.now < deadline) :
      s.Turn env ⟨.returned .pending, { s with delay := some ⟨deadline⟩, pendingItem := some item },
        [.coop (.ready ()), .inner (.ready (some item)), .consumeWithBorrow (s.weightFn item),
          .setDelay (some ⟨deadline⟩), .wake, .madeProgress]⟩
  /-- Staged with no delay. -/
  | overlong {item : Item} (hp : s.pendingItem = none) (hd : s.delay = none) :
      s.Turn env ⟨.panicked .durationFrom, { s with pendingItem := some item },
        [.coop (.ready ()), .inner (.ready (some item)), .consumeWithBorrow (s.weightFn item)]⟩

theorem polls_turn (hw : ∀ item, (weightFn item).toRat ≤ limit.burst) (hs : s.Of limit weightFn)
    (hp : s.Polls hrtime env zt p w) : s.Turn env p := by
  obtain ⟨hbucket, rfl, hunarmed⟩ := hs
  cases hp with
  | noBudget | delayed | innerPending =>
    exact .idle (Or.inl rfl) (by simp)
  | released hpend hd he => exact .released hpend hd
  | undelayed hpend hd => exact .undelayed hpend hd
  | ended hpend hi =>
    exact .idle (Or.inr ⟨rfl, hpend, by simp⟩) (by simp)
  | refused hc hb hpend hi hlt =>
    -- The weights fit.
    rw [hbucket] at hb
    cases hb
    exact absurd (hw _) (not_le.2 hlt)
  | passed hb hpend hi hle hpaid => exact .passed hpend (hunarmed hpend)
  | staged hb hpend hi hle hlt hfit ha =>
    rw [hunarmed hpend] at ha
    obtain ⟨rfl, rfl⟩ := arm_of_none ha
    exact .staged hpend (by simpa using hlt)
  | overlong hc hb hpend hi hle hlong => exact .overlong hpend (hunarmed hpend)
  | unthrottled hb =>
    rw [hbucket] at hb
    cases hb

/-- **One poll.** What it returns and leaves staged is what was staged and what it pulled, and it
charges what it pulled. -/
structure Step.Adds (limit : Limit) (weightFn : Item → NonZeroU32) (x : Step Item) : Prop where
  stream : x.polled.stream.Of limit weightFn
  items : x.polled.outcome.item.toList ++ x.polled.stream.pendingItem.toList =
    x.before.pendingItem.toList ++ x.pulled
  charges : x.polled.effects.filterMap Effect.charged = x.pulled.map weightFn
  neverReset : ∀ e ∈ x.polled.effects, e.isReset = false
  ended : x.polled.outcome = .returned (.ready none) →
    x.before.pendingItem = none ∧ .inner (.ready none) ∈ x.polled.effects

theorem poll_adds (hs : s.Of limit weightFn) (hp : s.Turn env p) :
    Step.Adds limit weightFn ⟨s, env, p⟩ := by
  obtain ⟨hbucket, rfl, hunarmed⟩ := hs
  cases hp with
  | @idle r effects hr hnone =>
    have hpulled : effects.filterMap Effect.pulled = [] :=
      List.filterMap_eq_nil_iff.2 fun e he => (hnone e he).1
    have hcharged : effects.filterMap Effect.charged = [] :=
      List.filterMap_eq_nil_iff.2 fun e he => (hnone e he).2.1
    have hitem : (Outcome.returned r).item = none := by
      rcases hr with rfl | ⟨rfl, -, -⟩ <;> rfl
    refine ⟨⟨hbucket, rfl, hunarmed⟩, ?_, ?_, fun e he => (hnone e he).2.2, ?_⟩
    · simp [Step.pulled, hpulled, hitem]
    · simp [Step.pulled, hpulled, hcharged]
    · intro hready
      rcases hr with rfl | ⟨rfl, hpend, hmem⟩
      · cases hready
      · exact ⟨hpend, hmem⟩
  | @released item delay hpend hd =>
    refine ⟨⟨hbucket, rfl, fun _ => rfl⟩, ?_, rfl, by simp, by rintro ⟨⟩⟩
    show [item] ++ [] = s.pendingItem.toList ++ []
    rw [hpend]
    rfl
  | @undelayed item hpend hd =>
    refine ⟨⟨hbucket, rfl, fun _ => hd⟩, ?_, rfl, by simp, by rintro ⟨⟩⟩
    show [item] ++ [] = s.pendingItem.toList ++ []
    rw [hpend]
    rfl
  | @passed item hpend hd =>
    refine ⟨⟨hbucket, rfl, hunarmed⟩, ?_, rfl, by simp, by rintro ⟨⟩⟩
    show [item] ++ s.pendingItem.toList = s.pendingItem.toList ++ [item]
    rw [hpend]
    rfl
  | @staged item deadline hpend | @overlong item hpend =>
    refine ⟨⟨hbucket, rfl, by rintro ⟨⟩⟩, ?_, rfl, by simp, by rintro ⟨⟩⟩
    show [] ++ [item] = s.pendingItem.toList ++ [item]
    rw [hpend]
    rfl

theorem Accounted.start (weightFn : Item → NonZeroU32) (bucket : Option Limit) :
    Accounted weightFn [] (.new bucket weightFn) := ⟨rfl, rfl, by simp, by simp⟩

theorem Accounted.step {x : Step Item} (h : Accounted weightFn steps x.before)
    (hx : x.Adds limit weightFn) : Accounted weightFn (steps ++ [x]) x.polled.stream := by
  obtain ⟨hitems, hcharges, hreset, hended⟩ := h
  constructor
  · rw [returned_concat, pulled_concat, List.append_assoc, hx.items, ← List.append_assoc, hitems]
  · rw [charged_concat, pulled_concat, hcharges, List.map_append, hx.charges]
  · exact forall_mem_concat.2 ⟨hreset, hx.neverReset⟩
  · exact forall_mem_concat.2 ⟨hended, hx.ended⟩

/-! ## Where it stays settled -/

theorem Limit.charged_lt_iff (limit : Limit) {now c : ℚ} (hc : c ≤ limit.burst) :
    limit.charged now zt c < now + 2 ^ 64 ↔ zt + c / limit.rate < now + 2 ^ 64 := by
  have hle : c / limit.rate ≤ limit.burst / limit.rate := div_le_div_of_nonneg_right hc limit.rate_pos.le
  have hfloor : now - limit.burst / limit.rate + c / limit.rate < now + 2 ^ 64 := by linarith
  rw [Limit.charged, Limit.capped, ← max_add_add_right, max_lt_iff, and_iff_left hfloor]

/-- A poll that stages an item arms a delay for it exactly when its wait fits into a `Duration`. -/
theorem settled_iff (hw : ∀ item, (weightFn item).toRat ≤ limit.burst) (hs : s.Of limit weightFn)
    (hsettled : s.Settled) (hp : s.Polls hrtime env zt p w) : p.stream.Settled ↔ s.WaitFits env zt := by
  obtain ⟨hbucket, rfl, hunarmed⟩ := hs
  cases hp with
  | noBudget hc => exact iff_of_true hsettled (forPull_of_coop hc)
  | delayed hpend => exact iff_of_true hsettled (forPull_of_pending hpend)
  | released hpend => exact iff_of_true rfl (forPull_of_pending hpend)
  | undelayed hpend hd => exact absurd hsettled (not_settled_of_unarmed hpend hd)
  | innerPending hi | ended _ hi => exact iff_of_true hsettled (forPull_of_inner hi (by rintro _ ⟨⟩))
  | refused hc hb hpend hi hlt =>
    rw [hbucket] at hb
    cases hb
    exact absurd (hw _) (not_le.2 hlt)
  | passed hb hpend hi hle hpaid =>
    exact iff_of_true hsettled (forPull_of_pull hb hi ((Limit.charged_lt_iff _ hle).1 (by linarith)))
  | staged hb hpend hi hle hlt hfit ha =>
    rw [hunarmed hpend] at ha
    obtain ⟨rfl, rfl⟩ := arm_of_none ha
    exact iff_of_true rfl (forPull_of_pull hb hi ((Limit.charged_lt_iff _ hle).1 hfit))
  | overlong hc hb hpend hi hle hlong =>
    refine iff_of_false (not_settled_of_unarmed rfl (hunarmed hpend)) fun h => ?_
    exact absurd ((Limit.charged_lt_iff _ hle).2 (h _ _ hc hb hpend hi)) (not_lt.2 hlong)
  | unthrottled hb =>
    rw [hbucket] at hb
    cases hb

/-- After some polls a stream is accounted for, and has been settled exactly if every wait fitted. -/
structure Kept (limit : Limit) (weightFn : Item → NonZeroU32) (log : List (Step Item × ℚ))
    (s : WeightedStream Item) : Prop where
  stream : s.Of limit weightFn
  accounted : Accounted weightFn (log.map Prod.fst) s
  settled : (s.Settled ∧ ∀ y ∈ log, y.1.before.Settled ∧ y.1.polled.stream.Settled) ↔
    ∀ y ∈ log, y.1.before.WaitFits y.1.env y.2

theorem Kept.step {log : List (Step Item × ℚ)} (hw : ∀ item, (weightFn item).toRat ≤ limit.burst)
    (h : Kept limit weightFn log s) (hp : s.Polls hrtime env zt p w) :
    Kept limit weightFn (log ++ [(⟨s, env, p⟩, zt)]) p.stream := by
  have hx := poll_adds h.stream (polls_turn hw h.stream hp)
  refine ⟨hx.stream, by simpa using h.accounted.step hx, ?_⟩
  rw [forall_mem_concat, forall_mem_concat, ← h.settled]
  constructor
  · rintro ⟨hs', hall, hs, -⟩
    exact ⟨⟨hs, hall⟩, (settled_iff hw h.stream hs hp).1 hs'⟩
  · rintro ⟨⟨hs, hall⟩, hfit⟩
    have hs' := (settled_iff hw h.stream hs hp).2 hfit
    exact ⟨hs', hall, hs, hs'⟩

end

/-- The poll does not unwrap an `Err`, and an item it pulls is staged or returned by it. -/
def Step.Keeps (x : Step Item) : Prop :=
  x.polled.outcome ≠ .panicked .unwrap ∧
    ∀ item ∈ x.pulled, x.polled.stream.pendingItem = some item ∨
      x.polled.outcome = .returned (.ready (some item))

section
variable {s : WeightedStream Item} {env : Env Item} {item : Item}

theorem arm_effect {hrtime : Bool} {delay delay' : Option Sleep} {now : ℚ} {duration : Duration}
    {armed : Effect Item} (h : WeightedStream.arm hrtime delay now duration = (delay', armed)) :
    armed = .setDelay delay' ∨ ∃ deadline, armed = .resetDelay deadline := by
  unfold WeightedStream.arm at h
  split at h
  · cases h
    exact Or.inl rfl
  · cases delay with
    | none =>
      cases h
      exact Or.inl rfl
    | some d =>
      cases h
      exact Or.inr ⟨_, rfl⟩

/-- A poll keeps what it pulls exactly when that fits: the bucket refuses to lend more than the burst,
and the refusal is unwrapped after the item has left the inner stream. -/
theorem keeps_iff {hrtime : Bool} {zt w : ℚ} {p : Polled Item} (hp : s.Polls hrtime env zt p w) :
    Step.Keeps ⟨s, env, p⟩ ↔ s.Fits env := by
  cases hp with
  | noBudget hc => exact iff_of_true ⟨by rintro ⟨⟩, by rintro _ ⟨⟩⟩ (forPull_of_coop hc)
  | delayed hpend | released hpend | undelayed hpend =>
    exact iff_of_true ⟨by rintro ⟨⟩, by rintro _ ⟨⟩⟩ (forPull_of_pending hpend)
  | innerPending hi | ended _ hi =>
    exact iff_of_true ⟨by rintro ⟨⟩, by rintro _ ⟨⟩⟩ (forPull_of_inner hi (by rintro _ ⟨⟩))
  | refused hc hb hpend hi hlt =>
    refine iff_of_false (fun h => h.1 rfl) fun h => ?_
    exact absurd (h _ _ hc hb hpend hi) (not_le.2 hlt)
  | @passed item limit hb hpend hi hle hpaid =>
    refine iff_of_true ⟨by rintro ⟨⟩, fun item' hmem => ?_⟩ (forPull_of_pull hb hi hle)
    obtain rfl : item' = item := List.mem_singleton.1 hmem
    exact Or.inr rfl
  | @staged item limit delay armed hb hpend hi hle hlt hfit ha =>
    refine iff_of_true ⟨by rintro ⟨⟩, fun item' hmem => ?_⟩ (forPull_of_pull hb hi hle)
    rcases arm_effect ha with rfl | ⟨deadline, rfl⟩
    · obtain rfl : item' = item := List.mem_singleton.1 hmem
      exact Or.inl rfl
    · obtain rfl : item' = item := List.mem_singleton.1 hmem
      exact Or.inl rfl
  | @overlong item limit hc hb hpend hi hle hlong =>
    refine iff_of_true ⟨by rintro ⟨⟩, fun item' hmem => ?_⟩ (forPull_of_pull hb hi hle)
    obtain rfl : item' = item := List.mem_singleton.1 hmem
    exact Or.inl rfl
  | @unthrottled r hb =>
    refine iff_of_true ⟨by rintro ⟨⟩, fun item' hmem => ?_⟩ (forPull_of_unthrottled hb)
    cases r with
    | none => cases hmem
    | some item =>
      obtain rfl : item' = item := List.mem_singleton.1 hmem
      exact Or.inr rfl

end

/-- **When polling never unwraps an `Err`.** In every run of polls, none reaches the `unwrap` of an `Err` or
drops the item it pulls exactly when every item pulled for a bucket weighs no more than its burst. A poll that
panics later, in `Duration::from`, has staged its item (`faithful_iff`). -/
theorem unwrap_iff (hrtime : Bool) (bucket : Option Limit) (weightFn : Item → NonZeroU32)
    (inputs : List (Env Item × ℚ)) {fuel : Nat} (hf : 2 ≤ fuel) :
    ∃ steps s, (WeightedStream.new bucket weightFn).polls fuel hrtime inputs = some (steps, s) ∧
      steps.map Step.env = inputs.map Prod.fst ∧
      ((∀ x ∈ steps, x.Keeps) ↔ ∀ x ∈ steps, x.before.Fits x.env) := by
  obtain ⟨steps, s, hrun, henv, hiff⟩ := polls_induction hf hrtime
    (fun steps _ => ∀ x ∈ steps, x.Keeps ↔ x.before.Fits x.env)
    (fun {steps s env zt p w} h hp x hx => by
      rcases List.mem_append.1 hx with hx | hx
      · exact h x hx
      · obtain rfl := List.mem_singleton.1 hx
        exact keeps_iff hp)
    (.new bucket weightFn) (by simp) inputs
  refine ⟨steps, s, hrun, henv, ?_⟩
  exact ⟨fun h x hx => (hiff x hx).1 (h x hx), fun h x hx => (hiff x hx).2 (h x hx)⟩

/-- An item of weight two for a bucket with a burst of one: the poll panics, and the item is gone. -/
theorem overweight :
    let limit := Limit.perSecond ⟨1, by decide⟩
    let s : WeightedStream ℕ := .new (some limit) fun _ => ⟨2, by decide⟩
    let env : Env ℕ := ⟨.ready (), .pending, .ready (some 7), 1, []⟩
    ∃ p, s.poll 2 false env 0 = some (p, 0) ∧ p.outcome = .panicked .unwrap ∧
      Step.pulled ⟨s, env, p⟩ = [7] ∧ p.stream.pendingItem = none := by
  intro limit s env
  exact ⟨_, rfl, rfl, rfl, rfl⟩

/-- A weight that fits, then one that does not. -/
theorem unwrap_iff_overweight :
    let inputs : List (Env ℕ × ℚ) := [(⟨.ready (), .pending, .ready (some 1), 1, []⟩, 0),
      (⟨.ready (), .pending, .ready (some 2), 2, []⟩, 1)]
    let weightFn : ℕ → NonZeroU32 := fun item => if item = 1 then ⟨1, by decide⟩ else ⟨2, by decide⟩
    ∃ steps s, (WeightedStream.new (some (.perSecond ⟨1, by decide⟩)) weightFn).polls 2 true inputs =
        some (steps, s) ∧
      steps.map Step.env = inputs.map Prod.fst ∧
      ((∀ x ∈ steps, x.Keeps) ↔ ∀ x ∈ steps, x.before.Fits x.env) :=
  unwrap_iff true _ _ _ le_rfl

end Gardal
