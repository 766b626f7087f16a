import Gardal.Sequential
/-!
# `WeightedStream::poll_next` (`futures/stream.rs`)

| here | there |
| --- | --- |
| `WeightedStream` | `WeightedStream` (`stream.rs:126`) without the inner stream, which is its answers in `Env` |
| `Sleep` | `tokio::time::Sleep` or `tokio_hrtime::Sleep`: the time it was armed for |
| `Env` | what one poll meets: the coop budget, the sleep, the inner stream, the clock, the storage |
| `Effect` | what one poll does besides its result, in order |
| `hrtime` | the feature `tokio-hrtime` |

A poll is a program over the zero time, because it may call `consume_with_borrow`; everything else it
touches is its own.
-/
namespace Gardal
open Cell

inductive Poll (α : Type)
  | pending
  | ready (a : α)
  deriving DecidableEq, Repr

structure Sleep where
  deadline : ℚ
  deriving DecidableEq, Repr

structure WeightedStream (Item : Type) where
  /-- The limit of the bucket's handle, if there is a bucket. -/
  bucket : Option Limit
  weightFn : Item → NonZeroU32
  delay : Option Sleep
  pendingItem : Option Item

/-- What a poll meets. An answer counts only if the poll asks for it. -/
structure Env (Item : Type) where
  /-- `tokio::task::coop::poll_proceed`. -/
  coop : Poll Unit
  /-- The armed sleep. -/
  delay : Poll Unit
  /-- The inner stream. -/
  inner : Poll (Option Item)
  /-- The clock. -/
  now : ℚ
  /-- Which of the accesses to the zero time fail spuriously. -/
  spurious : List Bool

inductive Effect (Item : Type)
  | coop (r : Poll Unit)
  | delay (r : Poll Unit)
  | inner (r : Poll (Option Item))
  | consumeWithBorrow (weight : NonZeroU32)
  | setDelay (delay : Option Sleep)
  | resetDelay (deadline : ℚ)
  | wake
  | madeProgress
  deriving DecidableEq

inductive Panic
  /-- The `unwrap` of an `Err` (`stream.rs:273`). -/
  | unwrap
  /-- `Duration::from` of a wait that does not fit (`stream.rs:279`, `:284`, `:286`). -/
  | durationFrom
  deriving DecidableEq, Repr

inductive Outcome (Item : Type)
  | returned (r : Poll (Option Item))
  | panicked (why : Panic)
  deriving DecidableEq, Repr

structure Polled (Item : Type) where
  outcome : Outcome Item
  stream : WeightedStream Item
  effects : List (Effect Item)

namespace WeightedStream
variable {Item : Type}

/-- `WeightedStream::new` (`stream.rs:176`). -/
def new (bucket : Option Limit) (weightFn : Item → NonZeroU32) : WeightedStream Item :=
  ⟨bucket, weightFn, none, none⟩

/-- How the sleep for a wait of `duration` is armed (`stream.rs:277-288`). -/
def arm (hrtime : Bool) (delay : Option Sleep) (now : ℚ) (duration : Duration) :
    Option Sleep × Effect Item :=
  let deadline := now + duration.secs
  if hrtime then (some ⟨deadline⟩, .setDelay (some ⟨deadline⟩))
  else
    match delay with
    | some _ => (some ⟨deadline⟩, .resetDelay deadline)
    | none => (some ⟨deadline⟩, .setDelay (some ⟨deadline⟩))

/-- `WeightedStream::poll_next` (`stream.rs:252`). -/
def pollNext (hrtime : Bool) (s : WeightedStream Item) (env : Env Item) : Code (Polled Item) :=
  match env.coop with
  | .pending => return ⟨.returned .pending, s, [.coop .pending]⟩
  | .ready () =>
    match s.bucket with
    | some limit =>
      match s.pendingItem with
      | some item =>
        match s.delay with
        | some _ =>
          match env.delay with
          | .pending => return ⟨.returned .pending, s, [.coop (.ready ()), .delay .pending]⟩
          | .ready () => return ⟨.returned (.ready (some item)), { s with delay := none, pendingItem := none },
              [.coop (.ready ()), .delay (.ready ()), .setDelay none]⟩
        | none => return ⟨.returned (.ready (some item)), { s with pendingItem := none },
            [.coop (.ready ())]⟩
      | none =>
        match env.inner with
        | .pending => return ⟨.returned .pending, s, [.coop (.ready ()), .inner .pending]⟩
        | .ready none => return ⟨.returned (.ready none), s, [.coop (.ready ()), .inner (.ready none)]⟩
        | .ready (some item) => do
          let weight := s.weightFn item
          let pulled := [.coop (.ready ()), .inner (.ready (some item)), .consumeWithBorrow weight]
          match ← RawTokenBucket.consumeWithBorrow weight env.now limit with
          | .error _ => return ⟨.panicked .unwrap, s, pulled⟩
          | .ok (some duration) =>
            let staged := { s with pendingItem := some item }
            -- Converted after the item is staged, and before a delay is armed.
            match duration.toDuration with
            | none => return ⟨.panicked .durationFrom, staged, pulled⟩
            | some duration =>
              let (delay, armed) := arm hrtime s.delay env.now duration
              return ⟨.returned .pending, { staged with delay }, pulled ++ [armed, .wake, .madeProgress]⟩
          | .ok none => return ⟨.returned (.ready (some item)), s, pulled ++ [.madeProgress]⟩
    | none =>
      match env.inner with
      | .pending => return ⟨.returned .pending, s, [.coop (.ready ()), .inner .pending]⟩
      | .ready item => return ⟨.returned (.ready item), s,
          [.coop (.ready ()), .inner (.ready item), .madeProgress]⟩

end WeightedStream

/-- `ThrottledStream::new` (`stream.rs:57`): its `poll_next` is that of the weighted stream. -/
def ThrottledStream.new {Item : Type} (bucket : Option Limit) : WeightedStream Item :=
  .new bucket fun _ => ⟨1, by decide⟩

/-! ## What a poll can do -/

/-- Every way a poll can go, from the zero time `zt`: its outcome, the stream and the zero time it leaves,
and its effects. -/
inductive WeightedStream.Polls {Item : Type} (hrtime : Bool) (s : WeightedStream Item) (env : Env Item)
    (zt : ℚ) : Polled Item → ℚ → Prop
  | noBudget (hc : env.coop = .pending) : s.Polls hrtime env zt ⟨.returned .pending, s, [.coop .pending]⟩ zt
  | delayed {item : Item} {delay : Sleep} (hp : s.pendingItem = some item) (hd : s.delay = some delay) :
      s.Polls hrtime env zt ⟨.returned .pending, s, [.coop (.ready ()), .delay .pending]⟩ zt
  | released {item : Item} {delay : Sleep} (hp : s.pendingItem = some item) (hd : s.delay = some delay)
      (he : env.delay = .ready ()) :
      s.Polls hrtime env zt ⟨.returned (.ready (some item)), { s with delay := none, pendingItem := none },
        [.coop (.ready ()), .delay (.ready ()), .setDelay none]⟩ zt
  | undelayed {item : Item} (hp : s.pendingItem = some item) (hd : s.delay = none) :
      s.Polls hrtime env zt ⟨.returned (.ready (some item)), { s with pendingItem := none },
        [.coop (.ready ())]⟩ zt
  | innerPending (hi : env.inner = .pending) :
      s.Polls hrtime env zt ⟨.returned .pending, s, [.coop (.ready ()), .inner .pending]⟩ zt
  | ended (hp : s.pendingItem = none) (hi : env.inner = .ready none) :
      s.Polls hrtime env zt ⟨.returned (.ready none), s, [.coop (.ready ()), .inner (.ready none)]⟩ zt
  | refused {item : Item} {limit : Limit} (hc : env.coop = .ready ()) (hb : s.bucket = some limit)
      (hp : s.pendingItem = none) (hi : env.inner = .ready (some item))
      (hw : limit.burst < (s.weightFn item).toRat) :
      s.Polls hrtime env zt ⟨.panicked .unwrap, s,
        [.coop (.ready ()), .inner (.ready (some item)), .consumeWithBorrow (s.weightFn item)]⟩ zt
  | passed {item : Item} {limit : Limit} (hb : s.bucket = some limit) (hp : s.pendingItem = none)
      (hi : env.inner = .ready (some item)) (hw : (s.weightFn item).toRat ≤ limit.burst)
      (hle : limit.charged env.now zt (s.weightFn item).toRat ≤ env.now) :
      s.Polls hrtime env zt ⟨.returned (.ready (some item)), s,
        [.coop (.ready ()), .inner (.ready (some item)), .consumeWithBorrow (s.weightFn item),
          .madeProgress]⟩ (limit.charged env.now zt (s.weightFn item).toRat)
  | staged {item : Item} {limit : Limit} {delay : Option Sleep} {armed : Effect Item}
      (hb : s.bucket = some limit) (hp : s.pendingItem = none) (hi : env.inner = .ready (some item))
      (hw : (s.weightFn item).toRat ≤ limit.burst)
      (hlt : env.now < limit.charged env.now zt (s.weightFn item).toRat)
      (hfit : limit.charged env.now zt (s.weightFn item).toRat < env.now + 2 ^ 64)
      (ha : WeightedStream.arm hrtime s.delay env.now
        ⟨limit.charged env.now zt (s.weightFn item).toRat - env.now⟩ = (delay, armed)) :
      s.Polls hrtime env zt ⟨.returned .pending, { s with delay, pendingItem := some item },
        [.coop (.ready ()), .inner (.ready (some item)), .consumeWithBorrow (s.weightFn item), armed,
          .wake, .madeProgress]⟩ (limit.charged env.now zt (s.weightFn item).toRat)
  | overlong {item : Item} {limit : Limit} (hc : env.coop = .ready ()) (hb : s.bucket = some limit)
      (hp : s.pendingItem = none) (hi : env.inner = .ready (some item))
      (hw : (s.weightFn item).toRat ≤ limit.burst)
      (hlong : env.now + 2 ^ 64 ≤ limit.charged env.now zt (s.weightFn item).toRat) :
      s.Polls hrtime env zt ⟨.panicked .durationFrom, { s with pendingItem := some item },
        [.coop (.ready ()), .inner (.ready (some item)), .consumeWithBorrow (s.weightFn item)]⟩
        (limit.charged env.now zt (s.weightFn item).toRat)
  | unthrottled {r : Option Item} (hb : s.bucket = none) :
      s.Polls hrtime env zt ⟨.returned (.ready r), s,
        [.coop (.ready ()), .inner (.ready r), .madeProgress]⟩ zt

theorem toDuration_of_lt {now t : ℚ} (hlt : now < t) (hfit : t < now + 2 ^ 64) :
    Nanos.toDuration ⟨t - now⟩ = some ⟨t - now⟩ :=
  if_pos ⟨by linarith, by linarith⟩

theorem toDuration_of_le {now t : ℚ} (hlong : now + 2 ^ 64 ≤ t) : Nanos.toDuration ⟨t - now⟩ = none :=
  if_neg fun h => by linarith [h.2]

theorem pollNext_runLocal {Item : Type} (hrtime : Bool) (s : WeightedStream Item) (env : Env Item)
    {fuel : Nat} (hf : 2 ≤ fuel) (zt : ℚ) :
    ∃ p w, (s.pollNext hrtime env).runLocal fuel zt = some (p, w) ∧ s.Polls hrtime env zt p w := by
  obtain ⟨bucket, weightFn, delay, pendingItem⟩ := s
  obtain ⟨coop, edelay, inner, now, spurious⟩ := env
  cases coop with
  | pending => exact ⟨_, _, rfl, .noBudget rfl⟩
  | ready u =>
    cases bucket with
    | none =>
      cases inner with
      | pending => exact ⟨_, _, rfl, .innerPending rfl⟩
      | ready r => exact ⟨_, _, rfl, .unthrottled rfl⟩
    | some limit =>
      cases pendingItem with
      | some item =>
        cases delay with
        | none => exact ⟨_, _, rfl, .undelayed rfl rfl⟩
        | some d =>
          cases edelay with
          | pending => exact ⟨_, _, rfl, .delayed rfl rfl⟩
          | ready u => exact ⟨_, _, rfl, .released rfl rfl rfl⟩
      | none =>
        rcases inner with _ | _ | item
        · exact ⟨_, _, rfl, .innerPending rfl⟩
        · exact ⟨_, _, rfl, .ended rfl rfl⟩
        · simp only [WeightedStream.pollNext, Prog.bind_eq_bind, Prog.runLocal,
            consumeWithBorrow_runLocal (weightFn item) hf]
          by_cases hb : limit.burst < (weightFn item).toRat
          · rw [if_pos hb]
            exact ⟨_, _, rfl, .refused rfl rfl rfl rfl hb⟩
          · rw [if_neg hb]
            by_cases hle : limit.charged now zt (weightFn item).toRat ≤ now
            · rw [if_pos hle]
              exact ⟨_, _, rfl, .passed rfl rfl rfl (not_lt.1 hb) hle⟩
            · rw [if_neg hle]
              have hlt := not_le.1 hle
              simp only
              by_cases hfit : limit.charged now zt (weightFn item).toRat < now + 2 ^ 64
              · rw [toDuration_of_lt hlt hfit]
                exact ⟨_, _, rfl, .staged rfl rfl rfl (not_lt.1 hb) hlt hfit rfl⟩
              · rw [toDuration_of_le (not_lt.1 hfit)]
                exact ⟨_, _, rfl, .overlong rfl rfl rfl rfl (not_lt.1 hb) (not_lt.1 hfit)⟩

theorem pollNext_steady {Item : Type} (hrtime : Bool) (s : WeightedStream Item) (env : Env Item) :
    (s.pollNext hrtime env).Steady := by
  obtain ⟨bucket, weightFn, delay, pendingItem⟩ := s
  obtain ⟨coop, edelay, inner, now, spurious⟩ := env
  cases coop with
  | pending => exact .ret _
  | ready u =>
    cases bucket with
    | none => cases inner <;> exact .ret _
    | some limit =>
      cases pendingItem with
      | some item =>
        cases delay with
        | none => exact .ret _
        | some d => cases edelay <;> exact .ret _
      | none =>
        rcases inner with _ | _ | item
        · exact .ret _
        · exact .ret _
        · refine .bind (consumeWithBorrow_steady _ _ _) fun r => ?_
          rcases r with _ | _ | duration
          · exact .ret _
          · exact .ret _
          · cases h : duration.toDuration <;> simp only [h] <;> exact .ret _

/-- One poll from the zero time `zt`, which no one else touches meanwhile: what it does and the zero time
it leaves. Its loops are given `fuel` iterations, and one more for each spurious failure. -/
def WeightedStream.poll {Item : Type} (fuel : Nat) (hrtime : Bool) (s : WeightedStream Item)
    (env : Env Item) (zt : ℚ) : Option (Polled Item × ℚ) := do
  let (p, (w, _)) ← (s.pollNext hrtime env).runAlone (fuel + env.spurious.length) (zt, env.spurious)
  return (p, w)

/-- **One poll.** It ends, and in one of the ways of `Polls`. -/
theorem poll_polls {Item : Type} (hrtime : Bool) (s : WeightedStream Item) (env : Env Item) {fuel : Nat}
    (hf : 2 ≤ fuel) (zt : ℚ) :
    ∃ p w, s.poll fuel hrtime env zt = some (p, w) ∧ s.Polls hrtime env zt p w := by
  obtain ⟨p, w, hrun, hp⟩ := pollNext_runLocal hrtime s env hf zt
  obtain ⟨rest, hrest, -⟩ := (pollNext_steady hrtime s env).runAlone_of_runLocal hrun env.spurious le_rfl
  exact ⟨p, w, by simp [WeightedStream.poll, hrest], hp⟩

end Gardal
