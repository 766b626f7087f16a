import Gardal.StreamItems
/-!
# Who wakes the task that polls a stream

A poll that returns `Pending` must leave somebody who will wake the task. `poll_next` hands its context `cx`
to whatever it polls, and each of these keeps the waker in it when it answers `Pending`:

| effect | there | afterwards |
| --- | --- | --- |
| `coop`, `inner` | `poll_proceed(cx)`, `stream.poll_next(cx)` | holds the waker of `cx` if it was pending |
| `delay` | `delay.poll(cx)` | the same |
| `setDelay`, `resetDelay` | a new sleep, or one that starts anew | the delay holds no waker |
| `wake` | `cx.waker().wake_by_ref()` | the task of `cx` is woken |

A sleep that has been armed but not polled wakes nobody. `no_lost_wakeup`: it is never all there is.
-/
namespace Gardal

/-- The wakers that are kept between two polls, and the one woken by the latest poll itself. A waker is
that of the context it was taken from. -/
structure Wakers (Ctx : Type) where
  coop : Option Ctx
  delay : Option Ctx
  inner : Option Ctx
  woken : Option Ctx

namespace Wakers
variable {Ctx Item : Type}

def kept {α : Type} (cx : Ctx) : Poll α → Option Ctx
  | .pending => some cx
  | .ready _ => none

/-- One effect of a poll with the context `cx`. -/
def note (cx : Ctx) (w : Wakers Ctx) : Effect Item → Wakers Ctx
  | .coop r => { w with coop := kept cx r }
  | .delay r => { w with delay := kept cx r }
  | .inner r => { w with inner := kept cx r }
  | .setDelay _ | .resetDelay _ => { w with delay := none }
  | .wake => { w with woken := some cx }
  | .consumeWithBorrow _ | .madeProgress => w

/-- The wakers after a poll with the context `cx`. -/
def afterPoll (cx : Ctx) (w : Wakers Ctx) (x : Step Item) : Wakers Ctx :=
  x.polled.effects.foldl (note cx) { w with woken := none }

/-- The wakers after some polls, each with its context. -/
def after (w : Wakers Ctx) (l : List (Ctx × Step Item)) : Wakers Ctx :=
  l.foldl (fun w y => w.afterPoll y.1 y.2) w

theorem after_concat (w : Wakers Ctx) (l : List (Ctx × Step Item)) (cx : Ctx) (x : Step Item) :
    w.after (l ++ [(cx, x)]) = (w.after l).afterPoll cx x := by
  simp [after]

end Wakers

@[simp] def Effect.arms {Item : Type} : Effect Item → Bool
  | .setDelay (some _) | .resetDelay _ => true
  | _ => false

/-- What is to be shown of a poll with the context `cx` that returned `Pending` and left the wakers `w`. -/
structure Step.Roused {Ctx Item : Type} (x : Step Item) (cx : Ctx) (w : Wakers Ctx) : Prop where
  /-- It woke its task, or polled something that was pending. -/
  during : .wake ∈ x.polled.effects ∨ .coop .pending ∈ x.polled.effects ∨
    .delay .pending ∈ x.polled.effects ∨ .inner .pending ∈ x.polled.effects
  /-- So its task has been woken, or its waker is with the coop budget, the armed delay or the inner
  stream. -/
  held : w.woken = some cx ∨ w.coop = some cx ∨
    (w.delay = some cx ∧ x.polled.stream.delay.isSome) ∨ w.inner = some cx
  /-- If it armed the delay it woke its task. -/
  armed : ∀ e ∈ x.polled.effects, e.arms = true → w.woken = some cx
  /-- A delay that has not been polled is not all there is. -/
  unpolled : x.polled.stream.delay.isSome → w.delay = none →
    w.woken = some cx ∨ w.coop = some cx ∨ w.inner = some cx

section
variable {Ctx Item : Type} {hrtime : Bool} {s : WeightedStream Item} {env : Env Item} {zt zt' : ℚ}
  {p : Polled Item}

/-- **One poll.** -/
theorem polls_roused (cx : Ctx) (w : Wakers Ctx) (h : s.Polls hrtime env zt p zt')
    (hp : p.outcome = .returned .pending) :
    (Step.mk s env p).Roused cx (w.afterPoll cx ⟨s, env, p⟩) := by
  cases h with
  | noBudget hc =>
    have hcoop : (w.afterPoll cx ⟨s, env, ⟨.returned .pending, s, [.coop .pending]⟩⟩).coop = some cx := rfl
    refine ⟨?_, .inr (.inl hcoop), ?_, fun _ _ => .inr (.inl hcoop)⟩
    · simp
    · simp
  | @delayed item delay hpend hd =>
    refine ⟨?_, .inr (.inr (.inl ⟨rfl, ?_⟩)), ?_, ?_⟩
    · simp
    · simp [hd]
    · simp
    · rintro - ⟨⟩
  | innerPending hi =>
    have hinner : (w.afterPoll cx
        ⟨s, env, ⟨.returned .pending, s, [.coop (.ready ()), .inner .pending]⟩⟩).inner = some cx := rfl
    refine ⟨?_, .inr (.inr (.inr hinner)), ?_, fun _ _ => .inr (.inr hinner)⟩
    · simp
    · simp
  | @staged item limit delay armed hb hpend hi hw hlt hfit ha =>
    have hwoken : (w.afterPoll cx ⟨s, env, ⟨.returned .pending, { s with delay, pendingItem := some item },
        [.coop (.ready ()), .inner (.ready (some item)), .consumeWithBorrow (s.weightFn item), armed,
          .wake, .madeProgress]⟩⟩).woken = some cx := rfl
    exact ⟨.inl (by simp), .inl hwoken, fun _ _ _ => hwoken, fun _ _ => .inl hwoken⟩
  | released | undelayed | ended | refused | passed | overlong | unthrottled => cases hp

end

/-- **No lost wake-up.** However a stream is polled, whatever its polls meet and with whichever contexts:
a poll that returns `Pending` has its own task woken, or its waker kept by something it polled. -/
theorem no_lost_wakeup {Ctx Item : Type} (hrtime : Bool) (s : WeightedStream Item) (w : Wakers Ctx)
    (inputs : List (Env Item × ℚ)) (contexts : List Ctx) {fuel : Nat} (hf : 2 ≤ fuel) :
    ∃ steps s', s.polls fuel hrtime inputs = some (steps, s') ∧ steps.length = inputs.length ∧
      ∀ before cx x later, contexts.zip steps = before ++ (cx, x) :: later →
        x.polled.outcome = .returned .pending → x.Roused cx (w.after (before ++ [(cx, x)])) := by
  obtain ⟨steps, s', hrun, henv, hall⟩ := polls_induction hf hrtime
    (fun steps _ => ∀ x ∈ steps, ∃ zt zt', x.before.Polls hrtime x.env zt x.polled zt')
    (fun {steps s env zt p zt'} ih hpolls x hx => by
      rcases List.mem_append.1 hx with hx | hx
      · exact ih x hx
      · obtain rfl := List.mem_singleton.1 hx
        exact ⟨zt, zt', hpolls⟩)
    s (by simp) inputs
  refine ⟨steps, s', hrun, by simpa using congrArg List.length henv, ?_⟩
  intro before cx x later hsplit hpending
  have hmem : (cx, x) ∈ contexts.zip steps := by simp [hsplit]
  obtain ⟨zt, zt', hpolls⟩ := hall x (List.of_mem_zip hmem).2
  rw [Wakers.after_concat]
  exact polls_roused cx (w.after before) hpolls hpending

/-- An item is pulled and staged, and then the delay is polled, by two tasks. -/
theorem no_lost_wakeup_two :
    let s : WeightedStream Nat := ThrottledStream.new (some (.perSecond ⟨1, by decide⟩))
    let inputs : List (Env Nat × ℚ) := [(⟨.ready (), .pending, .ready (some 7), 0, [true]⟩, 0),
      (⟨.ready (), .pending, .pending, 0, []⟩, 1)]
    ∃ steps s', s.polls 2 false inputs = some (steps, s') ∧ steps.length = 2 ∧
      ∀ before cx x later, ["first", "second"].zip steps = before ++ (cx, x) :: later →
        x.polled.outcome = .returned .pending →
        x.Roused cx (Wakers.after ⟨none, none, none, none⟩ (before ++ [(cx, x)])) :=
  no_lost_wakeup false _ _ _ _ le_rfl

end Gardal
