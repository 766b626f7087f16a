import Gardal.StreamItems
import Mathlib.Algebra.BigOperators.Group.Finset.Piecewise
import Mathlib.Algebra.Order.BigOperators.Group.Finset
/-!
# Delivery from streams that share a bucket

Any number of streams hold clones of one bucket and are polled in any order; each poll finds the zero time
that the one before it left. `delivery_rate` bounds what they pull and deliver in a window.

A stream that goes into debt for an item keeps it until its sleep is over, so the item is delivered no
earlier than the time at which the bucket admits it, and it was pulled no later. Counted at those times
the items are the grants of a `Ledger.History`, whatever the order of the polls.
-/
namespace Gardal
open Cell Ledger

variable {ι Item : Type}

/-- Streams over one zero time. -/
structure Fleet (ι Item : Type) where
  zeroTime : ℚ
  streams : ι → WeightedStream Item

/-- Polls one after another, each of the stream it names. -/
def Fleet.polls [DecidableEq ι] (fuel : Nat) (hrtime : Bool) :
    Fleet ι Item → List (ι × Env Item) → Option (List (ι × Step Item) × Fleet ι Item)
  | fleet, [] => some ([], fleet)
  | fleet, (i, env) :: rest => do
    let s := fleet.streams i
    let (p, zeroTime) ← s.poll fuel hrtime env fleet.zeroTime
    let (log, fleet') ← Fleet.polls fuel hrtime ⟨zeroTime, Function.update fleet.streams i p.stream⟩ rest
    return ((i, ⟨s, env, p⟩) :: log, fleet')

/-- What every poll keeps holds after any number of them. -/
theorem fleet_induction [DecidableEq ι] {fuel : Nat} (hf : 2 ≤ fuel) (hrtime : Bool)
    (P : List (ι × Step Item) → Fleet ι Item → Prop)
    (hstep : ∀ {log fleet i env p w}, P log fleet →
      (fleet.streams i).Polls hrtime env fleet.zeroTime p w →
      P (log ++ [(i, ⟨fleet.streams i, env, p⟩)]) ⟨w, Function.update fleet.streams i p.stream⟩)
    (fleet : Fleet ι Item) (h : P [] fleet) (inputs : List (ι × Env Item)) :
    ∃ log fleet', fleet.polls fuel hrtime inputs = some (log, fleet') ∧
      log.map (fun x => (x.1, x.2.env)) = inputs ∧ P log fleet' := by
  suffices hany : ∀ before fleet, P before fleet →
      ∃ log fleet', fleet.polls fuel hrtime inputs = some (log, fleet') ∧
        log.map (fun x => (x.1, x.2.env)) = inputs ∧ P (before ++ log) fleet' by
    simpa using hany [] fleet h
  clear h fleet
  intro before fleet h
  induction inputs generalizing before fleet with
  | nil => exact ⟨[], fleet, rfl, rfl, by simpa using h⟩
  | cons x inputs ih =>
    obtain ⟨i, env⟩ := x
    obtain ⟨p, w, hrun, hp⟩ := poll_polls hrtime (fleet.streams i) env hf fleet.zeroTime
    obtain ⟨log, fleet', hrest, hlog, hP⟩ := ih _ _ (hstep h hp)
    refine ⟨(i, ⟨fleet.streams i, env, p⟩) :: log, fleet', ?_, ?_, by simpa using hP⟩
    · simp [Fleet.polls, hrun, hrest]
    · simp [hlog]

/-- The polls of one stream. -/
def stepsOf [DecidableEq ι] (i : ι) (log : List (ι × Step Item)) : List (Step Item) :=
  (log.filter fun x => x.1 = i).map Prod.snd

section
variable [DecidableEq ι] (i : ι) (log : List (ι × Step Item)) (x : Step Item)

theorem stepsOf_concat_self : stepsOf i (log ++ [(i, x)]) = stepsOf i log ++ [x] := by
  simp [stepsOf]

theorem stepsOf_concat_ne {j : ι} (h : j ≠ i) : stepsOf j (log ++ [(i, x)]) = stepsOf j log := by
  simp [stepsOf, Ne.symm h]

end

/-! ## Times -/

/-- The items a poll pulled, with its reading of the clock. -/
def Step.pulledAt (x : Step Item) : List (ℚ × Item) := x.pulled.map (x.env.now, ·)

/-- The item a poll returned, with its reading of the clock. -/
def Step.returnedAt (x : Step Item) : List (ℚ × Item) := x.polled.outcome.item.toList.map (x.env.now, ·)

def pulledAt (steps : List (Step Item)) : List (ℚ × Item) := steps.flatMap Step.pulledAt

def returnedAt (steps : List (Step Item)) : List (ℚ × Item) := steps.flatMap Step.returnedAt

/-- The weight of the items in `ps` from `t₁` on that are in the same place in `rs` until `t₂`. -/
def weightWithin (weightFn : Item → NonZeroU32) (t₁ t₂ : ℚ) (ps rs : List (ℚ × Item)) : ℚ :=
  ((ps.zip rs).map fun (p, r) => if t₁ ≤ p.1 ∧ r.1 ≤ t₂ then (weightFn p.2).toRat else 0).sum

/-- The weight of the items of one stream pulled from `t₁` on and returned until `t₂`: the `n`-th item a
stream returns is the `n`-th it pulled. -/
def delivered (weightFn : Item → NonZeroU32) (t₁ t₂ : ℚ) (steps : List (Step Item)) : ℚ :=
  weightWithin weightFn t₁ t₂ (pulledAt steps) (returnedAt steps)

/-- If the poll finds the armed sleep over, its deadline has come. -/
def Step.SleepsFully (x : Step Item) : Prop :=
  ∀ delay ∈ x.before.delay, .delay (.ready ()) ∈ x.polled.effects → delay.deadline ≤ x.env.now

instance [DecidableEq Item] (x : Step Item) : Decidable x.SleepsFully :=
  inferInstanceAs (Decidable (∀ delay ∈ x.before.delay,
    .delay (.ready ()) ∈ x.polled.effects → delay.deadline ≤ x.env.now))

/-- The poll returns. -/
def Step.Completes (x : Step Item) : Prop := ∀ why, x.polled.outcome ≠ .panicked why

instance [DecidableEq Item] (x : Step Item) : Decidable x.Completes :=
  decidable_of_iff (x.polled.outcome ≠ .panicked .unwrap ∧ x.polled.outcome ≠ .panicked .durationFrom)
    ⟨fun h why => by cases why; exacts [h.1, h.2], fun h => ⟨h _, h _⟩⟩

/-- When a poll's items are admitted: when the delay it leaves armed is over, or at once. -/
def Step.admittedAt (x : Step Item) : ℚ :=
  match x.polled.stream.delay with
  | some delay => delay.deadline
  | none => x.env.now

def Step.admitted (x : Step Item) : List (ℚ × Item) := x.pulled.map (x.admittedAt, ·)

def admitted (steps : List (Step Item)) : List (ℚ × Item) := steps.flatMap Step.admitted

/-- The weight of the items that a poll pulls from `t₁` on and admits until `t₂`. -/
def Step.admittedIn (weightFn : Item → NonZeroU32) (t₁ t₂ : ℚ) (x : Step Item) : ℚ :=
  weightWithin weightFn t₁ t₂ x.pulledAt x.admitted

/-- The staged item, with the time its delay is armed for. -/
def WeightedStream.held (s : WeightedStream Item) : List (ℚ × Item) :=
  match s.pendingItem, s.delay with
  | some item, some delay => [(delay.deadline, item)]
  | _, _ => []

/-- `b` is the same item, no earlier. -/
def NoEarlier (a b : ℚ × Item) : Prop := a.1 ≤ b.1 ∧ a.2 = b.2

/-! ## One poll -/

section
variable {limit : Limit} {weightFn : Item → NonZeroU32} {s : WeightedStream Item} {env : Env Item}
  {hrtime : Bool} {zt w : ℚ} {p : Polled Item}

theorem admittedAt_of_none (h : p.stream.delay = none) : Step.admittedAt ⟨s, env, p⟩ = env.now := by
  simp only [Step.admittedAt, h]

/-- The grants of a poll. -/
def Step.grants (weightFn : Item → NonZeroU32) (x : Step Item) : List (Entry ℚ) :=
  x.pulled.map fun item => .grant x.admittedAt (weightFn item).toRat

theorem held_of_none (hp : s.pendingItem = none) : s.held = [] := by
  simp only [WeightedStream.held, hp]

theorem held_of_some {item : Item} {delay : Sleep} (hp : s.pendingItem = some item)
    (hd : s.delay = some delay) : s.held = [(delay.deadline, item)] := by
  simp only [WeightedStream.held, hp, hd]

/-- An item a poll pulls is a grant of the bucket at the time it is admitted, if the poll completes. -/
theorem polls_grants (hs : s.Of limit weightFn) (hp : s.Polls hrtime env zt p w)
    (hdone : Step.Completes ⟨s, env, p⟩) :
    (Step.grants weightFn ⟨s, env, p⟩ = [] ∧ w = zt) ∨
      ∃ e, Step.grants weightFn ⟨s, env, p⟩ = [e] ∧ e.Moves limit.rate limit.burst zt w := by
  obtain ⟨hbucket, rfl, hunarmed⟩ := hs
  cases hp with
  | noBudget | delayed | released | undelayed | innerPending | ended => exact Or.inl ⟨rfl, rfl⟩
  | refused | overlong => exact absurd rfl (hdone _)
  | @passed item _ hb hpend hi hle hpaid =>
    obtain rfl : limit = _ := Option.some.inj (hbucket.symm.trans hb)
    have hm := limit.charged_moves env.now zt (s.weightFn item).toRat_pos.le hle
    rw [max_eq_left hpaid] at hm
    refine Or.inr ⟨.grant (Step.admittedAt _) _, rfl, ?_⟩
    rwa [admittedAt_of_none (hunarmed hpend)]
  | @staged item _ delay armed hb hpend hi hle hlt hfit ha =>
    obtain rfl : limit = _ := Option.some.inj (hbucket.symm.trans hb)
    rw [hunarmed hpend] at ha
    obtain ⟨rfl, rfl⟩ := arm_of_none ha
    have hm := limit.charged_moves env.now zt (s.weightFn item).toRat_pos.le hle
    rw [max_eq_right hlt.le] at hm
    refine Or.inr ⟨.grant (env.now + (_ - env.now)) _, rfl, ?_⟩
    rwa [add_sub_cancel]
  | unthrottled hb =>
    rw [hbucket] at hb
    cases hb

/-- What a poll pulls it admits no earlier. What it was holding or admits it returns, no earlier than it was
admitted, or holds. -/
structure Step.Timely (x : Step Item) : Prop where
  later : ∀ item ∈ x.pulled, x.env.now ≤ x.admittedAt
  settled : x.before.Settled → x.Completes → x.polled.stream.Settled
  returned : x.before.Settled → x.Completes → x.SleepsFully →
    ∃ done, x.before.held ++ x.admitted = done ++ x.polled.stream.held ∧
      List.Forall₂ NoEarlier done x.returnedAt

theorem turn_timely (hp : s.Turn env p) : Step.Timely ⟨s, env, p⟩ := by
  cases hp with
  | @idle r effects hr hnone =>
    have hpulled : Step.pulled ⟨s, env, .returned r, s, effects⟩ = [] :=
      List.filterMap_eq_nil_iff.2 fun e he => (hnone e he).1
    have hreturned : Step.returnedAt ⟨s, env, .returned r, s, effects⟩ = [] := by
      rcases hr with rfl | ⟨rfl, -, -⟩ <;> rfl
    refine ⟨by simp [hpulled], fun hs _ => hs, fun _ _ _ => ?_⟩
    rw [Step.admitted, hpulled, hreturned]
    exact ⟨[], List.append_nil _, .nil⟩
  | @released item delay hpend hd =>
    refine ⟨by rintro _ ⟨⟩, fun _ _ => rfl, fun _ _ hsleep => ?_⟩
    refine ⟨[(delay.deadline, item)], ?_, .cons ⟨hsleep delay hd (by simp), rfl⟩ .nil⟩
    rw [held_of_some hpend hd]
    rfl
  | @undelayed item hpend hd =>
    -- Never from a settled stream.
    have hs : ¬ s.Settled := not_settled_of_unarmed hpend hd
    exact ⟨by rintro _ ⟨⟩, fun h => absurd h hs, fun h => absurd h hs⟩
  | @passed item hpend hd =>
    refine ⟨fun _ _ => (admittedAt_of_none hd).ge, fun hs _ => hs, fun _ _ _ => ?_⟩
    refine ⟨[(env.now, item)], ?_, .cons ⟨le_rfl, rfl⟩ .nil⟩
    rw [Step.admitted, admittedAt_of_none hd, held_of_none hpend]
    rfl
  | @staged item deadline hpend hlt =>
    refine ⟨fun _ _ => hlt.le, fun _ _ => rfl, fun _ _ _ => ⟨[], ?_, .nil⟩⟩
    rw [held_of_none hpend]
    rfl
  | @overlong item hpend hd =>
    exact ⟨fun _ _ => (admittedAt_of_none hd).ge, fun _ hdone => absurd rfl (hdone _),
      fun _ hdone => absurd rfl (hdone _)⟩

end

/-! ## One stream -/

section
variable {weightFn : Item → NonZeroU32} {steps : List (Step Item)} {x : Step Item} {t₁ t₂ : ℚ}

/-- What a stream has admitted it has returned, no earlier than admitted, or holds. -/
structure Timely (steps : List (Step Item)) (s : WeightedStream Item) : Prop where
  later : ∀ x ∈ steps, ∀ item ∈ x.pulled, x.env.now ≤ x.admittedAt
  settled : (∀ x ∈ steps, x.Completes) → s.Settled
  returned : (∀ x ∈ steps, x.Completes) → (∀ x ∈ steps, x.SleepsFully) →
    ∃ done, admitted steps = done ++ s.held ∧ List.Forall₂ NoEarlier done (returnedAt steps)

theorem Timely.start (bucket : Option Limit) (weightFn : Item → NonZeroU32) :
    Timely [] (.new bucket weightFn) :=
  ⟨by simp, fun _ => rfl, fun _ _ => ⟨[], rfl, .nil⟩⟩

theorem Timely.step (h : Timely steps x.before) (hx : x.Timely) : Timely (steps ++ [x]) x.polled.stream := by
  have ha : admitted (steps ++ [x]) = admitted steps ++ x.admitted := by simp [admitted]
  have hr : returnedAt (steps ++ [x]) = returnedAt steps ++ x.returnedAt := by simp [returnedAt]
  refine ⟨forall_mem_concat.2 ⟨h.later, hx.later⟩, ?_, ?_⟩
  · intro hdone
    obtain ⟨hdones, hdone⟩ := forall_mem_concat.1 hdone
    exact hx.settled (h.settled hdones) hdone
  · intro hdone hsleep
    obtain ⟨hdones, hdone⟩ := forall_mem_concat.1 hdone
    obtain ⟨hsleeps, hsleep⟩ := forall_mem_concat.1 hsleep
    obtain ⟨done, h1, h2⟩ := h.returned hdones hsleeps
    obtain ⟨done', h3, h4⟩ := hx.returned (h.settled hdones) hdone hsleep
    refine ⟨done ++ done', ?_, ?_⟩
    · rw [ha, h1, List.append_assoc, h3, List.append_assoc]
    · rw [hr]
      exact List.rel_append h2 h4

theorem map_returnedAt (steps : List (Step Item)) : (returnedAt steps).map Prod.snd = returned steps := by
  have h : ∀ x : Step Item, x.returnedAt.map Prod.snd = x.polled.outcome.item.toList := by
    intro x
    simp [Step.returnedAt]
  rw [returnedAt, List.map_flatMap]
  simp only [h]
  exact (List.filterMap_eq_flatMap_toList _ _).symm

theorem map_pulledAt (steps : List (Step Item)) : (pulledAt steps).map Prod.snd = pulled steps := by
  have h : ∀ x : Step Item, x.pulledAt.map Prod.snd = x.pulled := by
    intro x
    simp [Step.pulledAt]
  rw [pulledAt, List.map_flatMap]
  simp only [h]
  rfl

/-- A stream that is accounted for returns in order what it has pulled, all but the item it holds. -/
theorem Accounted.inOrder {s : WeightedStream Item} (h : Accounted weightFn steps s) :
    (returnedAt steps).map Prod.snd <+: (pulledAt steps).map Prod.snd ∧
      (pulledAt steps).length ≤ (returnedAt steps).length + 1 := by
  have hitems := h.items
  rw [← map_returnedAt, ← map_pulledAt] at hitems
  refine ⟨⟨_, hitems⟩, ?_⟩
  have hlen := congrArg List.length hitems
  have hone : s.pendingItem.toList.length ≤ 1 := by
    cases s.pendingItem <;> simp
  simp only [List.length_append, List.length_map] at hlen
  omega

theorem weightWithin_append {ps ps' rs rs' : List (ℚ × Item)} (h : ps.length = rs.length) :
    weightWithin weightFn t₁ t₂ (ps ++ ps') (rs ++ rs') =
      weightWithin weightFn t₁ t₂ ps rs + weightWithin weightFn t₁ t₂ ps' rs' := by
  rw [weightWithin, List.zip_append h, List.map_append, List.sum_append]
  rfl

theorem weightWithin_nonneg (ps rs : List (ℚ × Item)) : 0 ≤ weightWithin weightFn t₁ t₂ ps rs := by
  refine List.sum_nonneg fun w hw => ?_
  obtain ⟨⟨p, r⟩, -, rfl⟩ := List.mem_map.1 hw
  simp only
  split
  · exact (weightFn p.2).toRat_pos.le
  · exact le_rfl

/-- What comes later counts less. -/
theorem weightWithin_anti {done held rs : List (ℚ × Item)} (h : List.Forall₂ NoEarlier done rs)
    (ps : List (ℚ × Item)) :
    weightWithin weightFn t₁ t₂ ps rs ≤ weightWithin weightFn t₁ t₂ ps (done ++ held) := by
  induction h generalizing ps with
  | nil =>
    rw [weightWithin, List.zip_nil_right]
    exact weightWithin_nonneg _ _
  | @cons a r done rs har _ ih =>
    cases ps with
    | nil => exact le_rfl
    | cons p ps =>
      have hfirst : (if t₁ ≤ p.1 ∧ r.1 ≤ t₂ then (weightFn p.2).toRat else 0) ≤
          if t₁ ≤ p.1 ∧ a.1 ≤ t₂ then (weightFn p.2).toRat else 0 := by
        by_cases hin : t₁ ≤ p.1 ∧ r.1 ≤ t₂
        · rw [if_pos hin, if_pos ⟨hin.1, har.1.trans hin.2⟩]
        · rw [if_neg hin]
          split
          · exact (weightFn p.2).toRat_pos.le
          · exact le_rfl
      exact add_le_add hfirst (ih ps)

theorem weightWithin_admitted (steps : List (Step Item)) :
    weightWithin weightFn t₁ t₂ (pulledAt steps) (admitted steps) =
      (steps.map (Step.admittedIn weightFn t₁ t₂)).sum := by
  induction steps with
  | nil => rfl
  | cons x steps ih =>
    have hlen : x.pulledAt.length = x.admitted.length := by simp [Step.pulledAt, Step.admitted]
    have happ : weightWithin weightFn t₁ t₂ (pulledAt (x :: steps)) (admitted (x :: steps)) =
        x.admittedIn weightFn t₁ t₂ + weightWithin weightFn t₁ t₂ (pulledAt steps) (admitted steps) :=
      weightWithin_append hlen
    rw [happ, ih, List.map_cons, List.sum_cons]

/-- What is pulled from `t₁` on and returned until `t₂` has been admitted in between. -/
theorem Timely.delivered_le {s : WeightedStream Item} (h : Timely steps s)
    (hdone : ∀ x ∈ steps, x.Completes) (hsleep : ∀ x ∈ steps, x.SleepsFully) :
    delivered weightFn t₁ t₂ steps ≤ (steps.map (Step.admittedIn weightFn t₁ t₂)).sum := by
  obtain ⟨done, heq, hr⟩ := h.returned hdone hsleep
  rw [← weightWithin_admitted, heq]
  exact weightWithin_anti hr _

/-- What is pulled from `t₁` on and admitted until `t₂` is granted in between. -/
theorem Step.admittedIn_le (h : ∀ item ∈ x.pulled, x.env.now ≤ x.admittedAt) :
    x.admittedIn weightFn t₁ t₂ ≤ granted t₁ t₂ (x.grants weightFn) := by
  rw [Step.admittedIn, weightWithin, Step.pulledAt, Step.admitted, List.zip_map', List.map_map, granted,
    Step.grants, List.map_map]
  refine List.sum_le_sum fun item hitem => ?_
  simp only [Function.comp_apply, Entry.grantedIn]
  by_cases hin : t₁ ≤ x.env.now ∧ x.admittedAt ≤ t₂
  · rw [if_pos hin, if_pos ⟨hin.1.trans (h item hitem), hin.2⟩]
  · rw [if_neg hin]
    split
    · exact (weightFn item).toRat_pos.le
    · exact le_rfl

end

/-! ## All streams -/

section
variable [DecidableEq ι] {limit : Limit} {weightFn : ι → Item → NonZeroU32} {zt : ℚ}
  {log : List (ι × Step Item)} {fleet : Fleet ι Item}

/-- The grants of all streams, in the order of the polls. -/
def fleetGrants (weightFn : ι → Item → NonZeroU32) (log : List (ι × Step Item)) : List (Entry ℚ) :=
  log.flatMap fun x => x.2.grants (weightFn x.1)

theorem mem_stepsOf_iff {i : ι} {x : Step Item} : x ∈ stepsOf i log ↔ (i, x) ∈ log := by
  simp [stepsOf]

/-- Each poll is of one stream. -/
theorem sum_stepsOf [Fintype ι] (f : ι → Step Item → ℚ) (log : List (ι × Step Item)) :
    ∑ i, ((stepsOf i log).map (f i)).sum = (log.map fun x => f x.1 x.2).sum := by
  induction log with
  | nil => simp [stepsOf]
  | cons x log ih =>
    have hsplit : ∀ i, ((stepsOf i (x :: log)).map (f i)).sum =
        (if x.1 = i then f i x.2 else 0) + ((stepsOf i log).map (f i)).sum := by
      intro i
      by_cases h : x.1 = i <;> simp [stepsOf, h]
    simp only [hsplit, Finset.sum_add_distrib, ih, Finset.sum_ite_eq, Finset.mem_univ, if_true]
    rw [List.map_cons, List.sum_cons]

omit [DecidableEq ι] in
theorem granted_fleetGrants (weightFn : ι → Item → NonZeroU32) (t₁ t₂ : ℚ) (log : List (ι × Step Item)) :
    granted t₁ t₂ (fleetGrants weightFn log) =
      (log.map fun x => granted t₁ t₂ (x.2.grants (weightFn x.1))).sum := by
  induction log with
  | nil => rfl
  | cons x log ih =>
    rw [List.map_cons, List.sum_cons, ← ih, ← granted_append]
    rfl

omit [DecidableEq ι] in
/-- Nothing is put back. -/
theorem refunds_fleetGrants (weightFn : ι → Item → NonZeroU32) (t₁ t₂ : ℚ) (log : List (ι × Step Item)) :
    refunds (Stretch.between (Entry.inWindow t₁ t₂) (fleetGrants weightFn log)) = 0 := by
  unfold refunds
  apply List.sum_eq_zero
  intro y hy
  obtain ⟨e, he, rfl⟩ := List.mem_map.1 hy
  obtain ⟨x, -, he⟩ := List.mem_flatMap.1 ((Stretch.between_sublist _).subset he)
  obtain ⟨a, -, rfl⟩ := List.mem_map.1 he
  rfl

/-- Each stream is accounted for and timely, and the zero time has the history of their grants if every poll
has completed. -/
structure Fleet.Keeps (limit : Limit) (weightFn : ι → Item → NonZeroU32) (zt : ℚ)
    (log : List (ι × Step Item)) (fleet : Fleet ι Item) : Prop where
  streams : ∀ i, (fleet.streams i).Of limit (weightFn i)
  accounted : ∀ i, Accounted (weightFn i) (stepsOf i log) (fleet.streams i)
  timely : ∀ i, Timely (stepsOf i log) (fleet.streams i)
  history : (∀ x ∈ log, x.2.Completes) →
    History limit.rate limit.burst zt (fleetGrants weightFn log) fleet.zeroTime

theorem Fleet.Keeps.start (limit : Limit) (weightFn : ι → Item → NonZeroU32) (zt : ℚ) :
    Fleet.Keeps limit weightFn zt [] ⟨zt, fun i => .new (some limit) (weightFn i)⟩ where
  streams i := .new limit (weightFn i)
  accounted i := .start (weightFn i) (some limit)
  timely i := .start (some limit) (weightFn i)
  history _ := .start

theorem Fleet.Keeps.step {hrtime : Bool} {i : ι} {env : Env Item} {p : Polled Item} {w : ℚ}
    (hw : ∀ i item, (weightFn i item).toRat ≤ limit.burst) (h : fleet.Keeps limit weightFn zt log)
    (hp : (fleet.streams i).Polls hrtime env fleet.zeroTime p w) :
    Fleet.Keeps limit weightFn zt (log ++ [(i, ⟨fleet.streams i, env, p⟩)])
      ⟨w, Function.update fleet.streams i p.stream⟩ := by
  have hturn := polls_turn (hw i) (h.streams i) hp
  have hadds := poll_adds (h.streams i) hturn
  constructor
  · intro j
    by_cases hj : j = i
    · subst hj
      simpa using hadds.stream
    · simpa [hj] using h.streams j
  · intro j
    by_cases hj : j = i
    · subst hj
      simpa [stepsOf_concat_self] using (h.accounted j).step hadds
    · simpa [stepsOf_concat_ne, hj] using h.accounted j
  · intro j
    by_cases hj : j = i
    · subst hj
      simpa [stepsOf_concat_self] using (h.timely j).step (turn_timely hturn)
    · simpa [stepsOf_concat_ne, hj] using h.timely j
  · intro hdone
    obtain ⟨hdones, hdone⟩ := forall_mem_concat.1 hdone
    rcases polls_grants (h.streams i) hp hdone with ⟨hnil, rfl⟩ | ⟨e, he, hm⟩
    · simpa [fleetGrants, hnil] using h.history hdones
    · simpa [fleetGrants, he] using (h.history hdones).entry hm

end

/-- **Delivery from streams that share a bucket.** The weight of the items pulled from `t₁` on and returned
until `t₂`, over all streams, is at most `burst + rate * (t₂ - t₁)` if every poll completes and no sleep ends
early, in whatever order the clock readings come. At every point of the run each stream has returned the items
it pulled in the order in which it pulled them, all but one at most. -/
theorem delivery_rate [Fintype ι] [DecidableEq ι] (hrtime : Bool) (limit : Limit)
    (weightFn : ι → Item → NonZeroU32) (hw : ∀ i item, (weightFn i item).toRat ≤ limit.burst) (zt : ℚ)
    (inputs : List (ι × Env Item)) {fuel : Nat} (hf : 2 ≤ fuel) :
    ∃ log fleet, Fleet.polls fuel hrtime ⟨zt, fun i => .new (some limit) (weightFn i)⟩ inputs =
        some (log, fleet) ∧
      log.map (fun x => (x.1, x.2.env)) = inputs ∧
      ((∀ x ∈ log, x.2.Completes) → (∀ x ∈ log, x.2.SleepsFully) → ∀ t₁ t₂, t₁ ≤ t₂ →
        ∑ i, delivered (weightFn i) t₁ t₂ (stepsOf i log) ≤ limit.burst + limit.rate * (t₂ - t₁)) ∧
      ∀ before, before <+: log → ∀ i,
        (returnedAt (stepsOf i before)).map Prod.snd <+: (pulledAt (stepsOf i before)).map Prod.snd ∧
        (pulledAt (stepsOf i before)).length ≤ (returnedAt (stepsOf i before)).length + 1 := by
  obtain ⟨log, fleet, hrun, hlog, hkeeps, hbefore⟩ := fleet_induction hf hrtime
    (fun log fleet => fleet.Keeps limit weightFn zt log ∧
      ∀ before, before <+: log → ∃ fleet', Fleet.Keeps limit weightFn zt before fleet')
    (fun {log fleet i env p w} h hp => by
      have hstep := h.1.step hw hp
      refine ⟨hstep, fun before hpre => ?_⟩
      rcases List.prefix_concat_iff.1 hpre with rfl | hpre
      · exact ⟨_, hstep⟩
      · exact h.2 before hpre)
    ⟨zt, fun i => .new (some limit) (weightFn i)⟩
    ⟨.start limit weightFn zt, fun before hpre => by
      rw [List.prefix_nil.1 hpre]
      exact ⟨_, .start limit weightFn zt⟩⟩ inputs
  refine ⟨log, fleet, hrun, hlog, ?_, ?_⟩
  · intro hdone hsleep t₁ t₂ ht
    calc ∑ i, delivered (weightFn i) t₁ t₂ (stepsOf i log)
        ≤ ∑ i, ((stepsOf i log).map (Step.admittedIn (weightFn i) t₁ t₂)).sum :=
          Finset.sum_le_sum fun i _ => (hkeeps.timely i).delivered_le
            (fun x hx => hdone (i, x) (mem_stepsOf_iff.1 hx))
            fun x hx => hsleep (i, x) (mem_stepsOf_iff.1 hx)
      _ ≤ ∑ i, ((stepsOf i log).map fun x => granted t₁ t₂ (x.grants (weightFn i))).sum :=
          Finset.sum_le_sum fun i _ => List.sum_le_sum fun x hx =>
            Step.admittedIn_le ((hkeeps.timely i).later x hx)
      _ = granted t₁ t₂ (fleetGrants weightFn log) := by rw [sum_stepsOf, granted_fleetGrants]
      _ ≤ limit.burst + limit.rate * (t₂ - t₁) := by
          have h := window_bound limit.rate_pos limit.burst_pos.le ht (hkeeps.history hdone)
          rwa [refunds_fleetGrants, add_zero] at h
  · intro before hpre i
    obtain ⟨fleet', hkeeps'⟩ := hbefore before hpre
    exact (hkeeps'.accounted i).inOrder

/-- Two streams share a bucket with a burst of one and a rate of one a second. An item passes at 1, and two
go into debt and are delivered at 2 and at 3: the bound is met. -/
theorem delivery_rate_debts :
    let weightFn : Bool → ℕ → NonZeroU32 := fun _ _ => ⟨1, by decide⟩
    let inputs : List (Bool × Env ℕ) := [(true, ⟨.ready (), .pending, .ready (some 7), 1, []⟩),
      (false, ⟨.ready (), .pending, .ready (some 8), 1, [false, true]⟩),
      (true, ⟨.ready (), .pending, .ready (some 9), 1, []⟩),
      (false, ⟨.ready (), .ready (), .pending, 2, []⟩), (true, ⟨.ready (), .pending, .pending, 2, []⟩),
      (true, ⟨.ready (), .ready (), .pending, 3, []⟩)]
    ∃ log fleet, Fleet.polls 2 false ⟨0, fun i => .new (some (.perSecond ⟨1, by decide⟩)) (weightFn i)⟩
        inputs = some (log, fleet) ∧
      (∀ x ∈ log, x.2.Completes) ∧ (∀ x ∈ log, x.2.SleepsFully) ∧
      ∑ i, delivered (weightFn i) 1 3 (stepsOf i log) = 3 ∧
      ∑ i, delivered (weightFn i) 1 3 (stepsOf i log) ≤ 1 + 1 * (3 - 1) := by
  intro weightFn inputs
  obtain ⟨log, fleet, hrun, -, hrate, -⟩ := delivery_rate false (.perSecond ⟨1, by decide⟩) weightFn
    (fun _ _ => le_rfl) 0 inputs le_rfl
  have hlog : ((Fleet.polls 2 false ⟨0, fun i => .new (some (.perSecond ⟨1, by decide⟩)) (weightFn i)⟩
      inputs).map fun r => decide ((∀ x ∈ r.1, x.2.Completes) ∧ (∀ x ∈ r.1, x.2.SleepsFully) ∧
        ∑ i, delivered (weightFn i) 1 3 (stepsOf i r.1) = 3)) = some true := by
    decide +kernel
  rw [hrun, Option.map_some, Option.some.injEq, decide_eq_true_eq] at hlog
  obtain ⟨hdone, hsleep, hsum⟩ := hlog
  exact ⟨log, fleet, hrun, hdone, hsleep, hsum, hrate hdone hsleep 1 3 (by norm_num)⟩

end Gardal
