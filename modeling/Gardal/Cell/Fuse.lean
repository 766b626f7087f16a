import Gardal.Cell.Pool
import Gardal.Stretch
/-!
# A load and a later store as one access

A call that loads the cell and later stores something computed from what it read is not atomic: what
others write in between is lost. Where nobody writes in between it is, and `run_fused` says so of
whole runs: the same schedule without the turn of the load takes a pool whose call is one atomic
access to the same cell, the same returns and the same threads.
-/
namespace Cell
open Stretch
variable {ι V N Req R : Type}

/-- An access of thread `i`. -/
def Event.accessOf [DecidableEq ι] (i : ι) : Event ι V N Req R → Bool
  | did j _ _ _ => decide (j = i)
  | _ => false

/-- Nobody else writes between the first and the last access of thread `i`. -/
def Undisturbed [DecidableEq ι] (i : ι) (trace : List (Event ι V N Req R)) : Prop :=
  ∀ e ∈ between (Event.accessOf i) trace, e.thread ≠ i → e.writes = false

instance [DecidableEq ι] (i : ι) (trace : List (Event ι V N Req R)) : Decidable (Undisturbed i trace) :=
  inferInstanceAs (Decidable (∀ e ∈ between (Event.accessOf i) trace, e.thread ≠ i → e.writes = false))

/-- What is left of `p` is to store `x.2` and return `x.1`. -/
def Storing (p : Prog V N R) (x : R × V) : Prop :=
  ∃ site k, p.head = .access site (.store x.2) k ∧ (k ()).head = .ret x.1

/-- `p` loads some `v`, stores `(f v).2` and returns `(f v).1`. -/
def LoadStore (p : Prog V N R) (f : V → R × V) : Prop :=
  ∃ site k, p.head = .access site .load k ∧ ∀ v, Storing (k v) (f v)

/-! ## Turns depend on the cell and the thread only -/

section
variable [DecidableEq ι]

namespace Pool

theorem settle_of_access {p : Prog V N R} {β : Type} {site : N} {a : Access V β} {k : β → Prog V N R}
    (h : p.head = .access site a k) (c : Pool ι V N Req R) (i : ι) (todo : List Req) (made : Nat)
    (req : Req) : c.settle i todo made req p =
      ⟨c.cell, Function.update c.threads i ⟨todo, made, some (req, p)⟩, c.trace⟩ := by
  simp [settle, Prog.result, h]

theorem settle_of_ret {p : Prog V N R} {r : R} (h : p.head = .ret r) (c : Pool ι V N Req R) (i : ι)
    (todo : List Req) (made : Nat) (req : Req) : c.settle i todo made req p =
      ⟨c.cell, Function.update c.threads i ⟨todo, made + 1, none⟩, c.trace ++ [.ret i made req r]⟩ := by
  simp [settle, Prog.result, h]

theorem settle_local (i : ι) (todo : List Req) (made : Nat) (req : Req) (p : Prog V N R) :
    ∃ t : Thread V N Req R, ∃ evs : List (Event ι V N Req R), t.todo = todo ∧
      (∀ e ∈ evs, e.thread = i ∧ e.writes = false) ∧
      ∀ c : Pool ι V N Req R, c.settle i todo made req p =
        ⟨c.cell, Function.update c.threads i t, c.trace ++ evs⟩ := by
  cases h : p.head with
  | ret r =>
    exact ⟨⟨todo, made + 1, none⟩, [.ret i made req r], rfl, by simp [Event.thread, Event.writes],
      fun c => settle_of_ret h c i todo made req⟩
  | access site a k =>
    exact ⟨⟨todo, made, some (req, p)⟩, [], rfl, by simp, fun c => by simp [settle_of_access h]⟩
  | spin p' => exact ⟨⟨todo, made, some (req, p)⟩, [], rfl, by simp, by simp [settle, Prog.result, h]⟩

variable [DecidableEq V]

theorem turn_local (code : Req → Prog V N R) (i : ι) (spurious : Bool) (v : V)
    (t : Thread V N Req R) :
    ∃ w, ∃ t' : Thread V N Req R, ∃ evs : List (Event ι V N Req R), (∀ e ∈ evs, e.thread = i) ∧
      ((∀ e ∈ evs, e.writes = false) → w = v) ∧ (∀ req ∈ t'.todo, req ∈ t.todo) ∧
      ∀ c : Pool ι V N Req R, c.cell = v → c.threads i = t →
        c.turn code i spurious = ⟨w, Function.update c.threads i t', c.trace ++ evs⟩ := by
  obtain ⟨todo, made, cur⟩ := t
  cases cur with
  | none =>
    cases todo with
    | nil =>
      refine ⟨v, ⟨[], made, none⟩, [], by simp, fun _ => rfl, by simp, fun c hv ht => ?_⟩
      rw [← ht, Function.update_eq_self, List.append_nil, ← hv]
      simp [turn, ht]
    | cons req rest =>
      obtain ⟨t', evs, ht', hevs, hsettle⟩ := settle_local (ι := ι) i rest made req (code req)
      refine ⟨v, t', .call i made req :: evs, ?_, fun _ => rfl, by simp +contextual [ht'], fun c hv ht => ?_⟩
      · exact List.forall_mem_cons.2 ⟨rfl, fun e he => (hevs e he).1⟩
      · simp [turn, ht, hsettle, hv]
  | some rp =>
    obtain ⟨req, p⟩ := rp
    cases hp : p.head with
    | ret r =>
      obtain ⟨t', evs, ht', hevs, hsettle⟩ := settle_local (ι := ι) i todo made req p
      refine ⟨v, t', evs, fun e he => (hevs e he).1, fun _ => rfl, by simp [ht'], fun c hv ht => ?_⟩
      simp [turn, ht, hp, hsettle, hv]
    | spin p' =>
      obtain ⟨t', evs, ht', hevs, hsettle⟩ := settle_local (ι := ι) i todo made req p'
      refine ⟨v, t', evs, fun e he => (hevs e he).1, fun _ => rfl, by simp [ht'], fun c hv ht => ?_⟩
      simp [turn, ht, hp, hsettle, hv]
    | access site a k =>
      obtain ⟨t', evs, ht', hevs, hsettle⟩ :=
        settle_local (ι := ι) i todo made req (k (a.perform spurious v).1)
      refine ⟨(a.perform spurious v).2.after, t', .did i made site (a.perform spurious v).2 :: evs, ?_, ?_,
        by simp [ht'], fun c hv ht => ?_⟩
      · exact List.forall_mem_cons.2 ⟨rfl, fun e he => (hevs e he).1⟩
      · intro hw
        have hd : (a.perform spurious v).2.writes = false := hw _ (List.mem_cons_self ..)
        rw [Deed.after_eq_before hd, a.perform_before]
      · subst hv
        simp [turn, ht, hp, hsettle]

theorem turn_congr {code code' : Req → Prog V N R} {c : Pool ι V N Req R} {i : ι}
    (h : ∀ req ∈ (c.threads i).todo, code req = code' req) (spurious : Bool) :
    c.turn code i spurious = c.turn code' i spurious := by
  cases hcur : (c.threads i).cur with
  | some rp => simp [turn, hcur]
  | none =>
    cases htodo : (c.threads i).todo with
    | nil => simp [turn, hcur, htodo]
    | cons req rest => simp [turn, hcur, htodo, h req (by simp [htodo])]

theorem run_append (code : Req → Prog V N R) (s s' : List (ι × Bool)) (c : Pool ι V N Req R) :
    run code (s ++ s') c = run code s' (run code s c) := List.foldl_append ..

end Pool

end

/-! ## The simulation -/

section
variable [DecidableEq ι] (code code' : Req → Prog V N R) (i : ι) (req₀ : Req) (site : N) (f : V → R × V)

/-- Where the call is, in the pool that makes it in two accesses (thread `t`, cell `v`) and in the
one that makes it in one (thread `t'`). Once loaded, the cell is what was read unless somebody has
written since. -/
inductive Stage (v : V) (trace : List (Event ι V N Req R)) (t t' : Thread V N Req R) : Prop
  | idle (ht : t = ⟨[req₀], 0, none⟩) (ht' : t' = ⟨[req₀], 0, none⟩)
      (hnone : ∀ e ∈ trace, e.accessOf i = false)
  | called {p : Prog V N R} (hp : LoadStore p f) (ht : t = ⟨[], 0, some (req₀, p)⟩)
      (ht' : t' = ⟨[], 0, some (req₀, .access site (.atomic f))⟩)
      (hnone : ∀ e ∈ trace, e.accessOf i = false)
  | loaded {u : V} {p : Prog V N R} (hp : Storing p (f u)) (ht : t = ⟨[], 0, some (req₀, p)⟩)
      (ht' : t' = ⟨[], 0, some (req₀, .access site (.atomic f))⟩)
      (hsome : ∃ e ∈ trace, e.accessOf i = true)
      (hsame : (∀ e ∈ fromFirst (Event.accessOf i) trace, e.thread ≠ i → e.writes = false) → v = u)
  | done (ht : t = ⟨[], 1, none⟩) (ht' : t' = ⟨[], 1, none⟩)

structure Fused (c c' : Pool ι V N Req R) : Prop where
  cell : c'.cell = c.cell
  others : ∀ j, j ≠ i → c'.threads j = c.threads j
  returns : returns c'.trace = returns c.trace
  agree : ∀ j, j ≠ i → ∀ req ∈ (c.threads j).todo, code req = code' req
  stage : Stage i req₀ site f c.cell c.trace (c.threads i) (c'.threads i)

variable {code code' i req₀ site f} {c c' : Pool ι V N Req R}

theorem accessOf_of_ne {e : Event ι V N Req R} (h : e.thread ≠ i) : e.accessOf i = false := by
  cases e with
  | did j n s d => exact decide_eq_false h
  | _ => rfl

theorem Stage.other {v w : V} {trace evs : List (Event ι V N Req R)} {t t' : Thread V N Req R}
    (h : Stage i req₀ site f v trace t t') (hevs : ∀ e ∈ evs, e.thread ≠ i)
    (hw : (∀ e ∈ evs, e.writes = false) → w = v) : Stage i req₀ site f w (trace ++ evs) t t' := by
  have hnone' : (∀ e ∈ trace, e.accessOf i = false) → ∀ e ∈ trace ++ evs, e.accessOf i = false := by
    intro hnone e he
    exact (List.mem_append.1 he).elim (hnone e) fun he => accessOf_of_ne (hevs e he)
  cases h with
  | idle ht ht' hnone => exact .idle ht ht' (hnone' hnone)
  | called hp ht ht' hnone => exact .called hp ht ht' (hnone' hnone)
  | loaded hp ht ht' hsome hsame =>
    obtain ⟨e₀, he₀, ha₀⟩ := hsome
    refine .loaded hp ht ht' ⟨e₀, List.mem_append_left _ he₀, ha₀⟩ fun hquiet => ?_
    rw [fromFirst_append ⟨e₀, he₀, ha₀⟩] at hquiet
    rw [hw fun e he => hquiet e (List.mem_append_right _ he) (hevs e he)]
    exact hsame fun e he => hquiet e (List.mem_append_left _ he)
  | done ht ht' => exact .done ht ht'

/-- When the first pool is done, so is the second. -/
theorem Fused.done (h : Fused code code' i req₀ site f c c') (hdone : c.Done) : c'.Done := by
  intro j
  by_cases hj : j = i
  · subst hj
    have hd := hdone j
    cases h.stage with
    | idle ht ht' => rw [ht']; rwa [ht] at hd
    | called hp ht ht' => rw [ht] at hd; simp at hd
    | loaded hp ht ht' => rw [ht] at hd; simp at hd
    | done ht ht' => rw [ht']; simp
  · rw [h.others j hj]
    exact hdone j

/-- A turn of the thread itself leaves the others alone in both pools. -/
theorem Fused.update (h : Fused code code' i req₀ site f c c') {v : V} {t t' : Thread V N Req R}
    {evs evs' : List (Event ι V N Req R)} (hevs : Cell.returns evs' = Cell.returns evs)
    (hstage : Stage i req₀ site f v (c.trace ++ evs) t t') :
    Fused code code' i req₀ site f ⟨v, Function.update c.threads i t, c.trace ++ evs⟩
      ⟨v, Function.update c'.threads i t', c'.trace ++ evs'⟩ := by
  constructor
  · rfl
  · intro j hj
    simpa [hj] using h.others j hj
  · rw [returns_append, returns_append, h.returns, hevs]
  · intro j hj req hreq
    exact h.agree j hj req (by simpa [hj] using hreq)
  · simpa using hstage

/-- A store closes the stretch that began with the load: if it is undisturbed, nobody has written. -/
theorem quiet_of_store {trace : List (Event ι V N Req R)} {s : N} {d : Deed V} {n : Nat} {req : Req} {r : R}
    (hsome : ∃ e ∈ trace, e.accessOf i = true)
    (hquiet : Undisturbed i (trace ++ [.did i n s d] ++ [.ret i n req r])) :
    ∀ e ∈ fromFirst (Event.accessOf i) trace, e.thread ≠ i → e.writes = false := by
  intro e he hei
  refine hquiet e ?_ hei
  have hstore : Event.accessOf i (.did i n s d : Event ι V N Req R) = true := decide_eq_true rfl
  rw [between_concat_false rfl, between_concat_true hstore, fromFirst_append hsome]
  exact List.mem_append_left _ he

variable [DecidableEq V]

/-- A turn of another thread is the same turn in both pools. -/
theorem Fused.other (h : Fused code code' i req₀ site f c c') {j : ι} (hj : j ≠ i) (spurious : Bool) :
    Fused code code' i req₀ site f (c.turn code j spurious) (c'.turn code' j spurious) := by
  obtain ⟨hcell, hothers, hreturns, hagree, hstage⟩ := h
  obtain ⟨w, t, evs, hevs, hw, htodo, hturn⟩ := Pool.turn_local code j spurious c.cell (c.threads j)
  have hcongr : c'.turn code j spurious = c'.turn code' j spurious := by
    refine Pool.turn_congr (fun req hreq => hagree j hj req ?_) spurious
    rwa [← hothers j hj]
  rw [← hcongr, hturn c rfl rfl, hturn c' hcell (hothers j hj)]
  constructor
  · rfl
  · intro k hk
    by_cases hkj : k = j
    · subst hkj
      simp
    · simpa [hkj] using hothers k hk
  · simp [hreturns]
  · intro k hk req hreq
    by_cases hkj : k = j
    · subst hkj
      exact hagree k hk req (htodo req (by simpa using hreq))
    · exact hagree k hk req (by simpa [hkj] using hreq)
  · simpa [Ne.symm hj] using hstage.other (fun e he => (hevs e he) ▸ hj) hw

/-- Both make the call. -/
theorem Fused.call (hload : LoadStore (code req₀) f) (hatomic : code' req₀ = .access site (.atomic f))
    (h : Fused code code' i req₀ site f c c') (ht : c.threads i = ⟨[req₀], 0, none⟩)
    (ht' : c'.threads i = ⟨[req₀], 0, none⟩) (hnone : ∀ e ∈ c.trace, e.accessOf i = false)
    (spurious : Bool) :
    Fused code code' i req₀ site f (c.turn code i spurious) (c'.turn code' i spurious) := by
  obtain ⟨s, k, hhead, hk⟩ := id hload
  have hturn : c.turn code i spurious = ⟨c.cell, Function.update c.threads i
      ⟨[], 0, some (req₀, code req₀)⟩, c.trace ++ [.call i 0 req₀]⟩ := by
    simp [Pool.turn, ht, Pool.settle_of_access hhead]
  have hturn' : c'.turn code' i spurious = ⟨c.cell, Function.update c'.threads i
      ⟨[], 0, some (req₀, .access site (.atomic f))⟩, c'.trace ++ [.call i 0 req₀]⟩ := by
    simp [Pool.turn, ht', hatomic, h.cell, Pool.settle_of_access (Prog.head_access site (.atomic f))]
  rw [hturn, hturn']
  refine h.update rfl (.called hload rfl rfl fun e he => ?_)
  rcases List.mem_append.1 he with he | he
  · exact hnone e he
  · obtain rfl := List.mem_singleton.1 he
    rfl

/-- The load, which the other pool skips. -/
theorem Fused.load {p : Prog V N R} (hp : LoadStore p f) (h : Fused code code' i req₀ site f c c')
    (ht : c.threads i = ⟨[], 0, some (req₀, p)⟩)
    (ht' : c'.threads i = ⟨[], 0, some (req₀, .access site (.atomic f))⟩) (spurious : Bool) :
    Fused code code' i req₀ site f (c.turn code i spurious) c' := by
  obtain ⟨s, k, hhead, hk⟩ := hp
  obtain ⟨s', k', hhead', hret⟩ := hk c.cell
  have hturn : c.turn code i spurious = ⟨c.cell, Function.update c.threads i
      ⟨[], 0, some (req₀, k c.cell)⟩, c.trace ++ [.did i 0 s (.load c.cell)]⟩ := by
    simp [Pool.turn, ht, hhead, Access.perform, Pool.settle_of_access hhead']
  have hload : Event.accessOf i (.did i 0 s (.load c.cell) : Event ι V N Req R) = true := decide_eq_true rfl
  have hc' : c' = ⟨c.cell, Function.update c'.threads i
      ⟨[], 0, some (req₀, .access site (.atomic f))⟩, c'.trace ++ []⟩ := by
    rw [← ht', Function.update_eq_self, List.append_nil, ← h.cell]
  rw [hturn, hc']
  exact h.update rfl (.loaded ⟨s', k', hhead', hret⟩ rfl rfl ⟨_, by simp, hload⟩ fun _ => rfl)

/-- The store, which is the atomic access in the other pool. -/
theorem Fused.store {p : Prog V N R} (hp : Storing p (f c.cell)) (h : Fused code code' i req₀ site f c c')
    (ht : c.threads i = ⟨[], 0, some (req₀, p)⟩)
    (ht' : c'.threads i = ⟨[], 0, some (req₀, .access site (.atomic f))⟩) (spurious : Bool) :
    Fused code code' i req₀ site f (c.turn code i spurious) (c'.turn code' i spurious) := by
  obtain ⟨s, k, hhead, hret⟩ := hp
  have hturn : c.turn code i spurious = ⟨(f c.cell).2, Function.update c.threads i ⟨[], 1, none⟩,
      c.trace ++ [.did i 0 s (.store c.cell (f c.cell).2), .ret i 0 req₀ (f c.cell).1]⟩ := by
    simp [Pool.turn, ht, hhead, Access.perform, Pool.settle_of_ret hret]
  have hturn' : c'.turn code' i spurious = ⟨(f c.cell).2, Function.update c'.threads i ⟨[], 1, none⟩,
      c'.trace ++ [.did i 0 site (.atomic c.cell (f c.cell).2), .ret i 0 req₀ (f c.cell).1]⟩ := by
    simp [Pool.turn, ht', h.cell, Access.perform, Pool.settle_of_ret (Prog.head_ret _)]
  rw [hturn, hturn']
  exact h.update rfl (.done rfl rfl)

/-- A turn of the thread itself. -/
theorem Fused.self (hload : LoadStore (code req₀) f) (hatomic : code' req₀ = .access site (.atomic f))
    (h : Fused code code' i req₀ site f c c') (spurious : Bool)
    (hquiet : Undisturbed i (c.turn code i spurious).trace) :
    ∃ turns, Fused code code' i req₀ site f (c.turn code i spurious) (Pool.run code' turns c') := by
  cases h.stage with
  | idle ht ht' hnone => exact ⟨[(i, spurious)], h.call hload hatomic ht ht' hnone spurious⟩
  | called hp ht ht' => exact ⟨[], h.load hp ht ht' spurious⟩
  | @loaded u p hp ht ht' hsome hsame =>
    obtain ⟨s, k, hhead, hret⟩ := id hp
    have htrace : (c.turn code i spurious).trace =
        c.trace ++ [.did i 0 s (.store c.cell (f u).2)] ++ [.ret i 0 req₀ (f u).1] := by
      simp [Pool.turn, ht, hhead, Access.perform, Pool.settle_of_ret hret]
    rw [htrace] at hquiet
    obtain rfl : c.cell = u := hsame (quiet_of_store hsome hquiet)
    exact ⟨[(i, spurious)], h.store hp ht ht' spurious⟩
  | done ht ht' =>
    have hturn : c.turn code i spurious = c := by simp [Pool.turn, ht]
    rw [hturn]
    exact ⟨[], h⟩

/-- **A load and a store with nobody writing in between are one access.** -/
theorem run_fused (hload : LoadStore (code req₀) f) (hatomic : code' req₀ = .access site (.atomic f))
    {calls : ι → List Req} (hi : calls i = [req₀])
    (hothers : ∀ j, j ≠ i → ∀ req ∈ calls j, code req = code' req) (v₀ : V) (sched : List (ι × Bool))
    (hquiet : Undisturbed i (Pool.run code sched (.init v₀ calls)).trace) :
    ∃ sched', Fused code code' i req₀ site f (Pool.run code sched (.init v₀ calls))
      (Pool.run code' sched' (.init v₀ calls)) := by
  induction sched using List.reverseRecOn with
  | nil =>
    refine ⟨[], rfl, fun _ _ => rfl, rfl, hothers, .idle ?_ ?_ (by simp [Pool.init, Pool.run])⟩
    · simp [Pool.run, Pool.init, hi]
    · simp [Pool.run, Pool.init, hi]
  | append_singleton sched t ih =>
    obtain ⟨j, spurious⟩ := t
    rw [Pool.run_snoc] at hquiet ⊢
    -- A stretch only grows, so it was undisturbed before.
    obtain ⟨w, t', evs, -, -, -, hturn⟩ := Pool.turn_local code j spurious
      (Pool.run code sched (.init v₀ calls)).cell ((Pool.run code sched (.init v₀ calls)).threads j)
    have hbefore : Undisturbed i (Pool.run code sched (.init v₀ calls)).trace := by
      intro e he
      refine hquiet e ?_
      rw [hturn _ rfl rfl]
      exact mem_between_append he evs
    obtain ⟨sched', hfused⟩ := ih hbefore
    by_cases hj : j = i
    · subst hj
      obtain ⟨turns, hturns⟩ := hfused.self hload hatomic spurious hquiet
      exact ⟨sched' ++ turns, by rwa [Pool.run_append]⟩
    · refine ⟨sched' ++ [(j, spurious)], ?_⟩
      rw [Pool.run_snoc]
      exact hfused.other hj spurious

end

end Cell
