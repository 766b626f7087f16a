import Gardal.Cell.Fuse
import Gardal.Linearizability
/-!
# `reset` and `update_limit` on a shared bucket

The calls of a handle are compare-and-exchange loops. `reset` and `update_limit` are not: they load
the zero time, work out the balance, and store a new zero time over whatever is there by then. What
another handle commits in between is put back into the bucket (`lost_update`). Where no other handle
commits in between, they are atomic (`reset_atomic`).
-/
namespace Gardal
open Cell Stretch TokenBucketStorage RawTokenBucket

/-- What the owner of a handle can do with it. -/
inductive HandleRequest
  | call (req : Request)
  | reset (limit : Limit) (now : ℚ)
  | updateLimit (limit : Limit) (now : ℚ)
  deriving DecidableEq

inductive HandleResponse
  | call (r : Response)
  | reset
  | updateLimit (limit : Limit)
  deriving DecidableEq

namespace HandleRequest

/-- On handles with the limit `old`. -/
def code (old : Limit) : HandleRequest → Code HandleResponse
  | call req => do return .call (← req.code old)
  | reset limit now => do
    TokenBucket.reset old limit now
    return .reset
  | updateLimit limit now => do return .updateLimit (← TokenBucket.updateLimit old limit now)

/-- The new zero time of a reset that finds `zt`. -/
def resetTo (old limit : Limit) (now zt : ℚ) : ℚ := now - old.balance now zt / limit.rate

/-- The same with `reset` and `update_limit` as indivisible steps. -/
def atomicCode (old : Limit) : HandleRequest → Code HandleResponse
  | call req => code old (.call req)
  | reset limit now => .access .reset (.atomic fun zt => (.reset, resetTo old limit now zt))
  | updateLimit limit now =>
    .access .reset (.atomic fun zt => (.updateLimit limit, resetTo old limit now zt))

def isCall : HandleRequest → Bool
  | call _ => true
  | _ => false

end HandleRequest

/-! ## Undisturbed resets -/

theorem reset_loadStore (old limit : Limit) (now : ℚ) :
    LoadStore (HandleRequest.code old (.reset limit now))
      fun zt => (.reset, HandleRequest.resetTo old limit now zt) :=
  ⟨.balance, _, rfl, fun _ => ⟨.reset, _, rfl, rfl⟩⟩

theorem updateLimit_loadStore (old limit : Limit) (now : ℚ) :
    LoadStore (HandleRequest.code old (.updateLimit limit now))
      fun zt => (.updateLimit limit, HandleRequest.resetTo old limit now zt) :=
  ⟨.balance, _, rfl, fun _ => ⟨.reset, _, rfl, rfl⟩⟩

/-- **An undisturbed reset is atomic.** One handle resets the bucket or updates its limit while the
others make any calls. If no other handle writes between the load and the store of the reset, some
execution in which it is one indivisible step gives the same results and the same zero time. -/
theorem reset_atomic {ι : Type} [DecidableEq ι] (old : Limit) (zt : ℚ) {calls : ι → List HandleRequest}
    {i : ι} {req : HandleRequest} (hreq : req.isCall = false) (hi : calls i = [req])
    (hothers : ∀ j, j ≠ i → ∀ q ∈ calls j, q.isCall = true) (sched : List (ι × Bool))
    (hquiet : Undisturbed i (Pool.run (HandleRequest.code old) sched (.init zt calls)).trace) :
    let c := Pool.run (HandleRequest.code old) sched (.init zt calls)
    ∃ sched', let c' := Pool.run (HandleRequest.atomicCode old) sched' (.init zt calls)
      returns c'.trace = returns c.trace ∧ c'.cell = c.cell ∧ (c.Done → c'.Done) := by
  intro c
  have hagree : ∀ j, j ≠ i → ∀ q ∈ calls j, HandleRequest.code old q = HandleRequest.atomicCode old q := by
    intro j hj q hq
    have hcall := hothers j hj q hq
    cases q with
    | call r => rfl
    | reset limit now => cases hcall
    | updateLimit limit now => cases hcall
  cases req with
  | call r => cases hreq
  | reset limit now =>
    obtain ⟨sched', h⟩ := run_fused (reset_loadStore old limit now) rfl hi hagree zt sched hquiet
    exact ⟨sched', h.returns, h.cell, h.done⟩
  | updateLimit limit now =>
    obtain ⟨sched', h⟩ := run_fused (updateLimit_loadStore old limit now) rfl hi hagree zt sched hquiet
    exact ⟨sched', h.returns, h.cell, h.done⟩

/-- Another handle reads while a reset is under way, and commits after it. -/
theorem reset_atomic_late_commit :
    let old := Limit.perSecondAndBurst ⟨1, by decide⟩ ⟨10, by decide⟩
    let calls : Bool → List HandleRequest := fun i =>
      if i then [.reset (.perSecond ⟨2, by decide⟩) 10] else [.call ⟨.consume ⟨5, by decide⟩, 10⟩]
    let sched := [true, false, true, false, true, false, false].map fun i => (i, false)
    let c := Pool.run (HandleRequest.code old) sched (.init 0 calls)
    ∃ sched', let c' := Pool.run (HandleRequest.atomicCode old) sched' (.init 0 calls)
      returns c'.trace = returns c.trace ∧ c'.cell = c.cell ∧ (c.Done → c'.Done) :=
  reset_atomic (i := true) _ 0 rfl rfl (by decide) _ (by decide +kernel)

/-! ## The lost update -/

/-- What a request does when it is one step. -/
def HandleRequest.outcome (old : Limit) (req : HandleRequest) (zt : ℚ) : HandleResponse × ℚ :=
  match req with
  | .call req => (.call (req.outcome old zt).1, (req.outcome old zt).2)
  | .reset limit now => (.reset, resetTo old limit now zt)
  | .updateLimit limit now => (.updateLimit limit, resetTo old limit now zt)

theorem consume_onePoint_handle (old : Limit) (k : NonZeroU32) (now : ℚ) :
    OnePoint (HandleRequest.outcome old) (HandleRequest.atomicCode old (.call ⟨.consume k, now⟩))
      (.call ⟨.consume k, now⟩) := by
  let f : ℚ → HandleResponse := fun c => .call (.consume (Tokens.newChecked c))
  refine onePoint_casLoop (α := ℚ) (f := f) fun v => ?_
  have hv := code_runLocal old ⟨.consume k, now⟩ le_rfl v
  simp only [Request.code, RawTokenBucket.consume, TokenBucketStorage.consume, Prog.bind_eq_bind,
    Prog.runLocal, casLoop_runLocal Nat.two_pos, Prog.pure_eq_ret, Option.some.injEq] at hv
  simp only [HandleRequest.outcome, ← hv, f]

/-- Two threads with one call each make them in one order or the other. -/
theorem two_orders {Req R : Type} {l : List (Returned Bool Req R)} {a b : Req}
    (ha : (l.filter fun x => x.thread = true).map (·.request) = [a])
    (hb : (l.filter fun x => x.thread = false).map (·.request) = [b]) :
    l.map (·.request) = [a, b] ∨ l.map (·.request) = [b, a] := by
  have hlen : l.length = 2 := by
    have h1 := congrArg List.length ha
    have h2 := congrArg List.length hb
    have h3 := List.length_eq_length_filter_add (l := l) fun x => decide (x.thread = true)
    simp only [List.length_map, List.length_cons, List.length_nil, ← Bool.not_eq_true, decide_not] at h1 h2 h3
    omega
  obtain ⟨x, y, rfl⟩ := List.length_eq_two.1 hlen
  cases hx : x.thread <;> cases hy : y.thread <;> simp_all

/-- One handle resets a full bucket of ten to the limit it has; the other takes five in between. The
reset puts the five back, which no execution with the reset in one step does. -/
theorem lost_update :
    let limit := Limit.perSecondAndBurst ⟨1, by decide⟩ ⟨10, by decide⟩
    let consume : Request := ⟨.consume ⟨5, by decide⟩, 10⟩
    let calls : Bool → List HandleRequest := fun i => if i then [.reset limit 10] else [.call consume]
    let sched := [true, true, false, false, false, true].map fun i => (i, false)
    let c := Pool.run (HandleRequest.code limit) sched (.init 0 calls)
    c.Done ∧ .ret false 0 (.call consume) (.call (.consume (some ⟨5⟩))) ∈ c.trace ∧
      c.cell = 0 ∧
      ∀ sched', let c' := Pool.run (HandleRequest.atomicCode limit) sched' (.init 0 calls)
        c'.Done → c'.cell = 5 := by
  intro limit consume calls sched c
  refine ⟨by unfold Pool.Done; decide +kernel, by decide +kernel, by decide +kernel, ?_⟩
  intro sched' c' hdone
  have hpoint : ∀ i, ∀ req ∈ calls i,
      OnePoint (HandleRequest.outcome limit) (HandleRequest.atomicCode limit req) req := by
    intro i req hreq
    cases i with
    | true =>
      obtain rfl : req = .reset limit 10 := by simpa [calls] using hreq
      exact onePoint_atomic (HandleRequest.outcome limit) (.reset limit 10) Site.reset
    | false =>
      obtain rfl : req = .call consume := by simpa [calls] using hreq
      exact consume_onePoint_handle limit _ _
  have hcell : c'.cell = (replay (HandleRequest.outcome limit)
      ((returns c'.trace).map (·.request)) 0).2 :=
    (congrArg Prod.snd (returns_replay hpoint 0 sched')).symm
  rw [hcell]
  rcases two_orders (answered_of_done hdone true) (answered_of_done hdone false) with h | h
  · rw [h]
    decide +kernel
  · rw [h]
    decide +kernel

end Gardal
