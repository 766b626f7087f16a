import Gardal.Sequential
/-!
# Linearizability of the calls that do not borrow

`consume`, `try_consume`, `saturating_consume` and `add_tokens` are each one compare-and-exchange loop, and
take effect at one access: the exchange that gets through, or the read they are refused on. Over an
atomic cell, however its weak exchanges fail, their results are therefore those of the same calls
made one at a time over `LocalStorage`, whose exchange does not even look at the expected value.
-/
namespace Gardal
open Cell TokenBucketStorage RawTokenBucket

def Call.borrows : Call → Bool
  | .consumeWithBorrow _ => true
  | .saturatingConsumeWithBorrow _ => true
  | _ => false

section
variable {limit : Limit} {req : Request} {site : Site} {α : Type} {attempt : ℚ → Attempt ℚ α}
  {f : α → Response}

/-- A call that is one compare-and-exchange loop and then `f` has one point of effect, and there it
does what it does when it runs alone. -/
theorem onePoint_outcome
    (h : ∀ v, (req.code limit).runLocal 2 v =
      some (f ((attempt v).outcome v).1, ((attempt v).outcome v).2)) :
    (casLoop site attempt).wp (onePoint (Request.outcome limit)) (fun a g => g = (req, some (f a)))
      (req, none) := by
  apply onePoint_casLoop
  intro v
  have hv := h v
  rw [code_runLocal limit req le_rfl] at hv
  exact Option.some.inj hv

end

theorem code_onePoint (limit : Limit) {req : Request} (h : req.call.borrows = false) :
    OnePoint (Request.outcome limit) (req.code limit) req := by
  obtain ⟨call, now⟩ := req
  cases call with
  | consume k =>
    refine onePoint_outcome (f := fun c => .consume (Tokens.newChecked c)) fun v => ?_
    simp only [Request.code, RawTokenBucket.consume, TokenBucketStorage.consume, Prog.bind_eq_bind,
      Prog.runLocal, casLoop_runLocal Nat.two_pos, Prog.pure_eq_ret]
  | tryConsume k =>
    refine onePoint_outcome (f := fun a => .tryConsume (acquisitionResult k.toRat now limit a))
      fun v => ?_
    simp only [Request.code, tryConsume, consume2, Prog.bind_eq_bind, Prog.runLocal,
      casLoop_runLocal Nat.two_pos, Prog.pure_eq_ret]
  | saturatingConsume k =>
    refine onePoint_outcome (f := fun c => .saturatingConsume (Tokens.newChecked c)) fun v => ?_
    simp only [Request.code, saturatingConsume, saturatingConsumeInner, TokenBucketStorage.consume,
      Prog.bind_eq_bind, Prog.runLocal, casLoop_runLocal Nat.two_pos, Prog.pure_eq_ret]
  | consumeWithBorrow k => cases h
  | saturatingConsumeWithBorrow k => cases h
  | addTokens tokens =>
    refine onePoint_outcome (f := fun _ => .addTokens) fun v => ?_
    simp only [Request.code, addTokens, returnTokens, Prog.bind_eq_bind, Prog.runLocal,
      casLoop_runLocal Nat.two_pos, Prog.pure_eq_ret]

/-- **Linearizability and storage equivalence.** When every thread is done there is an order of the
calls, with each thread's calls in its own order and every call after those that had returned before
it was made, in which the same calls made one at a time over `LocalStorage` give the same responses
and the same final zero time. -/
theorem linearizable {ι : Type} [DecidableEq ι] (limit : Limit) (zt : ℚ) (calls : ι → List Request)
    (hcalls : ∀ i, ∀ req ∈ calls i, req.call.borrows = false) (sched : List (ι × Bool))
    (hdone : (Pool.run (Request.code limit) sched (.init zt calls)).Done) :
    let c := Pool.run (Request.code limit) sched (.init zt calls)
    ∃ order : List (Returned ι Request Response), order.Perm (returns c.trace) ∧
      (∀ i, (order.filter fun x => x.thread = i).map (·.request) = calls i) ∧
      (∀ a ∈ order, ∀ b ∈ order, [a.retEvent, b.callEvent].Sublist c.trace → [a, b].Sublist order) ∧
      ∀ fuel, 2 ≤ fuel →
        runCalls limit fuel (order.map (·.request)) zt = some (order.map (·.response), c.cell) := by
  intro c
  refine ⟨returns c.trace, .refl _, fun i => answered_of_done hdone i,
    fun a _ b hb hab => returns_order hb hab, fun fuel hf => ?_⟩
  have hreplay := returns_replay (fun i req hreq => code_onePoint limit (hcalls i req hreq)) zt sched
  rw [runCalls_eq limit hf]
  exact congrArg some hreplay

/-- Two threads, one token, and an exchange that fails for no reason. -/
theorem linearizable_race :
    let limit := Limit.perSecondAndBurst ⟨1, by decide⟩ ⟨2, by decide⟩
    let calls : Bool → List Request := fun _ => [⟨.tryConsume ⟨1, by decide⟩, 1⟩]
    let sched := [(true, false), (false, false), (true, false), (false, false), (true, true),
      (false, false), (true, false)]
    let c := Pool.run (Request.code limit) sched (.init 0 calls)
    ∃ order : List (Returned Bool Request Response), order.Perm (returns c.trace) ∧
      (∀ i, (order.filter fun x => x.thread = i).map (·.request) = calls i) ∧
      (∀ a ∈ order, ∀ b ∈ order, [a.retEvent, b.callEvent].Sublist c.trace → [a, b].Sublist order) ∧
      ∀ fuel, 2 ≤ fuel →
        runCalls limit fuel (order.map (·.request)) 0 = some (order.map (·.response), c.cell) := by
  refine linearizable _ _ _ ?_ _ ?_
  · decide
  · unfold Pool.Done
    decide +kernel

end Gardal
