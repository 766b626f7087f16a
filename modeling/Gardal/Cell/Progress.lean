import Mathlib.Algebra.BigOperators.Fin
import Mathlib.Algebra.Order.BigOperators.Group.Finset
import Gardal.Cell.Retries
/-!
# How many turns a run can take

A turn of a thread that is not done starts a call or makes an access. If it is known how many accesses a
thread can make besides exchanges that fail, all that is left to count are the failures: those that are not
spurious are at most as many, for each thread, as the writes of the others (`retries_le`), and the spurious
ones are given by the schedule. So a thread that has had more turns than that is done (`done_of_turns`),
whatever the others do.
-/
namespace Cell

variable {ι V N Req R : Type} [DecidableEq ι]

/-- A compare-and-exchange that did not get through. -/
def Deed.fails : Deed V → Bool
  | fail _ _ => true
  | _ => false

namespace Event

/-- The weight of the call that thread `i` starts. -/
def startedBy (i : ι) (w : Req → Nat) : Event ι V N Req R → Nat
  | call j _ req => if j = i then w req else 0
  | _ => 0

/-- The weight of an access. -/
def extraOf (w : Deed V → Nat) : Event ι V N Req R → Nat
  | did _ _ _ d => w d
  | _ => 0

/-- Thread `i` makes an access with `q`. -/
def doneBy (i : ι) (q : Deed V → Bool) : Event ι V N Req R → Bool
  | did j _ _ d => j = i && q d
  | _ => false

/-- Some thread does. -/
def done (q : Deed V → Bool) : Event ι V N Req R → Bool
  | did _ _ _ d => q d
  | _ => false

/-- An exchange fails against the value it expects. -/
def isSpurious [DecidableEq V] : Event ι V N Req R → Bool
  | did _ _ _ (.fail cur actual) => cur = actual
  | _ => false

/-- Thread `i` starts a call or makes an access. -/
def turnOf (i : ι) : Event ι V N Req R → Bool
  | ret _ _ _ _ => false
  | e => e.thread = i

end Event

/-! ## Counting events -/

section
variable (i : ι) (tr : List (Event ι V N Req R))

omit tr in
theorem Event.of_turnOf [DecidableEq V] {e : Event ι V N Req R} (h : e.turnOf i = true) :
    e.startedBy i (fun _ => 1) = 1 ∨ e.doneBy i (fun d => !d.fails) = true ∨ e.isRetry i = true ∨
      e.isSpurious = true := by
  cases e with
  | call j n req =>
    obtain rfl : j = i := of_decide_eq_true h
    exact .inl (if_pos rfl)
  | ret j n req r => cases h
  | did j n site d =>
    obtain rfl : j = i := of_decide_eq_true h
    cases d with
    | fail cur actual =>
      by_cases hc : cur = actual
      · exact .inr (.inr (.inr (decide_eq_true hc)))
      · exact .inr (.inr (.inl (decide_eq_true ⟨rfl, hc⟩)))
    | _ => exact .inr (.inl (by simp [doneBy, Deed.fails]))

/-- A turn starts a call, or is an access that gets through or fails, overtaken or spuriously. -/
theorem count_turns [DecidableEq V] : tr.countP (Event.turnOf i) ≤
    (tr.map (Event.startedBy i fun _ => 1)).sum + tr.countP (Event.doneBy i fun d => !d.fails) +
      tr.countP (Event.isRetry i) + tr.countP Event.isSpurious := by
  induction tr with
  | nil => simp
  | cons e tr ih =>
    simp only [List.countP_cons, List.map_cons, List.sum_cons]
    by_cases ht : e.turnOf i = true
    · rcases Event.of_turnOf i ht with h | h | h | h <;> simp only [ht, h, if_true] <;> omega
    · rw [if_neg ht]
      omega

theorem count_done [Fintype ι] (q : Deed V → Bool) :
    ∑ j, tr.countP (Event.doneBy j q) = tr.countP (Event.done q) := by
  induction tr with
  | nil => simp
  | cons e tr ih =>
    have he : (∑ j, if e.doneBy j q = true then 1 else 0) = if e.done q = true then 1 else 0 := by
      cases e with
      | did j n site d => cases hq : q d <;> simp [Event.doneBy, Event.done, hq]
      | _ => simp [Event.doneBy, Event.done]
    simp only [List.countP_cons, Finset.sum_add_distrib, ih, he]

/-- What the others write is among the accesses that get through. -/
theorem count_foreign : tr.countP (Event.isForeignWrite i) ≤ tr.countP (Event.done fun d => !d.fails) := by
  refine List.countP_mono_left fun e _ hw => ?_
  cases e with
  | did j n site d => cases d <;> simp_all [Event.isForeignWrite, Event.writes, Event.done, Deed.fails]
  | _ => simp [Event.isForeignWrite, Event.writes] at hw

end

omit [DecidableEq ι] in
theorem sum_extraOf (k : Nat) (q : Deed V → Bool) (tr : List (Event ι V N Req R)) :
    (tr.map (Event.extraOf fun d => k * (q d).toNat)).sum = k * tr.countP (Event.done q) := by
  induction tr with
  | nil => simp
  | cons e tr ih =>
    rw [List.map_cons, List.sum_cons, ih, List.countP_cons, Nat.mul_add, Nat.add_comm]
    cases e with
    | did j n site d => cases hq : q d <;> simp [Event.extraOf, Event.done, hq]
    | _ => simp [Event.extraOf, Event.done]

omit [DecidableEq ι] in
theorem sum_extraOf_zero (tr : List (Event ι V N Req R)) : (tr.map (Event.extraOf fun _ => 0)).sum = 0 := by
  simpa using sum_extraOf 0 (fun _ => true) tr

/-! ## What a call has left -/

variable {G : Type}

/-- A bound on the accesses with `q` that a call has left, in a ghost state and with the cell at some value.
An access of another call may add `extra` to it. -/
structure Potential (M : Protocol V N G) (q : Deed V → Bool) (extra : Deed V → Nat) where
  left : G → V → Nat
  own : ∀ {g n d g'}, M.move g n d g' → (q d).toNat + left g' d.after ≤ left g d.before
  other : ∀ {g n d g' h}, M.move g n d g' → left h d.after ≤ left h d.before + extra d

theorem count_doneBy_did (i j : ι) (q : Deed V → Bool) (n : Nat) (site : N) (d : Deed V) :
    [(Event.did j n site d : Event ι V N Req R)].countP (Event.doneBy i q) =
      if j = i then (q d).toNat else 0 := by
  by_cases hji : j = i <;> cases hq : q d <;> simp [Event.doneBy, hji, hq]

namespace Potential
variable {M : Protocol V N G} {q : Deed V → Bool} {extra : Deed V → Nat} (P : Potential M q extra)

/-- Nothing is left of a call that has returned. -/
def leftOf (s : Option (Req × G)) (v : V) : Nat :=
  match s with
  | some (_, g) => P.left g v
  | none => 0

/-- The accesses of every thread, and what is left of its call, against the calls it has started. -/
theorem run {start : Req → G} {post : Req → R → G → Prop} {w : Req → Nat}
    (hstart : ∀ req v, P.left (start req) v ≤ w req) {v₀ v : V} {tr : List (Event ι V N Req R)}
    {γ : ι → Option (Req × G)} (h : M.Run start post v₀ tr v γ) (i : ι) :
    tr.countP (Event.doneBy i q) + P.leftOf (γ i) v ≤
      (tr.map (Event.startedBy i w)).sum + (tr.map (Event.extraOf extra)).sum := by
  refine h.events (fun tr v γ => tr.countP (Event.doneBy i q) + P.leftOf (γ i) v ≤
    (tr.map (Event.startedBy i w)).sum + (tr.map (Event.extraOf extra)).sum) ?_ ?_ ?_ ?_
  · simp [leftOf]
  · intro tr v γ j n req ih hj
    rw [List.countP_append, List.map_append, List.sum_append, List.map_append, List.sum_append]
    by_cases hij : i = j
    · subst hij
      have hreq := hstart req v
      simp only [Function.update_self, leftOf, hj] at ih ⊢
      simp [Event.doneBy, Event.startedBy, Event.extraOf]
      omega
    · rw [Function.update_of_ne hij]
      simpa [Event.doneBy, Event.startedBy, Event.extraOf, Ne.symm hij] using ih
  · intro tr v γ j n req g site d g' ih hj hd _ hm
    subst hd
    rw [List.countP_append, List.map_append, List.sum_append, List.map_append, List.sum_append,
      count_doneBy_did]
    simp only [List.map_singleton, List.sum_singleton, Event.startedBy, Event.extraOf]
    by_cases hij : i = j
    · subst hij
      have hown := P.own hm
      simp only [hj, leftOf] at ih
      simp only [Function.update_self, leftOf, if_true]
      omega
    · have hleft : P.leftOf (γ i) d.after ≤ P.leftOf (γ i) d.before + extra d := by
        cases γ i with
        | none => exact Nat.zero_le _
        | some s => exact P.other hm
      rw [Function.update_of_ne hij, if_neg (Ne.symm hij)]
      omega
  · intro tr v γ j n req g r ih hj _
    rw [List.countP_append, List.map_append, List.sum_append, List.map_append, List.sum_append]
    by_cases hij : i = j
    · subst hij
      simp only [Function.update_self, leftOf]
      simp [Event.doneBy, Event.startedBy, Event.extraOf]
      omega
    · rw [Function.update_of_ne hij]
      simpa [Event.doneBy, Event.startedBy, Event.extraOf] using ih

end Potential

/-! ## What the schedule and the calls bound -/

variable [DecidableEq V]

omit [DecidableEq ι] in
/-- An exchange fails against the value it expects only if the schedule says so. -/
theorem Access.spurious_of_fail {α : Type} {a : Access V α} {spurious : Bool} {v cur actual : V}
    (h : (a.perform spurious v).2 = .fail cur actual) (heq : cur = actual) : spurious = true := by
  cases a with
  | compareExchangeWeak current new =>
    simp only [Access.perform] at h
    split at h
    · cases h
    · rename_i hne
      cases h
      cases hs : spurious with
      | true => rfl
      | false => exact absurd ⟨heq.symm, hs⟩ hne
  | load | store | atomic => cases h

theorem run_spurious (code : Req → Prog V N R) (v : V) (calls : ι → List Req) (sched : List (ι × Bool)) :
    (Pool.run code sched (.init v calls)).trace.countP Event.isSpurious ≤ sched.countP fun t => t.2 := by
  induction sched using List.reverseRecOn with
  | nil => simp [Pool.run, Pool.init]
  | append_singleton sched t ih =>
    obtain ⟨i, spurious⟩ := t
    rw [Pool.run_snoc, List.countP_append, List.countP_singleton]
    generalize Pool.run code sched (.init v calls) = c at ih ⊢
    have hsettle : ∀ (c : Pool ι V N Req R) todo made req p,
        (c.settle i todo made req p).trace.countP Event.isSpurious = c.trace.countP Event.isSpurious := by
      intro c todo made req p
      rcases c.settle_cases i todo made req p with ⟨r, -, he⟩ | ⟨-, he⟩ <;> simp [he, Event.isSpurious]
    rcases c.turn_cases code i spurious with
      ⟨-, -, he⟩ | ⟨req, rest, -, -, he⟩ | ⟨req, p, β, site, a, k, -, -, he⟩ | ⟨req, p, p', -, -, he⟩
    · rw [he]
      omega
    · rw [he, hsettle, List.countP_append]
      simpa [Event.isSpurious] using Nat.le_add_right_of_le ih
    · rw [he, hsettle, List.countP_append, List.countP_singleton]
      by_cases hsp : (Event.did i (c.threads i).made site (a.perform spurious c.cell).2 :
          Event ι V N Req R).isSpurious = true
      · have hflag : spurious = true := by
          cases hd : (a.perform spurious c.cell).2 with
          | fail cur actual =>
            rw [hd] at hsp
            exact Access.spurious_of_fail hd (of_decide_eq_true hsp)
          | _ => simp [hd, Event.isSpurious] at hsp
        rw [if_pos hsp, if_pos hflag]
        omega
      · rw [if_neg hsp]
        omega
    · rw [he, hsettle]
      omega

/-- Calls started and calls to come. -/
theorem run_started (w : Req → Nat) (code : Req → Prog V N R) (v : V) (calls : ι → List Req)
    (sched : List (ι × Bool)) (i : ι) :
    ((Pool.run code sched (.init v calls)).trace.map (Event.startedBy i w)).sum +
      (((Pool.run code sched (.init v calls)).threads i).todo.map w).sum = ((calls i).map w).sum := by
  have hsettle : ∀ (c : Pool ι V N Req R) j todo made req q,
      ((c.settle j todo made req q).trace.map (Event.startedBy i w)).sum =
        (c.trace.map (Event.startedBy i w)).sum ∧
      ((c.settle j todo made req q).threads i).todo = if i = j then todo else (c.threads i).todo := by
    intro c j todo made req q
    rcases c.settle_cases j todo made req q with ⟨r, -, he⟩ | ⟨-, he⟩ <;> by_cases hij : i = j <;>
      simp [he, Event.startedBy, hij]
  refine Pool.run_induction (fun c => (c.trace.map (Event.startedBy i w)).sum +
    ((c.threads i).todo.map w).sum = ((calls i).map w).sum) ?_ (by simp [Pool.init]) sched
  intro c j spurious h
  rcases c.turn_cases code j spurious with
    ⟨-, -, he⟩ | ⟨req, rest, -, ht, he⟩ | ⟨req, q, β, site, a, k, -, -, he⟩ | ⟨req, q, q', -, -, he⟩
  · rw [he]
    exact h
  · obtain ⟨hcount, htodo⟩ := hsettle { c with trace := c.trace ++ [.call j (c.threads j).made req] } j rest
      (c.threads j).made req (code req)
    rw [he, hcount, htodo, List.map_append, List.sum_append]
    by_cases hij : i = j
    · subst hij
      rw [ht, List.map_cons, List.sum_cons] at h
      simp only [Event.startedBy, List.map_singleton, List.sum_singleton, if_true]
      omega
    · simpa [Event.startedBy, Ne.symm hij, hij] using h
  · obtain ⟨hcount, htodo⟩ := hsettle ⟨(a.perform spurious c.cell).2.after, c.threads,
      c.trace ++ [.did j (c.threads j).made site (a.perform spurious c.cell).2]⟩ j (c.threads j).todo
      (c.threads j).made req (k (a.perform spurious c.cell).1)
    rw [he, hcount, htodo, List.map_append, List.sum_append]
    by_cases hij : i = j
    · subst hij
      simpa [Event.startedBy] using h
    · simpa [Event.startedBy, hij] using h
  · obtain ⟨hcount, htodo⟩ := hsettle c j (c.threads j).todo (c.threads j).made req q'
    rw [he, hcount, htodo]
    by_cases hij : i = j
    · subst hij
      simpa using h
    · simpa [hij] using h

/-- So the accesses with `q` of a thread are bounded by all the calls it makes, and what others add. -/
theorem Potential.count_le_of_inv {M : Protocol V N G} {q : Deed V → Bool} {extra : Deed V → Nat}
    (P : Potential M q extra) {start : Req → G} {post : Req → R → G → Prop} {w : Req → Nat} {I : V → Prop}
    (hstart : ∀ req v, P.left (start req) v ≤ w req)
    (hkeep : ∀ {g n d g'}, M.move g n d g' → M.knows g d.before → I d.after)
    (hknows : ∀ req v, I v → M.knows (start req) v) {code : Req → Prog V N R} {calls : ι → List Req}
    (hcode : ∀ i, ∀ req ∈ calls i, (code req).wp M (post req) (start req)) (v₀ : V) (hI : I v₀)
    (sched : List (ι × Bool)) (i : ι) :
    (Pool.run code sched (.init v₀ calls)).trace.countP (Event.doneBy i q) ≤ ((calls i).map w).sum +
      ((Pool.run code sched (.init v₀ calls)).trace.map (Event.extraOf extra)).sum := by
  obtain ⟨γ, hrun, -⟩ := adequacy_of_inv M start post hkeep hknows hcode hI sched
  have hbound := P.run hstart hrun i
  have hstarted := run_started w code v₀ calls sched i
  omega

/-! ## Turns -/

namespace Pool

/-- Thread `i` has made all its calls. -/
def Idle (c : Pool ι V N Req R) (i : ι) : Prop := (c.threads i).cur = none ∧ (c.threads i).todo = []

omit [DecidableEq V] in
theorem settle_turns (c : Pool ι V N Req R) (i j : ι) (todo : List Req) (made : Nat) (req : Req)
    (p : Prog V N R) :
    (c.settle j todo made req p).trace.countP (Event.turnOf i) = c.trace.countP (Event.turnOf i) ∧
      (i ≠ j → (c.settle j todo made req p).threads i = c.threads i) := by
  rcases c.settle_cases j todo made req p with ⟨r, -, he⟩ | ⟨-, he⟩ <;> rw [he]
  · exact ⟨by simp [Event.turnOf], fun hij => Function.update_of_ne hij _ _⟩
  · exact ⟨rfl, fun hij => Function.update_of_ne hij _ _⟩

/-- A turn of a thread that keeps to a protocol and is not done is a turn in the trace. -/
theorem turn_turns {M : Protocol V N G} {start : Req → G} {post : Req → R → G → Prop}
    {code : Req → Prog V N R} {v₀ : V} {c : Pool ι V N Req R} (h : Accounted M start post code v₀ c)
    (i j : ι) (spurious : Bool) :
    (i ≠ j → (c.turn code j spurious).threads i = c.threads i ∧
      c.trace.countP (Event.turnOf i) ≤ (c.turn code j spurious).trace.countP (Event.turnOf i)) ∧
    (i = j → c.turn code j spurious = c ∧ c.Idle i ∨
      ¬ c.Idle i ∧ (c.turn code j spurious).trace.countP (Event.turnOf i) =
        c.trace.countP (Event.turnOf i) + 1) := by
  obtain ⟨-, γ, -, hfit⟩ := h
  rcases c.turn_cases code j spurious with
    ⟨hc, ht, he⟩ | ⟨req, rest, hc, ht, he⟩ | ⟨req, p, β, site, a, k, hc, hp, he⟩ | ⟨req, p, p', hc, hp, -⟩
  · rw [he]
    exact ⟨fun _ => ⟨rfl, le_rfl⟩, fun hij => .inl ⟨rfl, by subst hij; exact ⟨hc, ht⟩⟩⟩
  · obtain ⟨hcount, hthreads⟩ := settle_turns { c with trace := c.trace ++ [.call j (c.threads j).made req] }
      i j rest (c.threads j).made req (code req)
    rw [he, hcount, List.countP_append, List.countP_singleton]
    refine ⟨fun hij => ⟨hthreads hij, Nat.le_add_right _ _⟩, ?_⟩
    rintro rfl
    refine .inr ⟨fun hidle => ?_, by simp [Event.turnOf, Event.thread]⟩
    rw [hidle.2] at ht
    cases ht
  · obtain ⟨hcount, hthreads⟩ := settle_turns ⟨(a.perform spurious c.cell).2.after, c.threads,
      c.trace ++ [.did j (c.threads j).made site (a.perform spurious c.cell).2]⟩ i j (c.threads j).todo
      (c.threads j).made req (k (a.perform spurious c.cell).1)
    rw [he, hcount, List.countP_append, List.countP_singleton]
    refine ⟨fun hij => ⟨hthreads hij, Nat.le_add_right _ _⟩, ?_⟩
    rintro rfl
    refine .inr ⟨fun hidle => ?_, by simp [Event.turnOf, Event.thread]⟩
    rw [hidle.1] at hc
    cases hc
  · -- `wp` leaves no turn without an access.
    have hj := hfit j
    simp only [Fits, hc] at hj
    obtain ⟨g, -, hwp, -, hr⟩ := hj
    have hh := p.wp_head hwp
    rcases hp with ⟨r, hp⟩ | hp
    · exact absurd hp (hr r)
    · simp [hp, Head.wp] at hh

end Pool

section
variable (M : Protocol V N G) (start : Req → G) (post : Req → R → G → Prop)
  {code : Req → Prog V N R} {calls : ι → List Req}

/-- A thread that is not done has used all its turns. -/
theorem run_turns (hstart : ∀ req v, M.knows (start req) v)
    (hcode : ∀ i, ∀ req ∈ calls i, (code req).wp M (post req) (start req)) (v₀ : V)
    (sched : List (ι × Bool)) (i : ι) :
    (sched.countP fun t => t.1 = i) ≤
        (Pool.run code sched (.init v₀ calls)).trace.countP (Event.turnOf i) ∨
      (Pool.run code sched (.init v₀ calls)).Idle i := by
  induction sched using List.reverseRecOn with
  | nil => exact .inl (Nat.zero_le _)
  | append_singleton sched t ih =>
    obtain ⟨j, spurious⟩ := t
    have hinit : Accounted M start post code v₀ (Pool.init v₀ calls) :=
      ⟨hcode, fun _ => none, .init, fun i => by simp [Fits, Pool.init]⟩
    have hacc := Pool.run_induction _ (fun c => turn_accounted c fun req => hstart req c.cell) hinit sched
    obtain ⟨hother, hown⟩ := Pool.turn_turns hacc i j spurious
    rw [Pool.run_snoc, List.countP_append, List.countP_singleton]
    by_cases hij : i = j
    · rcases hown hij with ⟨he, hidle⟩ | ⟨hbusy, he⟩
      · exact .inr (by rw [he]; exact hidle)
      · left
        rw [he]
        have hle := ih.resolve_right hbusy
        split <;> omega
    · obtain ⟨hthread, hle⟩ := hother hij
      rcases ih with hcount | hidle
      · left
        rw [if_neg (by simpa using Ne.symm hij)]
        omega
      · right
        unfold Pool.Idle at hidle ⊢
        rwa [hthread]

end

omit [DecidableEq ι] in
/-- A thread has not retried before its first event. -/
theorem RetriesOvertaken.first {pre post : List (Event ι V N Req R)} {e : Event ι V N Req R}
    (h : RetriesOvertaken (pre ++ e :: post)) (hpre : ∀ e' ∈ pre, e'.thread ≠ e.thread) [DecidableEq ι] :
    e.isRetry e.thread = false := by
  refine Bool.eq_false_iff.2 fun hr => ?_
  obtain ⟨n, site, cur, actual, he, hne⟩ := Event.of_isRetry hr
  obtain ⟨before, m, site₀, d, mid, rfl, -⟩ := h pre post _ n site cur actual (by rw [← he]) hne
  exact hpre (.did e.thread m site₀ d) (by simp) rfl

/-- Over a whole run a thread retries at most as often as the others write. -/
theorem RetriesOvertaken.count_le {tr : List (Event ι V N Req R)} (h : RetriesOvertaken tr) (i : ι) :
    tr.countP (Event.isRetry i) ≤ tr.countP (Event.isForeignWrite i) := by
  cases hfirst : tr.find? (fun e => e.thread = i) with
  | none =>
    have hnone : tr.countP (Event.isRetry i) = 0 := by
      refine List.countP_eq_zero.2 fun e he hr => ?_
      obtain ⟨n, site, cur, actual, rfl, -⟩ := Event.of_isRetry hr
      simpa [Event.thread] using List.find?_eq_none.1 hfirst _ he
    omega
  | some e =>
    obtain ⟨hi, pre, post, rfl, hpre⟩ := List.find?_eq_some_iff_append.1 hfirst
    obtain rfl : e.thread = i := of_decide_eq_true hi
    have hbefore : ∀ e' ∈ pre, e'.thread ≠ e.thread := fun e' he' => by simpa using hpre e' he'
    have hnone : pre.countP (Event.isRetry e.thread) = 0 := by
      refine List.countP_eq_zero.2 fun e' he' hr => ?_
      obtain ⟨n, site, cur, actual, rfl, -⟩ := Event.of_isRetry hr
      exact hbefore _ he' rfl
    have hsplit : pre ++ e :: post = pre ++ e :: (post ++ []) := by rw [List.append_nil]
    have hrest := retries_le h rfl post [] hsplit
    rw [List.countP_append, List.countP_cons, hnone, h.first hbefore, List.countP_append, List.countP_cons]
    simp only [Bool.false_eq_true, if_false]
    omega

/-- **A thread with enough turns is done.** If the calls read what they expect, and all threads together make
at most `total` accesses besides failures, `mine` of them thread `i`, then the thread is done once it has had
more turns than its calls, its accesses, all accesses and the spurious failures. -/
theorem idle_of_turns {code : Req → Prog V N R} {calls : ι → List Req}
    (hcode : ∀ i, ∀ req ∈ calls i, (code req).wp (readProtocol V N) (fun _ _ => True) none) (v₀ : V)
    (sched : List (ι × Bool)) {mine total : Nat} (i : ι)
    (hmine : (Pool.run code sched (.init v₀ calls)).trace.countP (Event.doneBy i fun d => !d.fails) ≤ mine)
    (htotal : (Pool.run code sched (.init v₀ calls)).trace.countP (Event.done fun d => !d.fails) ≤ total)
    (hturns : (calls i).length + mine + total + (sched.countP fun t => t.2) <
      sched.countP fun t => t.1 = i) :
    (Pool.run code sched (.init v₀ calls)).Idle i := by
  refine (run_turns (readProtocol V N) (fun _ => none) (fun _ _ _ => True) (fun _ _ => trivial) hcode v₀
    sched i).resolve_left fun hcount => ?_
  have hretries := (retriesOvertaken hcode v₀ sched).count_le i
  have hspurious := run_spurious code v₀ calls sched
  have hstarts := run_started (fun _ => 1) code v₀ calls sched i
  generalize Pool.run code sched (.init v₀ calls) = c at *
  have hforeign := count_foreign i c.trace
  have hall := count_turns i c.trace
  simp only [List.map_const', List.sum_replicate, smul_eq_mul, mul_one] at hstarts
  omega

end Cell
