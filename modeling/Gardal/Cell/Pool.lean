import Mathlib.Data.List.Induction
import Mathlib.Logic.Function.Basic
import Gardal.Cell.Prog
/-!
# Threads over one shared atomic cell

Each thread has a list of calls to make and makes them one after another. A schedule is a list of
turns; a turn of an idle thread starts its next call, a turn of a thread inside a call is one
access. Local computation runs with the access before it, so a call that is finished after an
access returns in that same turn, and the order of the returns in the trace is the order of the
calls' last accesses.
-/
namespace Cell

structure Thread (V N Req R : Type) : Type 1 where
  /-- Calls not started yet. -/
  todo : List Req
  /-- Number of calls returned; the index of the call in progress, or of the next one. -/
  made : Nat
  /-- The call in progress and what is left of its code. -/
  cur : Option (Req × Prog V N R)

inductive Event (ι V N Req R : Type)
  | call (i : ι) (n : Nat) (req : Req)
  | did (i : ι) (n : Nat) (site : N) (d : Deed V)
  | ret (i : ι) (n : Nat) (req : Req) (r : R)
  deriving DecidableEq, Repr

/-- A finished call: the `index`-th of its thread. -/
structure Returned (ι Req R : Type) where
  thread : ι
  index : Nat
  request : Req
  response : R
  deriving DecidableEq, Repr

structure Pool (ι V N Req R : Type) : Type 1 where
  cell : V
  threads : ι → Thread V N Req R
  trace : List (Event ι V N Req R)

namespace Event
variable {ι V N Req R : Type}

def thread : Event ι V N Req R → ι
  | call i _ _ => i
  | did i _ _ _ => i
  | ret i _ _ _ => i

def index : Event ι V N Req R → Nat
  | call _ n _ => n
  | did _ n _ _ => n
  | ret _ n _ _ => n

def isCall : Event ι V N Req R → Bool
  | call _ _ _ => true
  | _ => false

def isRet : Event ι V N Req R → Bool
  | ret _ _ _ _ => true
  | _ => false

/-- How an event and a later one are numbered: a thread's calls in order, with the `call` first and
the `ret` last of the events of a call. -/
def Before (e e' : Event ι V N Req R) : Prop :=
  e.thread = e'.thread →
    e.index ≤ e'.index ∧ (e.isRet = true ∨ e'.isCall = true → e.index < e'.index)

/-- The event put a value into the cell. -/
def writes : Event ι V N Req R → Bool
  | did _ _ _ d => d.writes
  | _ => false

def returned : Event ι V N Req R → Option (Returned ι Req R)
  | ret i n req r => some ⟨i, n, req, r⟩
  | _ => none

end Event

/-- The finished calls of a trace, in the order in which they returned. -/
def returns {ι V N Req R : Type} (trace : List (Event ι V N Req R)) : List (Returned ι Req R) :=
  trace.filterMap Event.returned

/-- What a program returns, once nothing but local computation is left of it. -/
def Prog.result {V N α : Type} (p : Prog V N α) : Option α :=
  match p.head with
  | .ret a => some a
  | _ => none

namespace Pool
variable {ι V N Req R : Type}

def init (v : V) (calls : ι → List Req) : Pool ι V N Req R :=
  ⟨v, fun i => ⟨calls i, 0, none⟩, []⟩

variable [DecidableEq ι]

/-- Thread `i` goes on with `p`; if nothing is left of `p` but local computation, it returns. -/
def settle (c : Pool ι V N Req R) (i : ι) (todo : List Req) (made : Nat) (req : Req)
    (p : Prog V N R) : Pool ι V N Req R :=
  match p.result with
  | some r =>
    { c with
      threads := Function.update c.threads i ⟨todo, made + 1, none⟩
      trace := c.trace ++ [.ret i made req r] }
  | none => { c with threads := Function.update c.threads i ⟨todo, made, some (req, p)⟩ }

/-- Every thread has made all its calls. -/
def Done (c : Pool ι V N Req R) : Prop :=
  ∀ i, (c.threads i).cur.isNone ∧ (c.threads i).todo.isEmpty

theorem settle_cases (c : Pool ι V N Req R) (i : ι) (todo : List Req) (made : Nat) (req : Req)
    (p : Prog V N R) :
    (∃ r, p.head = .ret r ∧ c.settle i todo made req p =
      ⟨c.cell, Function.update c.threads i ⟨todo, made + 1, none⟩, c.trace ++ [.ret i made req r]⟩) ∨
    ((∀ r, p.head ≠ .ret r) ∧ c.settle i todo made req p =
      ⟨c.cell, Function.update c.threads i ⟨todo, made, some (req, p)⟩, c.trace⟩) := by
  cases h : p.head with
  | ret r => exact Or.inl ⟨r, rfl, by simp [settle, Prog.result, h]⟩
  | access site a k => exact Or.inr ⟨by simp, by simp [settle, Prog.result, h]⟩
  | spin p' => exact Or.inr ⟨by simp, by simp [settle, Prog.result, h]⟩

variable [DecidableEq V]

/-- One turn of thread `i`. -/
def turn (code : Req → Prog V N R) (c : Pool ι V N Req R) (i : ι) (spurious : Bool) :
    Pool ι V N Req R :=
  let t := c.threads i
  match t.cur with
  | none =>
    match t.todo with
    | [] => c
    | req :: rest =>
      settle { c with trace := c.trace ++ [.call i t.made req] } i rest t.made req (code req)
  | some (req, p) =>
    match p.head with
    | .ret _ => settle c i t.todo t.made req p
    | .spin p' => settle c i t.todo t.made req p'
    | .access site a k =>
      let (x, d) := a.perform spurious c.cell
      settle { c with cell := d.after, trace := c.trace ++ [.did i t.made site d] }
        i t.todo t.made req (k x)

/-- The turns of a schedule, each with whether a compare-and-exchange of it fails spuriously. -/
def run (code : Req → Prog V N R) (sched : List (ι × Bool)) (c : Pool ι V N Req R) :
    Pool ι V N Req R :=
  sched.foldl (fun c t => c.turn code t.1 t.2) c

/-! ## What a turn can do -/

/-- The four kinds of turn: nothing left to do, a call starts, an access, or local computation
only (which `Cell.Logic` rules out for the programs it accepts). -/
theorem turn_cases (code : Req → Prog V N R) (c : Pool ι V N Req R) (i : ι) (spurious : Bool) :
    ((c.threads i).cur = none ∧ (c.threads i).todo = [] ∧ c.turn code i spurious = c) ∨
    (∃ req rest, (c.threads i).cur = none ∧ (c.threads i).todo = req :: rest ∧
      c.turn code i spurious =
        settle { c with trace := c.trace ++ [.call i (c.threads i).made req] } i rest
          (c.threads i).made req (code req)) ∨
    (∃ req p, ∃ β, ∃ site, ∃ a : Access V β, ∃ k, (c.threads i).cur = some (req, p) ∧
      p.head = .access site a k ∧
      c.turn code i spurious =
        settle ⟨(a.perform spurious c.cell).2.after, c.threads,
            c.trace ++ [.did i (c.threads i).made site (a.perform spurious c.cell).2]⟩
          i (c.threads i).todo (c.threads i).made req (k (a.perform spurious c.cell).1)) ∨
    (∃ req p p', (c.threads i).cur = some (req, p) ∧
      ((∃ r, p.head = .ret r) ∨ p.head = .spin p') ∧
      c.turn code i spurious = settle c i (c.threads i).todo (c.threads i).made req p') := by
  cases hc : (c.threads i).cur with
  | none =>
    cases ht : (c.threads i).todo with
    | nil => exact Or.inl ⟨rfl, rfl, by simp [turn, hc, ht]⟩
    | cons req rest => exact Or.inr (Or.inl ⟨req, rest, rfl, rfl, by simp [turn, hc, ht]⟩)
  | some rp =>
    obtain ⟨req, p⟩ := rp
    refine Or.inr (Or.inr ?_)
    cases hp : p.head with
    | ret r => exact Or.inr ⟨req, p, p, rfl, Or.inl ⟨r, hp⟩, by simp [turn, hc, hp]⟩
    | spin p' => exact Or.inr ⟨req, p, p', rfl, Or.inr hp, by simp [turn, hc, hp]⟩
    | access site a k => exact Or.inl ⟨req, p, _, site, a, k, rfl, hp, by simp [turn, hc, hp]⟩

theorem run_snoc (code : Req → Prog V N R) (sched : List (ι × Bool)) (i : ι) (spurious : Bool)
    (c : Pool ι V N Req R) :
    run code (sched ++ [(i, spurious)]) c = (run code sched c).turn code i spurious := by
  simp [run]

/-- What holds at the start and is kept by every turn holds after any schedule. -/
theorem run_induction {code : Req → Prog V N R} (P : Pool ι V N Req R → Prop)
    (hstep : ∀ c i spurious, P c → P (c.turn code i spurious)) {c : Pool ι V N Req R} (h0 : P c)
    (sched : List (ι × Bool)) : P (run code sched c) := by
  induction sched using List.reverseRecOn with
  | nil => exact h0
  | append_singleton sched t ih => rw [run_snoc]; exact hstep _ _ _ ih

end Pool

/-! ## Program order -/

section
variable {ι V N Req R : Type}

@[simp] theorem returns_nil : returns ([] : List (Event ι V N Req R)) = [] := rfl

@[simp] theorem returns_append (l l' : List (Event ι V N Req R)) :
    returns (l ++ l') = returns l ++ returns l' := List.filterMap_append ..

@[simp] theorem returns_call (i : ι) (n : Nat) (req : Req) (l : List (Event ι V N Req R)) :
    returns (.call i n req :: l) = returns l := rfl

@[simp] theorem returns_did (i : ι) (n : Nat) (site : N) (d : Deed V)
    (l : List (Event ι V N Req R)) : returns (.did i n site d :: l) = returns l := rfl

@[simp] theorem returns_ret (i : ι) (n : Nat) (req : Req) (r : R) (l : List (Event ι V N Req R)) :
    returns (.ret i n req r :: l) = ⟨i, n, req, r⟩ :: returns l := rfl

variable [DecidableEq ι]

/-- The requests thread `i` got answered, in the order of the trace. -/
def answered (i : ι) (trace : List (Event ι V N Req R)) : List Req :=
  ((returns trace).filter fun x => x.thread = i).map (·.request)

/-- Answered, in progress, still to come: together exactly the calls each thread was given. -/
def InOrder (calls : ι → List Req) (c : Pool ι V N Req R) : Prop :=
  ∀ i, answered i c.trace ++ (c.threads i).cur.toList.map Prod.fst ++ (c.threads i).todo = calls i

theorem settle_inOrder {calls : ι → List Req} {c : Pool ι V N Req R} {i : ι} {todo : List Req}
    {made : Nat} {req : Req} {p : Prog V N R}
    (hi : answered i c.trace ++ req :: todo = calls i)
    (ho : ∀ j, j ≠ i →
      answered j c.trace ++ (c.threads j).cur.toList.map Prod.fst ++ (c.threads j).todo = calls j) :
    InOrder calls (c.settle i todo made req p) := by
  intro j
  rcases c.settle_cases i todo made req p with ⟨r, -, he⟩ | ⟨-, he⟩ <;> rw [he] <;>
    by_cases hj : j = i
  · subst hj
    simp [answered, ← hi]
  · simpa [answered, hj, Ne.symm hj] using ho j hj
  · subst hj
    simpa using hi
  · simpa [hj] using ho j hj

theorem turn_inOrder [DecidableEq V] {code : Req → Prog V N R} {calls : ι → List Req}
    (c : Pool ι V N Req R) (i : ι) (spurious : Bool) (h : InOrder calls c) :
    InOrder calls (c.turn code i spurious) := by
  have hi := h i
  rcases c.turn_cases code i spurious with
    ⟨-, -, he⟩ | ⟨req, rest, hc, ht, he⟩ | ⟨req, p, β, site, a, k, hc, -, he⟩ | ⟨req, p, p', hc, -, he⟩
  · rw [he]; exact h
  · rw [he]
    refine settle_inOrder ?_ fun j _ => ?_
    · simpa [answered, hc, ht] using hi
    · simpa [answered] using h j
  · rw [he]
    refine settle_inOrder ?_ fun j _ => ?_
    · simpa [answered, hc] using hi
    · simpa [answered] using h j
  · rw [he]
    exact settle_inOrder (by simpa [hc] using hi) fun j _ => h j

/-- **Program order.** When every thread is done, the calls it got answered are its calls, in
order. -/
theorem answered_of_done [DecidableEq V] {code : Req → Prog V N R} {v : V} {calls : ι → List Req}
    {sched : List (ι × Bool)} (hd : (Pool.run code sched (.init v calls)).Done) (i : ι) :
    answered i (Pool.run code sched (.init v calls)).trace = calls i := by
  have h : InOrder calls (Pool.run code sched (.init v calls)) :=
    Pool.run_induction (InOrder calls) turn_inOrder (by intro j; simp [answered, returns, Pool.init])
      sched
  obtain ⟨hc, ht⟩ := hd i
  simpa [Option.isNone_iff_eq_none.1 hc, List.isEmpty_iff.1 ht] using h i

/-- Where the split of a list with an element added lies: at that element, or before it. -/
theorem concat_eq_append_cons {α : Type} {l pre mid : List α} {e x : α}
    (h : l ++ [e] = pre ++ x :: mid) :
    (pre = l ∧ x = e ∧ mid = []) ∨ ∃ mid', mid = mid' ++ [e] ∧ l = pre ++ x :: mid' := by
  rcases List.eq_nil_or_concat mid with rfl | ⟨mid', y, rfl⟩
  · obtain ⟨hl, hx⟩ := List.append_inj' h rfl
    exact Or.inl ⟨hl.symm, by simpa using hx.symm, rfl⟩
  · have h' : l ++ [e] = (pre ++ x :: mid') ++ [y] := by simpa using h
    obtain ⟨hl, hy⟩ := List.append_inj' h' rfl
    obtain rfl : e = y := by simpa using hy
    exact Or.inr ⟨mid', by simp, hl⟩

/-! ## Numbering -/

/-- The events are numbered in order, none with a number its thread has not come to. -/
structure Numbered (c : Pool ι V N Req R) : Prop where
  before : c.trace.Pairwise Event.Before
  le : ∀ e ∈ c.trace, e.index ≤ (c.threads e.thread).made
  lt : ∀ e ∈ c.trace, e.isRet = true ∨ (c.threads e.thread).cur = none →
    e.index < (c.threads e.thread).made

/-- The same of a trace in the middle of a turn of thread `i`. -/
structure NumberedBut (i : ι) (threads : ι → Thread V N Req R) (trace : List (Event ι V N Req R)) :
    Prop where
  before : trace.Pairwise Event.Before
  le : ∀ e ∈ trace, e.index ≤ (threads e.thread).made
  ret : ∀ e ∈ trace, e.isRet = true → e.index < (threads e.thread).made
  idle : ∀ e ∈ trace, e.thread ≠ i → (threads e.thread).cur = none → e.index < (threads e.thread).made

section
variable {i : ι} {threads : ι → Thread V N Req R} {trace : List (Event ι V N Req R)}

omit [DecidableEq ι] in
theorem Numbered.but {c : Pool ι V N Req R} (h : Numbered c) (i : ι) : NumberedBut i c.threads c.trace :=
  ⟨h.before, h.le, fun e he hr => h.lt e he (.inl hr), fun e he _ hc => h.lt e he (.inr hc)⟩

omit [DecidableEq ι] in
/-- An event with the number its thread has come to keeps the order, if it does not start a call that
has events already. -/
theorem NumberedBut.pairwise_concat (h : NumberedBut i threads trace) {e : Event ι V N Req R}
    (hi : e.thread = i) (hn : e.index = (threads i).made)
    (hcall : e.isCall = true → ∀ e' ∈ trace, e'.thread = i → e'.index < (threads i).made) :
    (trace ++ [e]).Pairwise Event.Before := by
  refine List.pairwise_append.2 ⟨h.before, List.pairwise_singleton _ _, ?_⟩
  intro e₁ hmem e₂ he hsame
  obtain rfl := List.mem_singleton.1 he
  have hi₁ : e₁.thread = i := hsame.trans hi
  have hle := h.le e₁ hmem
  have hret := h.ret e₁ hmem
  rw [hi₁] at hle hret
  rw [hn]
  exact ⟨hle, fun hcase => hcase.elim hret fun hc => hcall hc e₁ hmem hi₁⟩

omit [DecidableEq ι] in
theorem NumberedBut.concat (h : NumberedBut i threads trace) {e : Event ι V N Req R}
    (hi : e.thread = i) (hn : e.index = (threads i).made) (hr : e.isRet = false)
    (hcall : e.isCall = true → ∀ e' ∈ trace, e'.thread = i → e'.index < (threads i).made) :
    NumberedBut i threads (trace ++ [e]) := by
  refine ⟨h.pairwise_concat hi hn hcall, ?_, ?_, ?_⟩
  · intro e₁ hmem
    rcases List.mem_append.1 hmem with hmem | hmem
    · exact h.le e₁ hmem
    · obtain rfl := List.mem_singleton.1 hmem
      exact Nat.le_of_eq (by rw [hi, hn])
  · intro e₁ hmem hret
    rcases List.mem_append.1 hmem with hmem | hmem
    · exact h.ret e₁ hmem hret
    · obtain rfl := List.mem_singleton.1 hmem
      rw [hr] at hret
      cases hret
  · intro e₁ hmem hne
    rcases List.mem_append.1 hmem with hmem | hmem
    · exact h.idle e₁ hmem hne
    · obtain rfl := List.mem_singleton.1 hmem
      exact absurd hi hne

theorem settle_numbered {c : Pool ι V N Req R} (h : NumberedBut i c.threads c.trace) (todo : List Req)
    (req : Req) (p : Prog V N R) : Numbered (c.settle i todo (c.threads i).made req p) := by
  obtain ⟨hb, hle, hret, hidle⟩ := id h
  rcases c.settle_cases i todo (c.threads i).made req p with ⟨r, -, he⟩ | ⟨-, he⟩ <;> rw [he]
  · -- The thread moves on to the next number, which is above that of everything so far.
    have hlt : ∀ e ∈ c.trace ++ [.ret i (c.threads i).made req r], e.thread = i →
        e.index < (c.threads i).made + 1 := by
      intro e hmem hi
      rcases List.mem_append.1 hmem with hmem | hmem
      · have h1 := hle e hmem
        rw [hi] at h1
        omega
      · obtain rfl := List.mem_singleton.1 hmem
        exact Nat.lt_succ_self _
    have hold : ∀ e ∈ c.trace ++ [.ret i (c.threads i).made req r], e.thread ≠ i → e ∈ c.trace := by
      intro e hmem hi
      refine (List.mem_append.1 hmem).resolve_right fun hmem => hi ?_
      obtain rfl := List.mem_singleton.1 hmem
      rfl
    constructor
    · exact h.pairwise_concat rfl rfl (by rintro ⟨⟩)
    · intro e hmem
      by_cases hi : e.thread = i
      · simpa [hi] using Nat.le_of_lt (hlt e hmem hi)
      · simpa [hi] using hle e (hold e hmem hi)
    · intro e hmem hcase
      by_cases hi : e.thread = i
      · simpa [hi] using hlt e hmem hi
      · simp only [ne_eq, hi, not_false_eq_true, Function.update_of_ne] at hcase ⊢
        exact hcase.elim (hret e (hold e hmem hi)) (hidle e (hold e hmem hi) hi)
  · constructor
    · exact hb
    · intro e hmem
      by_cases hi : e.thread = i
      · have h1 := hle e hmem
        rw [hi] at h1
        simpa [hi] using h1
      · simpa [hi] using hle e hmem
    · intro e hmem hcase
      by_cases hi : e.thread = i
      · simp only [hi, Function.update_self, reduceCtorEq, or_false] at hcase
        have h2 := hret e hmem hcase
        rw [hi] at h2
        simpa [hi] using h2
      · simp only [ne_eq, hi, not_false_eq_true, Function.update_of_ne] at hcase ⊢
        exact hcase.elim (hret e hmem) (hidle e hmem hi)

end

theorem turn_numbered [DecidableEq V] {code : Req → Prog V N R} (c : Pool ι V N Req R) (i : ι)
    (spurious : Bool) (h : Numbered c) : Numbered (c.turn code i spurious) := by
  rcases c.turn_cases code i spurious with
    ⟨-, -, he⟩ | ⟨req, rest, hc, -, he⟩ | ⟨req, p, β, site, a, k, -, -, he⟩ | ⟨req, p, p', -, -, he⟩
  · rw [he]
    exact h
  · rw [he]
    refine settle_numbered (c := ⟨c.cell, c.threads, _⟩) ((h.but i).concat rfl rfl rfl ?_) rest req _
    -- The thread is idle, so all its events so far have smaller numbers.
    intro _ e hmem hi
    have hlt := h.lt e hmem (.inr (by rw [hi]; exact hc))
    rwa [hi] at hlt
  · rw [he]
    exact settle_numbered (c := ⟨_, c.threads, _⟩) ((h.but i).concat rfl rfl rfl (by rintro ⟨⟩)) _ req _
  · rw [he]
    exact settle_numbered (h.but i) _ req p'

/-- The trace of every run is numbered in order. -/
theorem run_before [DecidableEq V] (code : Req → Prog V N R) (v : V) (calls : ι → List Req)
    (sched : List (ι × Bool)) :
    (Pool.run code sched (.init v calls)).trace.Pairwise Event.Before :=
  (Pool.run_induction Numbered turn_numbered
    ⟨List.Pairwise.nil, by simp [Pool.init], by simp [Pool.init]⟩ sched).before

/-! ## Which call an access is made for -/

/-- The request thread `i` is working on, after one more event. -/
def Event.track (i : ι) (s : Option Req) : Event ι V N Req R → Option Req
  | call j _ req => if j = i then some req else s
  | did _ _ _ _ => s
  | ret j _ _ _ => if j = i then none else s

/-- The request thread `i` is working on at the end of a trace. -/
def current (i : ι) (trace : List (Event ι V N Req R)) : Option Req := trace.foldl (Event.track i) none

@[simp] theorem current_concat (i : ι) (trace : List (Event ι V N Req R)) (e : Event ι V N Req R) :
    current i (trace ++ [e]) = e.track i (current i trace) := by
  simp [current]

theorem Event.track_of_ne {i : ι} {e : Event ι V N Req R} (h : e.thread ≠ i) (s : Option Req) :
    e.track i s = s := by
  cases e with
  | did j m site d => rfl
  | call j m req => exact if_neg h
  | ret j m req r => exact if_neg h

/-- Every access is made for the call that its number says. -/
def Labeled (calls : ι → List Req) (trace : List (Event ι V N Req R)) : Prop :=
  ∀ before after j m site d, trace = before ++ .did j m site d :: after →
    current j before = (calls j)[m]?

theorem Labeled.concat {calls : ι → List Req} {trace : List (Event ι V N Req R)} (h : Labeled calls trace)
    {e : Event ι V N Req R}
    (he : ∀ j m site d, e = .did j m site d → current j trace = (calls j)[m]?) :
    Labeled calls (trace ++ [e]) := by
  intro before after j m site d hsplit
  rcases concat_eq_append_cons hsplit with ⟨rfl, heq, -⟩ | ⟨after', rfl, htr⟩
  · exact he j m site d heq.symm
  · exact h before after' j m site d htr

theorem Labeled.of_concat {calls : ι → List Req} {trace : List (Event ι V N Req R)} {e : Event ι V N Req R}
    (h : Labeled calls (trace ++ [e])) : Labeled calls trace := by
  intro before after j m site d hsplit
  exact h before (after ++ [e]) j m site d (by simp [hsplit])

/-- The thread's place in its list of calls, and what it is working on. -/
def Placed (calls : List Req) (t : Thread V N Req R) (working : Option Req) : Prop :=
  t.cur.map Prod.fst = working ∧ calls.drop t.made = t.cur.toList.map Prod.fst ++ t.todo

theorem settle_labeled {calls : ι → List Req} {c : Pool ι V N Req R} {i : ι} {todo : List Req} {made : Nat}
    {req : Req} {p : Prog V N R} (hlabeled : Labeled calls c.trace) (hcur : current i c.trace = some req)
    (hdrop : (calls i).drop made = req :: todo)
    (hothers : ∀ j, j ≠ i → Placed (calls j) (c.threads j) (current j c.trace)) :
    Labeled calls (c.settle i todo made req p).trace ∧
      ∀ j, Placed (calls j) ((c.settle i todo made req p).threads j)
        (current j (c.settle i todo made req p).trace) := by
  rcases c.settle_cases i todo made req p with ⟨r, -, he⟩ | ⟨-, he⟩ <;> rw [he]
  · refine ⟨hlabeled.concat (by rintro _ _ _ _ ⟨⟩), fun j => ?_⟩
    by_cases hji : j = i
    · subst hji
      have htail : (calls j).drop (made + 1) = todo := by rw [← List.tail_drop, hdrop, List.tail_cons]
      simp [Placed, Event.track, htail]
    · have hne : (Event.ret i made req r : Event ι V N Req R).thread ≠ j := Ne.symm hji
      simpa [hji, Event.track_of_ne hne] using hothers j hji
  · refine ⟨hlabeled, fun j => ?_⟩
    by_cases hji : j = i
    · subst hji
      simp [Placed, hcur, hdrop]
    · simpa [hji] using hothers j hji

theorem turn_labeled [DecidableEq V] {code : Req → Prog V N R} {calls : ι → List Req}
    (c : Pool ι V N Req R) (i : ι) (spurious : Bool)
    (h : Labeled calls c.trace ∧ ∀ j, Placed (calls j) (c.threads j) (current j c.trace)) :
    Labeled calls (c.turn code i spurious).trace ∧
      ∀ j, Placed (calls j) ((c.turn code i spurious).threads j)
        (current j (c.turn code i spurious).trace) := by
  obtain ⟨hlabeled, hplaced⟩ := h
  obtain ⟨hcur, hdrop⟩ := hplaced i
  rcases c.turn_cases code i spurious with
    ⟨-, -, he⟩ | ⟨req, rest, hc, ht, he⟩ | ⟨req, p, β, site, a, k, hc, -, he⟩ | ⟨req, p, p', hc, -, he⟩
  · rw [he]
    exact ⟨hlabeled, hplaced⟩
  · rw [he]
    refine settle_labeled (c := ⟨c.cell, c.threads, _⟩) (hlabeled.concat (by rintro _ _ _ _ ⟨⟩)) ?_ ?_ ?_
    · simp [Event.track]
    · simpa [hc, ht] using hdrop
    · intro j hji
      have hne : (Event.call i (c.threads i).made req : Event ι V N Req R).thread ≠ j := Ne.symm hji
      simpa [Event.track_of_ne hne] using hplaced j
  · have hreq : current i c.trace = some req := by simpa [hc] using hcur.symm
    rw [he]
    refine settle_labeled (c := ⟨_, c.threads, _⟩) (hlabeled.concat ?_) ?_ ?_ ?_
    · rintro j m site' d heq
      cases heq
      rw [hreq, ← List.head?_drop, hdrop, hc]
      rfl
    · simpa [Event.track] using hreq
    · simpa [hc] using hdrop
    · intro j _
      simpa [Event.track] using hplaced j
  · have hreq : current i c.trace = some req := by simpa [hc] using hcur.symm
    rw [he]
    exact settle_labeled hlabeled hreq (by simpa [hc] using hdrop) fun j _ => hplaced j

/-- The accesses of every run are numbered by the calls of their threads. -/
theorem run_labeled [DecidableEq V] (code : Req → Prog V N R) (v : V) (calls : ι → List Req)
    (sched : List (ι × Bool)) : Labeled calls (Pool.run code sched (.init v calls)).trace := by
  refine (Pool.run_induction (fun c => Labeled calls c.trace ∧
    ∀ j, Placed (calls j) (c.threads j) (current j c.trace)) turn_labeled ⟨?_, ?_⟩ sched).1
  · intro before after j m site d hsplit
    simp [Pool.init] at hsplit
  · intro j
    simp [Placed, Pool.init, current]

end

end Cell
