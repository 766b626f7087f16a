import Mathlib.Data.List.Basic
/-!
# Programs over one shared cell

A thread's code is a value of `Prog V N α`: accesses to a cell of type `V`, each tagged with the
name (`N`) of the routine that makes it, put together by sequencing and unbounded loops. Local
computation is ordinary Lean code between accesses.

`Prog.head` says what a program does next. It is the only thing the interleaving semantics
(`Cell.Pool`) and the logic (`Cell.Logic`) look at. `Prog.runLocal` runs a program alone over a
cell whose compare-and-exchange ignores the expected value and always succeeds.
-/
namespace Cell

/-- One access to the cell, indexed by what it returns. `atomic` is not something hardware
offers for every `f`: it is there to state what a sequence of other accesses should amount to. -/
inductive Access (V : Type) : Type → Type 1
  | load : Access V V
  | store (value : V) : Access V Unit
  | compareExchangeWeak (current new : V) : Access V (Except V Unit)
  | atomic {α : Type} (f : V → α × V) : Access V α

/-- What an access did to the cell, as a trace shows it. -/
inductive Deed (V : Type)
  | load (v : V)
  | store (old new : V)
  | exchange (old new : V)
  | fail (current actual : V)
  | atomic (old new : V)
  deriving DecidableEq, Repr

namespace Deed
variable {V : Type}

/-- The cell before the deed. -/
def before : Deed V → V
  | load v => v
  | store old _ => old
  | exchange old _ => old
  | fail _ actual => actual
  | atomic old _ => old

/-- The cell after the deed. -/
def after : Deed V → V
  | load v => v
  | store _ new => new
  | exchange _ new => new
  | fail _ actual => actual
  | atomic _ new => new

/-- The deed put a value into the cell (the old one again, perhaps). -/
def writes : Deed V → Bool
  | load _ => false
  | store _ _ => true
  | exchange _ _ => true
  | fail _ _ => false
  | atomic _ _ => true

section
variable (v w : V)

@[simp] theorem before_load : (load v).before = v := rfl
@[simp] theorem before_store : (store v w).before = v := rfl
@[simp] theorem before_exchange : (exchange v w).before = v := rfl
@[simp] theorem before_fail : (fail v w).before = w := rfl
@[simp] theorem before_atomic : (atomic v w).before = v := rfl
@[simp] theorem after_load : (load v).after = v := rfl
@[simp] theorem after_store : (store v w).after = w := rfl
@[simp] theorem after_exchange : (exchange v w).after = w := rfl
@[simp] theorem after_fail : (fail v w).after = w := rfl
@[simp] theorem after_atomic : (atomic v w).after = w := rfl
@[simp] theorem writes_load : (load v).writes = false := rfl
@[simp] theorem writes_store : (store v w).writes = true := rfl
@[simp] theorem writes_exchange : (exchange v w).writes = true := rfl
@[simp] theorem writes_fail : (fail v w).writes = false := rfl
@[simp] theorem writes_atomic : (atomic v w).writes = true := rfl

end

theorem after_eq_before {d : Deed V} (h : d.writes = false) : d.after = d.before := by
  cases d <;> simp_all

end Deed

namespace Access
variable {V α : Type}

/-- An access to an atomic cell holding `v`. A weak compare-and-exchange fails when the cell is not
`current`, and may also fail when it is (`spurious`); it then returns the actual value. -/
def perform [DecidableEq V] (spurious : Bool) : Access V α → V → α × Deed V
  | load, v => (v, .load v)
  | store value, v => ((), .store v value)
  | compareExchangeWeak current new, v =>
    if v = current ∧ spurious = false then (.ok (), .exchange v new) else (.error v, .fail current v)
  | atomic f, v => ((f v).1, .atomic v (f v).2)

@[simp] theorem perform_before [DecidableEq V] (spurious : Bool) (a : Access V α) (v : V) :
    (a.perform spurious v).2.before = v := by
  cases a with
  | compareExchangeWeak current new => simp only [perform]; split <;> rfl
  | _ => rfl

/-- An access to a plain cell, used by one thread. -/
def performLocal : Access V α → V → α × V
  | load, v => (v, v)
  | store value, _ => ((), value)
  | compareExchangeWeak _ new, _ => (.ok (), new)
  | atomic f, v => f v

end Access

inductive Prog (V N : Type) : Type → Type 1
  | ret {α : Type} (a : α) : Prog V N α
  | access {α : Type} (site : N) (a : Access V α) : Prog V N α
  | bind {α β : Type} (p : Prog V N α) (k : α → Prog V N β) : Prog V N β
  /-- Run `body s`; on `inl s'` go round again from `s'`, on `inr a` leave with `a`. -/
  | loop {σ α : Type} (body : σ → Prog V N (σ ⊕ α)) (s : σ) : Prog V N α

instance (V N : Type) : Monad (Prog V N) where
  pure := .ret
  bind := .bind

/-- What a program does next: return, or one access and then the rest. `spin` is a loop iteration
that went round again without an access. -/
inductive Head (V N α : Type) : Type 1
  | ret (a : α) : Head V N α
  | access {β : Type} (site : N) (a : Access V β) (k : β → Prog V N α) : Head V N α
  | spin (p : Prog V N α) : Head V N α

namespace Prog
variable {V N α β σ : Type}

/-- Where a loop goes after one iteration. -/
def again (body : σ → Prog V N (σ ⊕ α)) : σ ⊕ α → Prog V N α
  | .inl s => .loop body s
  | .inr a => .ret a

def head {α : Type} : Prog V N α → Head V N α
  | ret a => .ret a
  | access site a => .access site a .ret
  | bind p k =>
    match p.head with
    | .ret a => (k a).head
    | .access site a k' => .access site a fun b => .bind (k' b) k
    | .spin p' => .spin (.bind p' k)
  | loop body s =>
    match (body s).head with
    | .ret (.inl s') => .spin (.loop body s')
    | .ret (.inr a) => .ret a
    | .access site a k' => .access site a fun b => .bind (k' b) (again body)
    | .spin p' => .spin (.bind p' (again body))

@[simp] theorem pure_eq_ret (a : α) : (pure a : Prog V N α) = .ret a := rfl

@[simp] theorem bind_eq_bind (p : Prog V N α) (k : α → Prog V N β) : (p >>= k) = .bind p k := rfl

@[simp] theorem head_ret (a : α) : (ret a : Prog V N α).head = .ret a := rfl

@[simp] theorem head_access (site : N) (a : Access V α) :
    (access site a).head = .access site a .ret := rfl

/-! ## Running alone over a plain cell -/

/-- At most `fuel` iterations of a loop whose body is `f`. -/
def iterate (f : σ → V → Option ((σ ⊕ α) × V)) : Nat → σ → V → Option (α × V)
  | 0, _, _ => none
  | fuel + 1, s, v =>
    match f s v with
    | none => none
    | some (.inl s', w) => iterate f fuel s' w
    | some (.inr a, w) => some (a, w)

/-- The program run alone from cell value `v`, every loop given `fuel` iterations; `none` is a loop
that needs more. -/
def runLocal {α : Type} (fuel : Nat) : Prog V N α → V → Option (α × V)
  | ret a, v => some (a, v)
  | access _ a, v => some (a.performLocal v)
  | bind p k, v =>
    match p.runLocal fuel v with
    | none => none
    | some (a, w) => (k a).runLocal fuel w
  | loop body s, v => iterate (fun s' w => (body s').runLocal fuel w) fuel s v

@[simp] theorem runLocal_ret (fuel : Nat) (a : α) (v : V) :
    (ret a : Prog V N α).runLocal fuel v = some (a, v) := rfl

@[simp] theorem runLocal_access (fuel : Nat) (site : N) (a : Access V α) (v : V) :
    (access site a).runLocal fuel v = some (a.performLocal v) := rfl

theorem runLocal_bind {fuel : Nat} {p : Prog V N α} {k : α → Prog V N β} {v w : V} {a : α}
    (h : p.runLocal fuel v = some (a, w)) :
    (bind p k).runLocal fuel v = (k a).runLocal fuel w := by
  simp only [runLocal, h]

theorem iterate_done {f : σ → V → Option ((σ ⊕ α) × V)} {fuel : Nat} {s : σ} {v w : V} {a : α}
    (h : f s v = some (.inr a, w)) (hf : 0 < fuel) : iterate f fuel s v = some (a, w) := by
  obtain ⟨n, rfl⟩ := Nat.exists_eq_succ_of_ne_zero (Nat.ne_of_gt hf)
  simp only [iterate, h]

theorem iterate_again {f : σ → V → Option ((σ ⊕ α) × V)} {fuel : Nat} {s s' : σ} {v w : V}
    (h : f s v = some (.inl s', w)) : iterate f (fuel + 1) s v = iterate f fuel s' w := by
  simp only [iterate, h]

end Prog

/-! ## Compare-and-exchange loops -/

/-- What one iteration of a compare-and-exchange loop decides from the value it read: leave with
`a`, or try to put `new` in its place and leave with `a` if that works. -/
inductive Attempt (V α : Type)
  | stop (a : α)
  | write (new : V) (a : α)

namespace Attempt
variable {V α : Type}

/-- The result and the new cell value if the iteration is the one that gets through. -/
def outcome (v : V) : Attempt V α → α × V
  | stop a => (a, v)
  | write new a => (a, new)

@[simp] theorem outcome_stop (v : V) (a : α) : (stop a : Attempt V α).outcome v = (a, v) := rfl
@[simp] theorem outcome_write (v new : V) (a : α) : (write new a).outcome v = (a, new) := rfl

end Attempt

section
variable {V N α : Type}

/-- One iteration: decide from `old`, then compare-and-exchange against `old`. -/
def casBody (site : N) (attempt : V → Attempt V α) (old : V) : Prog V N (V ⊕ α) :=
  match attempt old with
  | .stop a => pure (.inr a)
  | .write new a => do
    match ← Prog.access site (.compareExchangeWeak old new) with
    | .ok () => pure (.inr a)
    | .error actual => pure (.inl actual)

/-- `let mut old = load(); loop { … match compare_exchange_weak(old, new) { Ok(()) => return …,
Err(actual) => old = actual } }`. -/
def casLoop (site : N) (attempt : V → Attempt V α) : Prog V N α := do
  let old ← Prog.access site .load
  .loop (casBody site attempt) old

/-- Alone over a plain cell the first attempt always gets through. -/
theorem casLoop_runLocal {fuel : Nat} (hf : 0 < fuel) (site : N) (attempt : V → Attempt V α) (v : V) :
    (casLoop site attempt).runLocal fuel v = some ((attempt v).outcome v) := by
  simp only [casLoop, Prog.bind_eq_bind, Prog.runLocal, Access.performLocal]
  refine Prog.iterate_done ?_ hf
  cases h : attempt v <;> simp [casBody, h, Prog.runLocal, Access.performLocal]

end
end Cell
