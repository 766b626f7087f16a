import Mathlib.Data.List.Forall2
import Gardal.Cell.Pool
/-!
# Lockstep simulation

Two pools whose cells have different types take the same turns, if the programs of one do what the programs of
the other do, up to a correspondence of the values (`Coupling`). Values need correspond only while those of the
second cell are in range: a program computes a value before it is known to be put into the cell, and the range
is that of the values that were put there.

`Prog.Sim` relates two programs of one shape, `run_sim` two pools that run such programs on one schedule.
-/
namespace Cell

/-- A correspondence of values, one to one where it is defined. -/
structure Coupling (V W : Type) where
  rel : V → W → Prop
  /-- The values of the second cell for which the first is answerable. -/
  inRange : W → Prop
  eq_iff : ∀ {v v' w w'}, rel v w → rel v' w' → (v = v' ↔ w = w')

variable {ι V W N Req Req' R R' : Type} {C : Coupling V W}

/-- Deeds of one kind with corresponding values. -/
inductive Deed.Rel (rel : V → W → Prop) : Deed V → Deed W → Prop
  | load {v w} (h : rel v w) : Rel rel (.load v) (.load w)
  | store {v w v' w'} (h : rel v w) (h' : rel v' w') : Rel rel (.store v v') (.store w w')
  | exchange {v w v' w'} (h : rel v w) (h' : rel v' w') : Rel rel (.exchange v v') (.exchange w w')
  | fail {v w v' w'} (h : rel v w) (h' : rel v' w') : Rel rel (.fail v v') (.fail w w')
  | atomic {v w v' w'} (h : rel v w) (h' : rel v' w') : Rel rel (.atomic v v') (.atomic w w')

theorem Deed.Rel.after {rel : V → W → Prop} {d : Deed V} {e : Deed W} (h : d.Rel rel e) :
    rel d.after e.after := by
  cases h <;> assumption

section programs
variable [DecidableEq V] [DecidableEq W] (C : Coupling V W)

/-- From corresponding values, the two accesses do corresponding deeds and their results are related, unless a
value out of range is put into the second cell. -/
def Access.Sim {α β : Type} (res : α → β → Prop) (a : Access V α) (a' : Access W β) : Prop :=
  ∀ v w spurious, C.rel v w → C.inRange (a'.perform spurious w).2.after →
    (a.perform spurious v).2.Rel C.rel (a'.perform spurious w).2 ∧
      res (a.perform spurious v).1 (a'.perform spurious w).1

inductive Prog.Sim : {α β : Type} → (α → β → Prop) → Prog V N α → Prog W N β → Prop
  | ret {α β : Type} {res : α → β → Prop} {a : α} {b : β} (h : res a b) : Sim res (.ret a) (.ret b)
  | access {α β : Type} {res : α → β → Prop} {n : N} {a : Access V α} {a' : Access W β}
      (h : a.Sim C res a') : Sim res (.access n a) (.access n a')
  | bind {α β γ δ : Type} {res : γ → δ → Prop} (mid : α → β → Prop) {p : Prog V N α} {q : Prog W N β}
      {k : α → Prog V N γ} {k' : β → Prog W N δ} (hp : Sim mid p q)
      (hk : ∀ a b, mid a b → Sim res (k a) (k' b)) : Sim res (.bind p k) (.bind q k')
  | loop {σ τ α β : Type} {res : α → β → Prop} (inv : σ → τ → Prop) {body : σ → Prog V N (σ ⊕ α)}
      {body' : τ → Prog W N (τ ⊕ β)} {s : σ} {t : τ} (hs : inv s t)
      (hbody : ∀ s t, inv s t → Sim (Sum.LiftRel inv res) (body s) (body' t)) :
      Sim res (.loop body s) (.loop body' t)

/-- What the two programs do next. -/
inductive Head.Sim {α β : Type} (res : α → β → Prop) : Head V N α → Head W N β → Prop
  | ret {a : α} {b : β} (h : res a b) : Sim res (.ret a) (.ret b)
  | access {γ δ : Type} {n : N} {a : Access V γ} {a' : Access W δ} {k : γ → Prog V N α} {k' : δ → Prog W N β}
      (h : a.Sim C (fun x y => (k x).Sim C res (k' y)) a') : Sim res (.access n a k) (.access n a' k')
  | spin {p : Prog V N α} {q : Prog W N β} (h : p.Sim C res q) : Sim res (.spin p) (.spin q)

variable {C}

theorem Access.Sim.mono {α β : Type} {res res' : α → β → Prop} {a : Access V α} {a' : Access W β}
    (h : a.Sim C res a') (hres : ∀ x y, res x y → res' x y) : a.Sim C res' a' := by
  intro v w spurious hv hin
  obtain ⟨hd, hx⟩ := h v w spurious hv hin
  exact ⟨hd, hres _ _ hx⟩

theorem Prog.Sim.again {σ τ α β : Type} {res : α → β → Prop} {inv : σ → τ → Prop}
    {body : σ → Prog V N (σ ⊕ α)} {body' : τ → Prog W N (τ ⊕ β)}
    (hbody : ∀ s t, inv s t → (body s).Sim C (Sum.LiftRel inv res) (body' t)) {x : σ ⊕ α} {y : τ ⊕ β}
    (h : Sum.LiftRel inv res x y) : (again body x).Sim C res (again body' y) := by
  cases h with
  | inl hs => exact .loop inv hs hbody
  | inr ha => exact .ret ha

theorem Prog.Sim.head {α β : Type} {res : α → β → Prop} {p : Prog V N α} {q : Prog W N β}
    (h : p.Sim C res q) : Head.Sim C res p.head q.head := by
  induction h with
  | ret h => exact .ret h
  | access h => exact .access (h.mono fun _ _ hx => .ret hx)
  | bind mid hp hk ihp ihk =>
    simp only [Prog.head]
    revert ihp
    generalize Prog.head _ = x
    generalize Prog.head _ = y
    rintro (hx | hx | hx)
    · exact ihk _ _ hx
    · exact .access (hx.mono fun _ _ hx => .bind mid hx hk)
    · exact .spin (.bind mid hx hk)
  | loop inv hs hbody ih =>
    have ihs := ih _ _ hs
    simp only [Prog.head]
    revert ihs
    generalize Prog.head _ = x
    generalize Prog.head _ = y
    rintro (hx | hx | hx)
    · cases hx with
      | inl hs => exact .spin (.loop inv hs hbody)
      | inr ha => exact .ret ha
    · exact .access (hx.mono fun _ _ hx => .bind _ hx fun _ _ => .again hbody)
    · exact .spin (.bind _ hx fun _ _ => .again hbody)

/-! ## Rules -/

theorem Prog.Sim.load {res : V → W → Prop} {n : N} (h : ∀ v w, C.rel v w → res v w) :
    (Prog.access n .load).Sim C res (Prog.access n .load) :=
  .access fun v w _ hv _ => ⟨.load hv, h v w hv⟩

/-- Two iterations of a loop that decide alike. -/
inductive Attempt.Sim (C : Coupling V W) {α β : Type} (res : α → β → Prop) : Attempt V α → Attempt W β → Prop
  | stop {a : α} {b : β} (h : res a b) : Sim C res (.stop a) (.stop b)
  | write {new : V} {new' : W} {a : α} {b : β} (h : C.inRange new' → C.rel new new' ∧ res a b) :
      Sim C res (.write new a) (.write new' b)

end programs

/-! ## Pools -/

/-- Events of one thread and one call with related requests, deeds and responses. -/
inductive Event.Rel (C : Coupling V W) (ask : Req → Req' → Prop) (answer : R → R' → Prop) :
    Event ι V N Req R → Event ι W N Req' R' → Prop
  | call {i n req req'} (h : ask req req') : Rel C ask answer (.call i n req) (.call i n req')
  | did {i n site d e} (h : d.Rel C.rel e) : Rel C ask answer (.did i n site d) (.did i n site e)
  | ret {i n req req' r r'} (h : ask req req') (h' : answer r r') :
      Rel C ask answer (.ret i n req r) (.ret i n req' r')

/-- What the accesses of a trace did. -/
def deeds (trace : List (Event ι V N Req R)) : List (Deed V) :=
  trace.filterMap fun
    | .did _ _ _ d => some d
    | _ => none

@[simp] theorem deeds_append (l l' : List (Event ι V N Req R)) : deeds (l ++ l') = deeds l ++ deeds l' :=
  List.filterMap_append ..

section pools
variable [DecidableEq ι] [DecidableEq V] [DecidableEq W]

/-- Threads with the same calls to come, at the same place in their call. -/
structure Thread.Sim (C : Coupling V W) (ask : Req → Req' → Prop) (answer : R → R' → Prop)
    (t : Thread V N Req R) (t' : Thread W N Req' R') : Prop where
  todo : List.Forall₂ ask t.todo t'.todo
  made : t.made = t'.made
  cur : Option.Rel (fun x y => ask x.1 y.1 ∧ x.2.Sim C answer y.2) t.cur t'.cur

structure Pool.Sim (C : Coupling V W) (ask : Req → Req' → Prop) (answer : R → R' → Prop)
    (c : Pool ι V N Req R) (c' : Pool ι W N Req' R') : Prop where
  cell : C.rel c.cell c'.cell
  threads : ∀ i, (c.threads i).Sim C ask answer (c'.threads i)
  trace : List.Forall₂ (Event.Rel C ask answer) c.trace c'.trace

variable {ask : Req → Req' → Prop} {answer : R → R' → Prop} {c : Pool ι V N Req R}
  {c' : Pool ι W N Req' R'}

theorem Pool.Sim.settle (h : c.Sim C ask answer c') (i : ι) {todo : List Req} {todo' : List Req'} (made : ℕ)
    {req : Req} {req' : Req'} {p : Prog V N R} {q : Prog W N R'} (htodo : List.Forall₂ ask todo todo')
    (hreq : ask req req') (hp : p.Sim C answer q) :
    (c.settle i todo made req p).Sim C ask answer (c'.settle i todo' made req' q) := by
  have hthreads : ∀ {t t'}, Thread.Sim C ask answer t t' →
      ∀ j, (Function.update c.threads i t j).Sim C ask answer (Function.update c'.threads i t' j) := by
    intro t t' ht j
    by_cases hji : j = i
    · subst hji
      simpa using ht
    · simpa [hji] using h.threads j
  have hhead := hp.head
  rcases c.settle_cases i todo made req p with ⟨r, hr, he⟩ | ⟨hr, he⟩ <;>
    rcases c'.settle_cases i todo' made req' q with ⟨r', hr', he'⟩ | ⟨hr', he'⟩
  · rw [hr, hr'] at hhead
    cases hhead with
    | ret hres =>
      rw [he, he']
      exact ⟨h.cell, hthreads ⟨htodo, rfl, .none⟩, List.rel_append h.trace (.cons (.ret hreq hres) .nil)⟩
  · rw [hr] at hhead
    generalize q.head = y at hr' hhead
    cases hhead
    exact absurd rfl (hr' _)
  · rw [hr'] at hhead
    generalize p.head = x at hr hhead
    cases hhead
    exact absurd rfl (hr _)
  · rw [he, he']
    exact ⟨h.cell, hthreads ⟨htodo, rfl, .some ⟨hreq, hp⟩⟩, h.trace⟩

omit [DecidableEq V] in
theorem deeds_settle (c : Pool ι V N Req R) (i : ι) (todo : List Req) (made : ℕ) (req : Req) (p : Prog V N R) :
    deeds (c.settle i todo made req p).trace = deeds c.trace := by
  rcases c.settle_cases i todo made req p with ⟨r, -, he⟩ | ⟨-, he⟩ <;> rw [he]
  rw [deeds_append]
  exact List.append_nil _

/-- What the accesses leave in the second cell is in range. -/
def AllInRange (C : Coupling V W) (trace : List (Event ι W N Req' R')) : Prop :=
  ∀ d ∈ deeds trace, C.inRange d.after

variable {code : Req → Prog V N R} {code' : Req' → Prog W N R'}

/-- One turn. -/
theorem Pool.Sim.turn (hcode : ∀ req req', ask req req' → (code req).Sim C answer (code' req'))
    (h : c.Sim C ask answer c') (i : ι) (spurious : Bool)
    (hin : AllInRange C (c'.turn code' i spurious).trace) :
    (c.turn code i spurious).Sim C ask answer (c'.turn code' i spurious) := by
  obtain ⟨htodo, hmade, hcur⟩ := h.threads i
  unfold Pool.turn at hin ⊢
  simp only at hin ⊢
  rw [← hmade] at hin ⊢
  generalize (c.threads i).made = made at *
  revert hcur htodo
  generalize (c.threads i).todo = todo
  generalize (c'.threads i).todo = todo' at hin ⊢
  generalize (c.threads i).cur = cur
  generalize (c'.threads i).cur = cur' at hin ⊢
  intro htodo hcur
  cases hcur with
  | none =>
    cases htodo with
    | nil => exact h
    | cons hreq hrest =>
      rename_i req req' rest rest'
      have hcall : Pool.Sim C ask answer { c with trace := c.trace ++ [.call i made req] }
          { c' with trace := c'.trace ++ [.call i made req'] } :=
        ⟨h.cell, h.threads, List.rel_append h.trace (.cons (.call hreq) .nil)⟩
      exact hcall.settle i made hrest hreq (hcode _ _ hreq)
  | some hrun =>
    rename_i x y
    obtain ⟨req, p⟩ := x
    obtain ⟨req', q⟩ := y
    obtain ⟨hreq, hp⟩ := hrun
    have hhead := hp.head
    simp only at hreq hp hhead hin ⊢
    revert hhead hin
    generalize p.head = x
    generalize q.head = y
    rintro hin (hx | hx | hx)
    · exact h.settle i made htodo hreq hp
    · rename_i site a a' k k'
      have hafter : C.inRange (a'.perform spurious c'.cell).2.after := by
        refine hin _ ?_
        rw [deeds_settle, deeds_append]
        exact List.mem_append_right _ List.mem_cons_self
      obtain ⟨hdeed, hres⟩ := hx _ _ spurious h.cell hafter
      have hdid : Pool.Sim C ask answer
          ⟨(a.perform spurious c.cell).2.after, c.threads,
            c.trace ++ [.did i made site (a.perform spurious c.cell).2]⟩
          ⟨(a'.perform spurious c'.cell).2.after, c'.threads,
            c'.trace ++ [.did i made site (a'.perform spurious c'.cell).2]⟩ :=
        ⟨hdeed.after, h.threads, List.rel_append h.trace (.cons (.did hdeed) .nil)⟩
      exact hdid.settle i made htodo hreq hres
    · exact h.settle i made htodo hreq hx

end pools
end Cell
