import Gardal.Cell.Prog
/-!
# Running alone over an atomic cell

A program that runs alone over an atomic cell meets no other thread's writes, but its weak exchanges
may still fail spuriously. `Prog.runAlone` is told which of its accesses do; it differs from
`Prog.runLocal` in nothing else, and not even in that for a `Steady` program, whose exchanges are all
made in compare-and-exchange loops: each failure costs it one more iteration and changes nothing.
-/
namespace Cell
namespace Prog
variable {V N α β σ : Type}

/-- The program run alone from the cell value and the list of which of its accesses fail spuriously (none
past the end of the list), every loop given `fuel` iterations. -/
def runAlone [DecidableEq V] {α : Type} (fuel : Nat) :
    Prog V N α → V × List Bool → Option (α × (V × List Bool))
  | ret a, c => some (a, c)
  | access _ a, (v, spurious) =>
    let (x, d) := a.perform (spurious.headD false) v
    some (x, d.after, spurious.tail)
  | bind p k, c =>
    match p.runAlone fuel c with
    | none => none
    | some (a, c') => (k a).runAlone fuel c'
  | loop body s, c => iterate (fun s' c' => (body s').runAlone fuel c') fuel s c

/-- The exchanges of the program are those of its compare-and-exchange loops. -/
inductive Steady : {α : Type} → Prog V N α → Prop
  | ret {α : Type} (a : α) : Steady (ret a)
  | load (site : N) : Steady (access site .load)
  | store (site : N) (value : V) : Steady (access site (.store value))
  | bind {α β : Type} {p : Prog V N α} {k : α → Prog V N β} (hp : Steady p) (hk : ∀ a, Steady (k a)) :
      Steady (.bind p k)
  | loop {σ α : Type} {body : σ → Prog V N (σ ⊕ α)} (s : σ) (hbody : ∀ s, Steady (body s)) :
      Steady (.loop body s)
  | casLoop {α : Type} (site : N) (attempt : V → Attempt V α) : Steady (casLoop site attempt)

/-- What each iteration keeps the loop keeps. -/
theorem iterate_sim {W : Type} {f : σ → V → Option ((σ ⊕ α) × V)} {g : σ → W → Option ((σ ⊕ α) × W)}
    {R : V → W → Prop}
    (hstep : ∀ s v w x v', R v w → f s v = some (x, v') → ∃ w', g s w = some (x, w') ∧ R v' w')
    {n m : Nat} (hnm : n ≤ m) {s : σ} {v v' : V} {w : W} {a : α} (hR : R v w)
    (h : iterate f n s v = some (a, v')) : ∃ w', iterate g m s w = some (a, w') ∧ R v' w' := by
  induction n generalizing m s v w with
  | zero => simp [iterate] at h
  | succ n ih =>
    obtain ⟨m, rfl⟩ : ∃ k, m = k + 1 := ⟨m - 1, by omega⟩
    simp only [iterate] at h ⊢
    cases hf : f s v with
    | none => simp [hf] at h
    | some y =>
      obtain ⟨x, u⟩ := y
      obtain ⟨u', hg, hR'⟩ := hstep s v w x u hR hf
      cases x with
      | inl s' =>
        simp only [hf] at h
        simp only [hg]
        exact ih (by omega) hR' h
      | inr b =>
        simp only [hf, Option.some.injEq, Prod.mk.injEq] at h
        obtain ⟨rfl, rfl⟩ := h
        exact ⟨u', by simp [hg], hR'⟩

variable [DecidableEq V]

/-- One attempt of a compare-and-exchange loop for each failure, and one that gets through. -/
theorem casBody_runAlone (site : N) {attempt : V → Attempt V α} {v w : V} {a : α}
    (ha : (attempt v).outcome v = (a, w)) (spurious : List Bool) (fuel : Nat) {m : Nat}
    (hm : spurious.length < m) :
    ∃ rest, iterate (fun s c => (casBody site attempt s).runAlone fuel c) m v (v, spurious) =
        some (a, w, rest) ∧ rest.length ≤ spurious.length := by
  induction spurious generalizing m with
  | nil =>
    refine ⟨[], ?_, Nat.le_refl _⟩
    refine iterate_done ?_ hm
    cases h : attempt v <;>
      simp_all [casBody, runAlone, Access.perform]
  | cons b spurious ih =>
    obtain ⟨m, rfl⟩ : ∃ k, m = k + 1 := ⟨m - 1, by omega⟩
    cases h : attempt v with
    | stop a' =>
      rw [h] at ha
      obtain ⟨rfl, rfl⟩ := Prod.mk.inj ha
      exact ⟨b :: spurious, iterate_done (by simp only [casBody, h, pure_eq_ret, runAlone]) (by omega),
        Nat.le_refl _⟩
    | write new a' =>
      rw [h] at ha
      obtain ⟨rfl, rfl⟩ := Prod.mk.inj ha
      cases b with
      | false =>
        exact ⟨spurious, iterate_done (by simp [casBody, h, runAlone, Access.perform]) (by omega), by simp⟩
      | true =>
        have hagain : (casBody site attempt v).runAlone fuel (v, true :: spurious) =
            some (.inl v, v, spurious) := by
          simp [casBody, h, runAlone, Access.perform]
        rw [iterate_again hagain]
        obtain ⟨rest, hrest, hlen⟩ := ih (m := m) (by simpa using hm)
        exact ⟨rest, hrest, by simp; omega⟩

theorem Steady.runAlone_of_runLocal {α : Type} {p : Prog V N α} (h : p.Steady) {fuel fuel' : Nat}
    {v w : V} {a : α} (hrun : p.runLocal fuel v = some (a, w)) (spurious : List Bool)
    (hf : fuel + spurious.length ≤ fuel') :
    ∃ rest, p.runAlone fuel' (v, spurious) = some (a, w, rest) ∧ rest.length ≤ spurious.length := by
  induction h generalizing v w spurious with
  | ret a' =>
    cases hrun
    exact ⟨spurious, rfl, Nat.le_refl _⟩
  | load site =>
    cases hrun
    exact ⟨spurious.tail, rfl, by simp⟩
  | store site value =>
    cases hrun
    exact ⟨spurious.tail, rfl, by simp⟩
  | @bind α β p k hp hk ihp ihk =>
    simp only [runLocal] at hrun
    cases hp' : p.runLocal fuel v with
    | none => simp [hp'] at hrun
    | some y =>
      obtain ⟨b, u⟩ := y
      simp only [hp'] at hrun
      obtain ⟨rest, h1, hlen⟩ := ihp hp' spurious hf
      obtain ⟨rest', h2, hlen'⟩ := ihk b hrun rest (by omega)
      exact ⟨rest', by simp only [runAlone, h1, h2], by omega⟩
  | @loop σ α body s hbody ih =>
    obtain ⟨⟨u, rest⟩, h1, rfl, hlen⟩ := iterate_sim
      (R := fun (v : V) (c : V × List Bool) => c.1 = v ∧ c.2.length ≤ spurious.length)
      (g := fun s c => (body s).runAlone fuel' c)
      (fun s v c x v' hR hs => by
        obtain ⟨u, rest⟩ := c
        obtain ⟨rfl, hle⟩ := hR
        obtain ⟨rest', h1, hlen⟩ := ih s hs rest (by simp at hle; omega)
        exact ⟨(v', rest'), h1, rfl, Nat.le_trans hlen hle⟩)
      (show fuel ≤ fuel' by omega) (w := (v, spurious)) ⟨rfl, Nat.le_refl _⟩ hrun
    exact ⟨rest, h1, hlen⟩
  | casLoop site attempt =>
    have hpos : 0 < fuel := by
      rcases Nat.eq_zero_or_pos fuel with rfl | hpos
      · simp [Cell.casLoop, runLocal, iterate] at hrun
      · exact hpos
    rw [casLoop_runLocal hpos, Option.some.injEq] at hrun
    simp only [Cell.casLoop, bind_eq_bind, runAlone, Access.perform, Deed.after_load]
    obtain ⟨rest, h1, hlen⟩ := casBody_runAlone site hrun spurious.tail fuel'
      (m := fuel') (by simp; omega)
    exact ⟨rest, h1, by simp at hlen; omega⟩

end Prog
end Cell
