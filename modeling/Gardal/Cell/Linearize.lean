import Gardal.Cell.Logic
/-!
# Linearizability of calls with one point of effect

`onePoint spec` is the protocol of a call that changes the cell at most once and whose answer and
change together are what `spec` gives for the cell value it met at one of its accesses. Calls that
keep to it linearize (`returns_replay`): the answers and the final cell of any schedule are those of
`spec` run over the calls one after another, in the order in which they returned. That order keeps
every call after the calls that had returned before it started (`returns_order`).
-/
namespace Cell
variable {ι V N Req R α : Type}

def onePoint (spec : Req → V → R × V) : Protocol V N (Req × Option R) where
  knows _ _ := True
  move g _ d g' := g.2 = none ∧ g'.1 = g.1 ∧
    match g'.2 with
    | none => d.after = d.before
    | some r => spec g.1 d.before = (r, d.after)
  learns _ _ := trivial
  stable _ _ _ := trivial

/-- `code` answers `req` as `spec` does, at one point. -/
def OnePoint [DecidableEq V] (spec : Req → V → R × V) (code : Prog V N R) (req : Req) : Prop :=
  code.wp (onePoint spec) (fun r g => g = (req, some r)) (req, none)

theorem onePoint_casLoop [DecidableEq V] {spec : Req → V → R × V} {req : Req} {n : N}
    {attempt : V → Attempt V α} {f : α → R}
    (h : ∀ v, spec req v = (f ((attempt v).outcome v).1, ((attempt v).outcome v).2)) :
    (casLoop n attempt).wp (onePoint spec) (fun a g => g = (req, some (f a))) (req, none) := by
  apply casLoop_wp
  intro v _
  have hv := h v
  cases ha : attempt v with
  | stop a =>
    intro d hd hw
    refine ⟨(req, some (f a)), ⟨rfl, rfl, ?_⟩, rfl⟩
    simpa [ha, hd, d.after_eq_before hw] using hv
  | write new a =>
    refine ⟨⟨(req, some (f a)), ⟨rfl, rfl, ?_⟩, rfl⟩, fun d _ hw => ⟨rfl, rfl, ?_⟩⟩
    · simpa [ha] using hv
    · exact d.after_eq_before hw

theorem onePoint_atomic [DecidableEq V] (spec : Req → V → R × V) (req : Req) (n : N) :
    OnePoint spec (.access n (.atomic (spec req))) req :=
  fun v _ _ => ⟨(req, some (spec req v).1), ⟨rfl, rfl, rfl⟩, rfl⟩

/-- The calls one after another. -/
def replay (spec : Req → V → R × V) : List Req → V → List R × V
  | [], v => ([], v)
  | req :: reqs, v =>
    let (r, w) := spec req v
    let (rs, u) := replay spec reqs w
    (r :: rs, u)

theorem replay_snoc (spec : Req → V → R × V) (reqs : List Req) (req : Req) {v w u : V} {rs : List R}
    {r : R} (hs : spec req w = (r, u)) (h : replay spec reqs v = (rs, w)) :
    replay spec (reqs ++ [req]) v = (rs ++ [r], u) := by
  induction reqs generalizing v rs with
  | nil =>
    obtain ⟨rfl, rfl⟩ := Prod.mk.inj h
    simp [replay, hs]
  | cons q qs ih =>
    simp only [replay] at h
    obtain ⟨rfl, rfl⟩ := Prod.mk.inj h
    have hq := ih (v := (spec q v).2) rfl
    simp [replay, hq]

theorem replay_length (spec : Req → V → R × V) (reqs : List Req) (v : V) :
    (replay spec reqs v).1.length = reqs.length := by
  induction reqs generalizing v with
  | nil => rfl
  | cons req reqs ih => simp [replay, ih]

/-- A call still going on has had no effect yet, so the calls that have returned account for the
cell. -/
theorem run_replay [DecidableEq ι] {spec : Req → V → R × V} {v₀ v : V}
    {tr : List (Event ι V N Req R)} {γ : ι → Option (Req × Req × Option R)}
    (h : (onePoint spec).Run (fun req => (req, none)) (fun req r g => g = (req, some r)) v₀ tr v γ) :
    replay spec ((returns tr).map (·.request)) v₀ = ((returns tr).map (·.response), v) ∧
    ∀ i req g, γ i = some (req, g) → g = (req, none) := by
  induction h with
  | init => exact ⟨rfl, by simp⟩
  | @call tr v γ i n req evs s _ hi hs ih =>
    obtain ⟨hr, hγ⟩ := ih
    cases hs with
    | goesOn => exact ⟨by simpa using hr, forall_update i hγ (by rintro _ _ ⟨⟩; rfl)⟩
    | returns hp => simp at hp
  | @did tr v γ i n req g site d g' evs s _ hi hd hk hm hs ih =>
    obtain ⟨hr, hγ⟩ := ih
    obtain rfl := hγ i req g hi
    obtain ⟨-, h1, h2⟩ := hm
    obtain ⟨req', o⟩ := g'
    obtain rfl : req' = req := h1
    cases hs with
    | goesOn hl =>
      obtain ⟨_, _, _, hn, -⟩ := hl
      obtain rfl : o = none := hn
      simp only at h2
      refine ⟨?_, forall_update i hγ (by rintro _ _ ⟨⟩; rfl)⟩
      rw [h2, hd]
      simpa using hr
    | @returns r hp =>
      obtain rfl : o = some r := by simpa using hp
      simp only [hd] at h2
      refine ⟨?_, forall_update i hγ (by simp)⟩
      have hlast := replay_snoc spec _ req' h2 hr
      simpa using hlast

theorem returns_replay [DecidableEq ι] [DecidableEq V] {spec : Req → V → R × V}
    {code : Req → Prog V N R} {calls : ι → List Req}
    (hcode : ∀ i, ∀ req ∈ calls i, OnePoint spec (code req) req) (v₀ : V) (sched : List (ι × Bool)) :
    let c := Pool.run code sched (.init v₀ calls)
    replay spec ((returns c.trace).map (·.request)) v₀ =
      ((returns c.trace).map (·.response), c.cell) := by
  obtain ⟨γ, hrun, -⟩ := adequacy (onePoint spec) (fun req => (req, none))
    (fun req r g => g = (req, some r)) (fun _ _ => trivial) hcode v₀ sched
  exact (run_replay hrun).1

/-! ## The order of the returns is consistent with real time -/

def Returned.callEvent (x : Returned ι Req R) : Event ι V N Req R := .call x.thread x.index x.request

def Returned.retEvent (x : Returned ι Req R) : Event ι V N Req R :=
  .ret x.thread x.index x.request x.response

theorem pair_sublist_append {a b : α} {l l' : List α} :
    [a, b].Sublist (l ++ l') ↔
      [a, b].Sublist l ∨ (a ∈ l ∧ b ∈ l') ∨ [a, b].Sublist l' := by
  constructor
  · intro h
    obtain ⟨u, w, he, hu, hw⟩ := List.sublist_append_iff.1 h
    match u, he with
    | [], he => obtain rfl : w = [a, b] := by simpa using he.symm
                exact Or.inr (Or.inr hw)
    | [x], he =>
      obtain ⟨rfl, rfl⟩ : a = x ∧ [b] = w := by simpa using he
      exact Or.inr (Or.inl ⟨List.singleton_sublist.1 hu, List.singleton_sublist.1 hw⟩)
    | [x, y], he =>
      obtain ⟨rfl, rfl, -⟩ : a = x ∧ b = y ∧ w = [] := by simpa using he
      exact Or.inl hu
    | _ :: _ :: _ :: _, he => simp at he
  · rintro (h | ⟨ha, hb⟩ | h)
    · exact h.trans (List.sublist_append_left l l')
    · exact (List.singleton_sublist.2 ha).append (List.singleton_sublist.2 hb)
    · exact h.trans (List.sublist_append_right l l')

theorem exists_split_of_pair {a b : α} {l : List α} (h : [a, b].Sublist l) :
    ∃ x y, l = x ++ y ∧ a ∈ x ∧ b ∈ y := by
  have h' : ([a] ++ [b]).Sublist l := h
  obtain ⟨x, y, he, ha, hb⟩ := List.append_sublist_iff.1 h'
  exact ⟨x, y, he, List.singleton_sublist.1 ha, List.singleton_sublist.1 hb⟩

/-- **Real time.** A call that returned before another one was made comes before it in the order of
the returns. -/
theorem returns_order [DecidableEq ι] [DecidableEq V] {code : Req → Prog V N R} {calls : ι → List Req}
    {v₀ : V} {sched : List (ι × Bool)} {a b : Returned ι Req R} :
    let c : Pool ι V N Req R := Pool.run code sched (.init v₀ calls)
    b ∈ returns c.trace → [a.retEvent, b.callEvent].Sublist c.trace → [a, b].Sublist (returns c.trace) := by
  intro c hb hab
  obtain ⟨x, y, he, ha, hcall⟩ := exists_split_of_pair hab
  have hret : b.retEvent ∈ c.trace := by
    obtain ⟨e, hmem, hre⟩ := List.mem_filterMap.1 hb
    cases e <;> simp [Event.returned] at hre
    subst hre; exact hmem
  have hby : b.retEvent ∈ y := by
    rw [he, List.mem_append] at hret
    apply hret.resolve_left
    intro hx
    -- It would return before it was made.
    have hsub : [b.retEvent, b.callEvent].Sublist c.trace := by
      rw [he]
      exact pair_sublist_append.2 (Or.inr (Or.inl ⟨hx, hcall⟩))
    have hlt := List.pairwise_pair.1 ((run_before code v₀ calls sched).sublist hsub) rfl
    exact absurd (hlt.2 (.inl rfl)) (Nat.lt_irrefl _)
  have hpair : [a.retEvent, b.retEvent].Sublist c.trace := by
    rw [he]; exact pair_sublist_append.2 (Or.inr (Or.inl ⟨ha, hby⟩))
  exact hpair.filterMap Event.returned

end Cell
