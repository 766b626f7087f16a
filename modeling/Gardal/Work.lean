import Gardal.Cell.Progress
import Mathlib.Algebra.Order.Ring.Rat
/-!
# What a borrower has left to do

A borrower drains the bucket at its reading of the clock, `now`, until it has enough or the bucket is dry, and
then takes the rest as debt. A drain that is not enough leaves the zero time at `now`, where the bucket is dry
for the borrower, until somebody lowers it. So what a call has left depends on the zero time, and whoever lowers
it adds two accesses, a load and an exchange, to every borrower there is (`workLeft`).

`value` reads the zero time off the cell, and `I` is what the cell always satisfies.
-/
namespace Gardal
open Cell

variable {V N : Type}

/-- Where a job is; `k` is what it may need when the borrower at work in it is done. -/
inductive Work
  | steps (k : ℕ)
  /-- Before a drain at the reading `now`. -/
  | drain (now : ℚ) (k : ℕ)
  /-- Inside one, with something to take. -/
  | inside (now : ℚ) (k : ℕ)

structure Worker where
  work : Work
  /-- How often it may lower the zero time. -/
  lowers : ℕ

inductive WorkMove (value : V → ℚ) : Worker → Deed V → Worker → Prop
  | retry {g d} (h : d.fails = true) : WorkMove value g d g
  | step {j k l d} (hlt : j < k) (hle : value d.before ≤ value d.after) :
      WorkMove value ⟨.steps k, l⟩ d ⟨.steps j, l⟩
  | lower {j k l d} (hlt : j < k) : WorkMove value ⟨.steps k, l + 1⟩ d ⟨.steps j, l⟩
  | enter {now k l v} : WorkMove value ⟨.steps (k + 6), l⟩ (.load v) ⟨.inside now k, l⟩
  | empty {now k l cur v} : WorkMove value ⟨.inside now k, l⟩ (.fail cur v) ⟨.steps (k + 3), l⟩
  | partly {now k l v w} (h : value v < now) (hw : value w = now) :
      WorkMove value ⟨.inside now k, l⟩ (.exchange v w) ⟨.drain now k, l⟩
  | fully {now k l v w} (h : value v ≤ value w) :
      WorkMove value ⟨.inside now k, l⟩ (.exchange v w) ⟨.steps k, l⟩
  /-- The last drain lowers the zero time, if that is not exact. -/
  | roughly {now k l v w} : WorkMove value ⟨.inside now k, l + 1⟩ (.exchange v w) ⟨.steps k, l⟩
  | again {now k l v} : WorkMove value ⟨.drain now k, l⟩ (.load v) ⟨.inside now k, l⟩
  | dry {now k l v} : WorkMove value ⟨.drain now k, l⟩ (.load v) ⟨.steps (k + 3), l⟩

def workProtocol (N : Type) (value : V → ℚ) (I : V → Prop) : Protocol V N Worker where
  knows _ v := I v
  move g _ d g' := I d.after ∧ WorkMove value g d g'
  learns h _ := h.1
  stable h _ _ := h.1

/-! ## What is left of a job -/

/-- A drain that finds something costs a load and an exchange that one that finds nothing does not. -/
def gap (now v : ℚ) : ℕ := if v < now then 2 else 0

theorem gap_le_two (now v : ℚ) : gap now v ≤ 2 := by
  unfold gap
  split <;> omega

theorem gap_anti (now : ℚ) {v w : ℚ} (h : v ≤ w) : gap now w ≤ gap now v := by
  unfold gap
  by_cases hw : w < now
  · rw [if_pos hw, if_pos (h.trans_lt hw)]
  · rw [if_neg hw]
    exact Nat.zero_le _

def Work.left : Work → ℚ → ℕ
  | steps k, _ => k
  | drain now k, v => k + 4 + gap now v
  | inside now k, v => k + 3 + gap now v

/-- The zero time goes down. -/
def lowering (value : V → ℚ) (d : Deed V) : Bool := value d.after < value d.before

section
variable {value : V → ℚ} {I : V → Prop}

theorem lowering_of_le {d : Deed V} (h : value d.before ≤ value d.after) : lowering value d = false :=
  decide_eq_false (not_lt.2 h)

theorem after_of_fails {d : Deed V} (h : d.fails = true) : d.after = d.before := by
  cases d with
  | fail => rfl
  | _ => cases h

/-- The accesses that get through. -/
def workLeft (N : Type) (value : V → ℚ) (I : V → Prop) :
    Potential (workProtocol N value I) (fun d => !d.fails) (fun d => 2 * (lowering value d).toNat) where
  left g v := g.work.left (value v)
  own := by
    intro g n d g' hm
    have h := hm.2
    cases h with
    | retry h => simp [h, after_of_fails h]
    | step hlt | lower hlt =>
      have hq := Bool.toNat_le (!d.fails)
      simp only [Work.left]
      omega
    | @enter now k l v | @again now k l v | @dry now k l v =>
      have hgap := gap_le_two now (value v)
      simp only [Work.left, Deed.fails, Deed.before_load, Deed.after_load, Bool.not_false, Bool.toNat_true]
      omega
    | empty => simp [Work.left, Deed.fails]
    | fully | roughly =>
      simp only [Work.left, Deed.fails, Bool.not_false, Bool.toNat_true]
      omega
    | partly hlt hw => simp [Work.left, Deed.fails, gap, hlt, hw, add_comm, add_left_comm]
  other := by
    intro g n d g' h _
    have hgap : ∀ now, gap now (value d.after) ≤ gap now (value d.before) + 2 * (lowering value d).toNat := by
      intro now
      cases hl : lowering value d with
      | true => exact (gap_le_two now _).trans (Nat.le_add_left _ _)
      | false => exact (gap_anti now (not_lt.1 (of_decide_eq_false hl))).trans (Nat.le_add_right _ _)
    cases h.work with
    | steps k => exact Nat.le_add_right _ _
    | drain now k | inside now k =>
      have hgap' := hgap now
      simp only [Work.left]
      omega

/-- The accesses that lower the zero time. -/
def lowersLeft (N : Type) (value : V → ℚ) (I : V → Prop) :
    Potential (workProtocol N value I) (lowering value) (fun _ => 0) where
  left g _ := g.lowers
  own := by
    intro g n d g' hm
    have h := hm.2
    have hup : value d.before ≤ value d.after → (lowering value d).toNat = 0 :=
      fun hle => by rw [lowering_of_le hle]; rfl
    have hq := Bool.toNat_le (lowering value d)
    cases h with
    | retry h => rw [hup (by rw [after_of_fails h]), zero_add]
    | step _ hle => rw [hup hle, zero_add]
    | lower | roughly =>
      simp only
      omega
    | enter | empty | again | dry => rw [hup le_rfl, zero_add]
    | partly hlt hw => rw [hup (hlt.trans_eq hw.symm).le, zero_add]
    | fully hle => rw [hup hle, zero_add]
  other := fun _ => le_rfl

/-! ## Loops that keep to it -/

/-- The job has `k` accesses left, or more. -/
def HasLeft (k l : ℕ) (g : Worker) : Prop := ∃ j, k ≤ j ∧ g = ⟨.steps j, l⟩

variable {now : ℚ} {m l : ℕ} {g : Worker} {α : Type}

theorem HasLeft.mono (h : HasLeft m l g) {m' : ℕ} (hle : m' ≤ m) : HasLeft m' l g := by
  obtain ⟨j, hj, rfl⟩ := h
  exact ⟨j, hle.trans hj, rfl⟩

variable [DecidableEq V]

theorem done_works {p : Prog V N α} (h : p.wp (workProtocol N value I) (fun _ g' => HasLeft m l g') g) :
    p.wp (workProtocol N value I) (fun _ _ => True) g := Prog.wp_mono p (fun _ _ _ => trivial) h

theorem load_works (n : N) (h : HasLeft (m + 1) l g) :
    (Prog.access n .load).wp (workProtocol N value I) (fun _ g' => HasLeft m l g') g := by
  obtain ⟨j, hj, rfl⟩ := h
  exact Prog.wp_load fun v hv => ⟨⟨.steps m, l⟩, ⟨hv, .step (by omega) le_rfl⟩, m, le_rfl, rfl⟩

/-- A loop that lowers nothing. -/
theorem casLoop_works (n : N) {attempt : V → Attempt V α}
    (hup : ∀ v new a, I v → attempt v = .write new a → I new ∧ value v ≤ value new) (h : HasLeft (m + 2) l g) :
    (casLoop n attempt).wp (workProtocol N value I) (fun _ g' => HasLeft m l g') g := by
  obtain ⟨j, hj, rfl⟩ := h
  have hread : ∀ v, Attempt.Read attempt (fun _ g' => HasLeft m l g') (fun _ => ⟨.steps (m + 1), l⟩) v
      ⟨.steps (m + 1), l⟩ := by
    intro v
    unfold Attempt.Read
    split
    · exact ⟨m + 1, Nat.le_succ m, rfl⟩
    · rfl
  refine casLoop_wp_read (fun _ => ⟨.steps (m + 1), l⟩) ?_ ?_ ?_
  · exact fun v hv => ⟨⟨.steps (m + 1), l⟩, ⟨hv, .step (by omega) le_rfl⟩, hread v⟩
  · exact fun old new a _ v hv => ⟨⟨.steps (m + 1), l⟩, ⟨hv, .retry rfl⟩, hread v⟩
  · intro old new a ha hold
    obtain ⟨hnew, hle⟩ := hup old new a hold ha
    exact ⟨⟨.steps m, l⟩, ⟨hnew, .step (Nat.lt_succ_self m) hle⟩, m, le_rfl, rfl⟩

/-- A loop that always writes, and may lower the zero time. -/
theorem casLoop_lowers (n : N) {attempt : V → Attempt V α} (hwrite : ∀ v, ∃ new a, attempt v = .write new a)
    (hin : ∀ v new a, I v → attempt v = .write new a → I new) (h : HasLeft (m + 2) (l + 1) g) :
    (casLoop n attempt).wp (workProtocol N value I) (fun _ g' => HasLeft m l g') g := by
  obtain ⟨j, hj, rfl⟩ := h
  have hread : ∀ v, Attempt.Read attempt (fun _ g' => HasLeft m l g') (fun _ => ⟨.steps (m + 1), l + 1⟩) v
      ⟨.steps (m + 1), l + 1⟩ := by
    intro v
    obtain ⟨new, a, he⟩ := hwrite v
    simp [Attempt.Read, he]
  refine casLoop_wp_read (fun _ => ⟨.steps (m + 1), l + 1⟩) ?_ ?_ ?_
  · exact fun v hv => ⟨_, ⟨hv, .step (by omega) le_rfl⟩, hread v⟩
  · exact fun old new a _ v hv => ⟨_, ⟨hv, .retry rfl⟩, hread v⟩
  · exact fun old new a ha hold => ⟨_, ⟨hin old new a hold ha, .lower (Nat.lt_succ_self m)⟩, m, le_rfl, rfl⟩

/-- A drain, begun by a load that gets inside or finds nothing. It finds nothing, or leaves the zero time at
`now`, or takes all it was to take. -/
theorem drain_works (n : N) {attempt : V → Attempt V α} {Q : α → Worker → Prop}
    (hread : ∀ v, I v → (∃ a, attempt v = .stop a ∧ ∀ g', HasLeft (m + 3) l g' → Q a g') ∨
      ∃ new a, attempt v = .write new a ∧ I new ∧
        (value v < now ∧ value new = now ∧ Q a ⟨.drain now m, l⟩ ∨
          ∃ l', WorkMove value ⟨.inside now m, l⟩ (.exchange v new) ⟨.steps m, l'⟩ ∧
            Q a ⟨.steps m, l'⟩))
    (henter : ∀ v, WorkMove value g (.load v) ⟨.inside now m, l⟩)
    (hempty : ∀ v, ∃ g', WorkMove value g (.load v) g' ∧ HasLeft (m + 3) l g') :
    (casLoop n attempt).wp (workProtocol N value I) Q g := by
  refine casLoop_wp_read (fun _ => ⟨.inside now m, l⟩) ?_ ?_ ?_
  · intro v hv
    rcases hread v hv with ⟨a, he, hQ⟩ | ⟨new, a, he, -⟩
    · obtain ⟨g', hm, hg'⟩ := hempty v
      refine ⟨g', ⟨hv, hm⟩, ?_⟩
      simpa only [Attempt.Read, he] using hQ g' hg'
    · exact ⟨_, ⟨hv, henter v⟩, by simp [Attempt.Read, he]⟩
  · intro old new a _ v hv
    rcases hread v hv with ⟨a, he, hQ⟩ | ⟨new, a, he, -⟩
    · refine ⟨_, ⟨hv, .empty⟩, ?_⟩
      simpa only [Attempt.Read, he] using hQ _ ⟨m + 3, le_rfl, rfl⟩
    · exact ⟨_, ⟨hv, .retry rfl⟩, by simp [Attempt.Read, he]⟩
  · intro old new a hwrite hold
    rcases hread old hold with ⟨a', he, -⟩ | ⟨new', a', he, hnew, hcase⟩ <;> rw [he] at hwrite <;> cases hwrite
    rcases hcase with ⟨hlt, heq, hQ⟩ | ⟨l', hm, hQ⟩
    · exact ⟨_, ⟨hnew, .partly hlt heq⟩, hQ⟩
    · exact ⟨_, ⟨hnew, hm⟩, hQ⟩

/-! ## Every run -/

section
variable {ι Req R : Type} [Fintype ι] {work lowers : Req → ℕ} {code : Req → Prog V N R} {calls : ι → List Req}

/-- A bound on the accesses of thread `i` that get through: those of its jobs, and two for each that lowers the
zero time, of any thread. -/
def accessBound (work lowers : Req → ℕ) (calls : ι → List Req) (i : ι) : ℕ :=
  ((calls i).map work).sum + 2 * ∑ j, ((calls j).map lowers).sum

/-- **A thread with enough turns is done**, if the jobs keep to what they may do and read what they expect. -/
theorem idle_of_works [DecidableEq ι]
    (hworks : ∀ i, ∀ req ∈ calls i, (code req).wp (workProtocol N value I) (fun _ _ => True)
      ⟨.steps (work req), lowers req⟩)
    (hreads : ∀ i, ∀ req ∈ calls i, (code req).wp (readProtocol V N) (fun _ _ => True) none) {v₀ : V}
    (hI : I v₀) (sched : List (ι × Bool)) (i : ι)
    (hturns : (calls i).length + accessBound work lowers calls i + ∑ j, accessBound work lowers calls j +
      (sched.countP fun t => t.2) < sched.countP fun t => t.1 = i) :
    (Pool.run code sched (.init v₀ calls)).Idle i := by
  have hlowers : (Pool.run code sched (.init v₀ calls)).trace.countP (Event.done (lowering value)) ≤
      ∑ j, ((calls j).map lowers).sum := by
    rw [← count_done]
    refine Finset.sum_le_sum fun j _ => ?_
    have hcount := (lowersLeft N value I).count_le_of_inv (w := lowers) (fun _ _ => le_rfl)
      (fun hm _ => hm.1) (fun _ _ h => h) hworks v₀ hI sched j
    simpa only [sum_extraOf_zero, add_zero] using hcount
  have hsteps : ∀ j, (Pool.run code sched (.init v₀ calls)).trace.countP
      (Event.doneBy j fun d => !d.fails) ≤ accessBound work lowers calls j := by
    intro j
    have hcount := (workLeft N value I).count_le_of_inv (w := work) (fun _ _ => le_rfl)
      (fun hm _ => hm.1) (fun _ _ h => h) hworks v₀ hI sched j
    rw [sum_extraOf] at hcount
    exact hcount.trans (Nat.add_le_add_left (Nat.mul_le_mul_left 2 hlowers) _)
  refine idle_of_turns hreads v₀ sched i (hsteps i) ?_ hturns
  rw [← count_done]
  exact Finset.sum_le_sum fun j _ => hsteps j

end

end
end Gardal
