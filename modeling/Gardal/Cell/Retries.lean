import Gardal.Cell.Logic
import Mathlib.Algebra.Order.Group.Nat
/-!
# Why an exchange fails

The exchanges of a compare-and-exchange loop expect the value that the thread has read last, be it by the
load the loop begins with or by the exchange that failed before. So when one fails and it is not
spurious, the cell has been written since that read, and not by the thread itself: it made no other
access in between (`Overtaken`). Between two accesses of a thread there is at most one such failure, so
no write accounts for two failures of one thread (`retries_le`).
-/
namespace Cell

variable {ι V N Req R : Type}

/-- Since its last access, one that read `v`, thread `i` has been overtaken: another thread has written. -/
def Overtaken (i : ι) (trace : List (Event ι V N Req R)) (v : V) : Prop :=
  ∃ before n site d mid, trace = before ++ .did i n site d :: mid ∧ d.writes = false ∧ d.before = v ∧
    (∀ e ∈ mid, e.thread ≠ i) ∧ ∃ e ∈ mid, e.writes = true

/-- Every exchange that fails against another value than it expects has been overtaken. -/
def RetriesOvertaken (trace : List (Event ι V N Req R)) : Prop :=
  ∀ before after i n site cur actual, trace = before ++ .did i n site (.fail cur actual) :: after →
    cur ≠ actual → Overtaken i before cur

/-! ## The protocol -/

/-- The ghost state is the value read last, until the call writes. -/
inductive ReadMove : Option V → Deed V → Option V → Prop
  | load {g : Option V} (v : V) : ReadMove g (.load v) (some v)
  | fail (cur actual : V) : ReadMove (some cur) (.fail cur actual) (some actual)
  | exchange {g : Option V} (old new : V) : ReadMove g (.exchange old new) none
  | store {g : Option V} (old new : V) : ReadMove g (.store old new) none

def readProtocol (V N : Type) : Protocol V N (Option V) where
  knows _ _ := True
  move g _ d g' := ReadMove g d g'
  learns _ _ := trivial
  stable _ _ _ := trivial

section
variable [DecidableEq V] {α : Type} {g : Option V}

theorem casLoop_reads (n : N) (attempt : V → Attempt V α) :
    (casLoop n attempt).wp (readProtocol V N) (fun _ _ => True) g := by
  have hread : ∀ v, Attempt.Read attempt (fun _ _ => True) some v (some v) := by
    intro v
    unfold Attempt.Read
    split
    · trivial
    · rfl
  refine casLoop_wp_read some ?_ ?_ ?_
  · intro v _
    exact ⟨some v, .load v, hread v⟩
  · intro old new a _ v _
    exact ⟨some v, .fail old v, hread v⟩
  · intro old new a _ _
    exact ⟨none, .exchange old new, trivial⟩

theorem load_reads (n : N) :
    (Prog.access n .load).wp (readProtocol V N) (fun _ _ => True) g :=
  Prog.wp_load fun v _ => ⟨some v, .load v, trivial⟩

end

/-! ## Every run -/

section
variable [DecidableEq ι] {i : ι} {tr : List (Event ι V N Req R)} {v w old : V} {e : Event ι V N Req R}

/-- Thread `i` has read `old` and made no access since; either that is still what is in the cell, now `v`,
or another thread has written. -/
def ReadOf (i : ι) (tr : List (Event ι V N Req R)) (v old : V) : Prop :=
  ∃ before n site d mid, tr = before ++ .did i n site d :: mid ∧ d.writes = false ∧ d.before = old ∧
    (∀ e ∈ mid, e.thread ≠ i) ∧ (v = old ∨ ∃ e ∈ mid, e.writes = true)

omit [DecidableEq ι] in
theorem ReadOf.other (h : ReadOf i tr v old) (he : e.thread ≠ i) (hv : e.writes = false → w = v) :
    ReadOf i (tr ++ [e]) w old := by
  obtain ⟨before, n, site, d, mid, rfl, hw, hd, hmid, hcell⟩ := h
  refine ⟨before, n, site, d, mid ++ [e], by simp, hw, hd, ?_, ?_⟩
  · intro e' hmem
    rcases List.mem_append.1 hmem with hmem | hmem
    · exact hmid e' hmem
    · obtain rfl := List.mem_singleton.1 hmem
      exact he
  · cases hwrite : e.writes with
    | true => exact .inr ⟨e, by simp, hwrite⟩
    | false =>
      rw [hv hwrite]
      refine hcell.imp_right ?_
      rintro ⟨e', hmem, hw'⟩
      exact ⟨e', by simp [hmem], hw'⟩

omit [DecidableEq ι] in
theorem RetriesOvertaken.concat (h : RetriesOvertaken tr)
    (he : ∀ j n site cur actual, e = .did j n site (.fail cur actual) → cur ≠ actual → Overtaken j tr cur) :
    RetriesOvertaken (tr ++ [e]) := by
  intro before after j n site cur actual hsplit hne
  rcases concat_eq_append_cons hsplit with ⟨rfl, heq, -⟩ | ⟨after', rfl, htr⟩
  · exact he j n site cur actual heq.symm hne
  · exact h before after' j n site cur actual htr hne

/-- One more event, of thread `i`, which has read what `hown` says when it is over. -/
theorem readOf_update {γ : ι → Option (Req × Option V)} {s : Option (Req × Option V)}
    (hread : ∀ j req old, γ j = some (req, some old) → ReadOf j tr v old) (hi : e.thread = i)
    (hv : e.writes = false → w = v) (hown : ∀ req old, s = some (req, some old) → ReadOf i (tr ++ [e]) w old) :
    ∀ j req old, Function.update γ i s j = some (req, some old) → ReadOf j (tr ++ [e]) w old :=
  (Function.forall_update_iff γ fun j s => ∀ req old, s = some (req, some old) → ReadOf j (tr ++ [e]) w old).2
    ⟨hown, fun j hji req old hj => (hread j req old hj).other (hi.trans_ne hji.symm) hv⟩

/-- What holds in a ghost run: a thread that is to exchange has read what it expects. -/
theorem run_retriesOvertaken {v₀ : V} {γ : ι → Option (Req × Option V)}
    (h : (readProtocol V N).Run (R := R) (fun _ => none) (fun _ _ _ => True) v₀ tr v γ) :
    (∀ i req old, γ i = some (req, some old) → ReadOf i tr v old) ∧ RetriesOvertaken tr := by
  refine h.events (fun tr v γ =>
    (∀ i req old, γ i = some (req, some old) → ReadOf i tr v old) ∧ RetriesOvertaken tr) ?_ ?_ ?_ ?_
  · constructor
    · rintro i req old ⟨⟩
    · intro before after i n site cur actual hsplit
      simp at hsplit
  · rintro tr v γ i n req ⟨hread, hretries⟩ hi
    refine ⟨?_, hretries.concat (by rintro _ _ _ _ _ ⟨⟩)⟩
    exact readOf_update hread rfl (fun _ => rfl) (by rintro _ _ ⟨⟩)
  · rintro tr v γ i n req g site d g' ⟨hread, hretries⟩ hi hd - hm
    constructor
    · refine readOf_update hread rfl (fun hw => (Deed.after_eq_before hw).trans hd) ?_
      -- A read is the last access of its own thread.
      rintro req' old hj
      rw [Option.some.injEq, Prod.mk.injEq] at hj
      obtain ⟨-, rfl⟩ := hj
      cases hm with
      | load x => exact ⟨tr, n, site, _, [], rfl, rfl, rfl, by simp, .inl rfl⟩
      | fail cur actual => exact ⟨tr, n, site, _, [], rfl, rfl, rfl, by simp, .inl rfl⟩
    · refine hretries.concat ?_
      rintro j n' site' cur actual heq hne
      cases heq
      cases hm with
      | fail _ _ =>
        obtain ⟨before, m, site₀, d, mid, htr, hw, hcur, hmid, hcell⟩ := hread i req cur hi
        have hv : v ≠ cur := by
          rw [← hd]
          exact hne.symm
        exact ⟨before, m, site₀, d, mid, htr, hw, hcur, hmid, hcell.resolve_left hv⟩
  · rintro tr v γ i n req g r ⟨hread, hretries⟩ hi -
    refine ⟨?_, hretries.concat (by rintro _ _ _ _ _ ⟨⟩)⟩
    exact readOf_update hread rfl (fun _ => rfl) (by rintro _ _ ⟨⟩)

variable [DecidableEq V]

/-- **Every retry is spurious or overtaken**, whatever the calls, if they keep to the protocol. -/
theorem retriesOvertaken {code : Req → Prog V N R} {calls : ι → List Req}
    (hcode : ∀ i, ∀ req ∈ calls i, (code req).wp (readProtocol V N) (fun _ _ => True) none) (v₀ : V)
    (sched : List (ι × Bool)) : RetriesOvertaken (Pool.run code sched (.init v₀ calls)).trace := by
  obtain ⟨γ, hrun, -⟩ := adequacy (readProtocol V N) (fun _ => none) (fun _ _ _ => True)
    (fun _ _ => trivial) hcode v₀ sched
  exact (run_retriesOvertaken hrun).2

end

/-! ## Counting them -/

section
variable [DecidableEq ι] [DecidableEq V]

/-- An exchange of thread `i` that fails against another value than it expects. -/
def Event.isRetry (i : ι) : Event ι V N Req R → Bool
  | .did j _ _ (.fail cur actual) => j = i ∧ cur ≠ actual
  | _ => false

/-- Another thread writes. -/
def Event.isForeignWrite (i : ι) (e : Event ι V N Req R) : Bool := e.thread ≠ i ∧ e.writes = true

theorem Event.of_isRetry {i : ι} {e : Event ι V N Req R} (h : e.isRetry i = true) :
    ∃ n site cur actual, e = .did i n site (.fail cur actual) ∧ cur ≠ actual := by
  cases e with
  | did j n site d =>
    cases d with
    | fail cur actual =>
      obtain ⟨rfl, hne⟩ := of_decide_eq_true h
      exact ⟨n, site, cur, actual, rfl, hne⟩
    | _ => cases h
  | _ => cases h

/-- A stretch that another thread writes in and thread `i` does nothing in. -/
theorem count_of_foreign {i : ι} {mid : List (Event ι V N Req R)} (hmid : ∀ e ∈ mid, e.thread ≠ i)
    (hw : ∃ e ∈ mid, e.writes = true) :
    mid.countP (Event.isRetry i) = 0 ∧ 1 ≤ mid.countP (Event.isForeignWrite i) := by
  constructor
  · rw [List.countP_eq_zero]
    intro e hmem hr
    obtain ⟨n, site, cur, actual, rfl, -⟩ := Event.of_isRetry hr
    exact hmid _ hmem rfl
  · obtain ⟨e, hmem, hwrites⟩ := hw
    rw [Nat.one_le_iff_ne_zero, ne_eq, List.countP_eq_zero]
    intro hnone
    exact hnone e hmem (by simp [Event.isForeignWrite, hmid e hmem, hwrites])

omit [DecidableEq ι] [DecidableEq V] in
/-- A thread that has been overtaken has been since any earlier event of its own. -/
theorem Overtaken.since {i : ι} {pre mid : List (Event ι V N Req R)} {c : Event ι V N Req R} {v : V}
    (h : Overtaken i (pre ++ c :: mid) v) (hc : c.thread = i) :
    ∃ x mid₀, mid = x ++ mid₀ ∧ (∀ e ∈ mid₀, e.thread ≠ i) ∧ ∃ e ∈ mid₀, e.writes = true := by
  obtain ⟨before, n, site, d, mid₀, hsplit, -, -, hmid₀, hw⟩ := h
  have hsplit' : (pre ++ [c]) ++ mid = (before ++ [.did i n site d]) ++ mid₀ := by simpa using hsplit
  rcases List.append_eq_append_iff.1 hsplit' with ⟨x, -, rfl⟩ | ⟨x, hx, rfl⟩
  · exact ⟨x, mid₀, rfl, hmid₀, hw⟩
  · rcases List.eq_nil_or_concat' x with rfl | ⟨x, y, rfl⟩
    · exact ⟨[], mid, rfl, hmid₀, hw⟩
    · -- The event `c` would be among those in which the thread does nothing.
      have hx' : pre ++ [c] = (before ++ [.did i n site d] ++ x) ++ [y] := by simpa using hx
      obtain ⟨-, hy⟩ := List.append_inj' hx' rfl
      obtain rfl : c = y := by simpa using hy
      exact absurd hc (hmid₀ c (by simp))

/-- **No write accounts for two retries.** From an event `c` of thread `i` on, its retries are at most as
many as the writes of the others. -/
theorem retries_le {i : ι} {trace pre : List (Event ι V N Req R)} (h : RetriesOvertaken trace)
    {c : Event ι V N Req R} (hc : c.thread = i) (mid : List (Event ι V N Req R)) :
    ∀ post, trace = pre ++ c :: (mid ++ post) →
      mid.countP (Event.isRetry i) ≤ mid.countP (Event.isForeignWrite i) := by
  induction hlen : mid.length using Nat.strong_induction_on generalizing mid with
  | _ len ih =>
    intro post htrace
    rcases List.eq_nil_or_concat' mid with rfl | ⟨mid, e, rfl⟩
    · simp
    rw [List.length_append, List.length_singleton] at hlen
    rw [List.countP_append, List.countP_append]
    by_cases hr : e.isRetry i = true
    · -- What comes before the retry ends with a stretch that has a write for it and no other retry.
      obtain ⟨n, site, cur, actual, rfl, hne⟩ := Event.of_isRetry hr
      have hover := h (pre ++ c :: mid) post i n site cur actual (by simp [htrace]) hne
      obtain ⟨x, mid₀, rfl, hmid₀, hw⟩ := hover.since hc
      have hx := ih x.length (by simp at hlen; omega) x rfl (mid₀ ++ .did i n site (.fail cur actual) :: post)
        (by simp [htrace])
      obtain ⟨hnone, hone⟩ := count_of_foreign hmid₀ hw
      have hone' : ∀ e : Event ι V N Req R, [e].countP (Event.isRetry i) ≤ 1 :=
        fun e => List.countP_le_length
      have hlast := hone' (.did i n site (.fail cur actual))
      rw [List.countP_append, List.countP_append]
      omega
    · have hmid := ih mid.length (by omega) mid rfl (e :: post) (by simp [htrace])
      have hlast : [e].countP (Event.isRetry i) = 0 := by simp [hr]
      omega

end

end Cell
