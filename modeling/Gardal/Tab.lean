import Gardal.RateSafety
import Mathlib.Algebra.BigOperators.Group.Finset.Basic
import Mathlib.Algebra.Order.BigOperators.Group.Finset
/-!
# What the threads of a run have on their tabs

Handles over one zero time may have limits of their own, so what they take is counted here in the seconds
it lifts the zero time by. A call takes pieces: each drain is one, and the debt is one. The ghost state of
a call is its tab: the pieces so far, each with the reading of the clock it was taken at and the time its
caller was told to wait for.

The cell may hold the zero time in any way, and an access may lose some of it (`cost`): what lowers the zero
time puts seconds back, and arithmetic that rounds loses some. The zero time and all that was lost, by whatever
access, together never go down, whatever the interleaving. They are the virtual time of a `Ledger.History`
whose grants are the pieces (`Account`), and `ledger_bound` is what its window bound says of the calls that have
returned. `tab_bound` is the case of an exact zero time.
-/
namespace Gardal
open Cell Ledger Stretch

structure Piece where
  /-- The reading of the clock it was taken at. -/
  reading : ℚ
  secs : ℚ
  secs_nonneg : 0 ≤ secs
  /-- When the caller goes on; `none` while it has not been told. -/
  until? : Option ℚ

structure Tab where
  /-- The readings of the clock the call may take pieces at. -/
  reads : ℚ → Prop
  pieces : List Piece
  /-- A reading at which the call has found the bucket empty. -/
  dry : Option ℚ

/-- What one access can put on a tab when it takes the zero time from `v` to `w` and loses at most `c` seconds
of it, with no burst above `burst` seconds. Any access may put nothing on it. -/
inductive Tab.Step (burst v w c : ℚ) (g : Tab) : Tab → Prop
  | nothing (hw : v ≤ w + c) : g.Step burst v w c g
  | drain {p : Piece} (hr : g.reads p.reading) (hu : p.until? = some p.reading) (hup : v + p.secs ≤ w + c)
      (hb : p.secs ≤ burst) (hfloor : p.reading + p.secs ≤ w + c + burst) (hceil : w ≤ p.reading) :
      g.Step burst v w c { g with pieces := p :: g.pieces }
  | dry {now : ℚ} (hr : g.reads now) (hw : v ≤ w + c) (h : now ≤ w + c) :
      g.Step burst v w c { g with dry := some now }
  | borrow {p : Piece} (hr : g.reads p.reading) (hdry : g.dry = some p.reading) (hu : p.until? = none)
      (hb : p.secs ≤ burst) (hup : v + p.secs ≤ w + c) :
      g.Step burst v w c { g with pieces := p :: g.pieces }
  | told {p : Piece} {rest : List Piece} {t : ℚ} (hp : g.pieces = p :: rest) (hu : p.until? = none)
      (hw : v ≤ w + c) (ht : max p.reading v ≤ t + c) :
      g.Step burst v w c { g with pieces := { p with until? := some t } :: rest }

/-! ## Counting pieces -/

section
variable (t₁ t₂ X u F : ℚ)

/-- With `F` seconds put back so far and the virtual time at `u`, a bound on the virtual time the piece was
granted at. -/
def Piece.top (p : Piece) : ℚ :=
  match p.until? with
  | some t => t + F
  | none => max (p.reading + F) u

/-- The seconds of the piece, if it falls between `t₁` and the virtual time `X`. -/
def Piece.within (p : Piece) : ℚ := if t₁ ≤ p.reading ∧ p.top u F ≤ X then p.secs else 0

/-- The seconds of the piece, if it was taken from `t₁` on and its caller goes on until `t₂`. -/
def Piece.settled (p : Piece) : ℚ :=
  if t₁ ≤ p.reading ∧ ∃ t ∈ p.until?, t ≤ t₂ then p.secs else 0

def Tab.within (g : Tab) : ℚ := (g.pieces.map (Piece.within t₁ X u F)).sum

def Tab.settled (g : Tab) : ℚ := (g.pieces.map (Piece.settled t₁ t₂)).sum

variable {t₁ t₂ X u F} {u' F' : ℚ}

theorem Piece.top_mono (p : Piece) (hu : u ≤ u') (hF : F ≤ F') : p.top u F ≤ p.top u' F' := by
  unfold top
  cases p.until? with
  | some t => exact add_le_add_right hF t
  | none => exact max_le_max (add_le_add_right hF p.reading) hu

theorem Piece.within_nonneg (p : Piece) : 0 ≤ p.within t₁ X u F := by
  unfold within
  split
  · exact p.secs_nonneg
  · exact le_rfl

/-- The later the virtual time a piece was granted at may be, the fewer are sure to fall before `X`. -/
theorem Piece.within_le_of_top {p p' : Piece} (hr : p'.reading = p.reading) (hs : p'.secs = p.secs)
    (h : p.top u F ≤ p'.top u' F') : p'.within t₁ X u' F' ≤ p.within t₁ X u F := by
  by_cases hin : t₁ ≤ p'.reading ∧ p'.top u' F' ≤ X
  · have hin' : t₁ ≤ p.reading ∧ p.top u F ≤ X := ⟨hr ▸ hin.1, h.trans hin.2⟩
    simp only [within, if_pos hin, if_pos hin', hs, le_refl]
  · rw [within, if_neg hin]
    exact p.within_nonneg

theorem Piece.within_anti (p : Piece) (hu : u ≤ u') (hF : F ≤ F') :
    p.within t₁ X u' F' ≤ p.within t₁ X u F :=
  Piece.within_le_of_top rfl rfl (p.top_mono hu hF)

theorem Piece.settled_le_within (p : Piece) (hX : t₂ + F ≤ X) : p.settled t₁ t₂ ≤ p.within t₁ X u F := by
  by_cases h : t₁ ≤ p.reading ∧ ∃ t ∈ p.until?, t ≤ t₂
  · obtain ⟨hr, t, ht, hle⟩ := id h
    have htop : p.top u F = t + F := by
      rw [Option.mem_def] at ht
      simp only [top, ht]
    have h' : t₁ ≤ p.reading ∧ p.top u F ≤ X := ⟨hr, by rw [htop]; linarith⟩
    simp only [settled, within, if_pos h, if_pos h', le_refl]
  · rw [settled, if_neg h]
    exact p.within_nonneg

theorem Piece.settled_nonneg (p : Piece) : 0 ≤ p.settled t₁ t₂ := by
  unfold settled
  split
  · exact p.secs_nonneg
  · exact le_rfl

theorem settled_sum_nonneg (t₁ t₂ : ℚ) (ps : List Piece) : 0 ≤ (ps.map (Piece.settled t₁ t₂)).sum :=
  List.sum_nonneg fun x hx => by
    obtain ⟨p, -, rfl⟩ := List.mem_map.1 hx
    exact p.settled_nonneg

theorem Tab.within_nonneg (g : Tab) : 0 ≤ g.within t₁ X u F :=
  List.sum_nonneg fun x hx => by
    obtain ⟨p, -, rfl⟩ := List.mem_map.1 hx
    exact p.within_nonneg

theorem Tab.within_anti (g : Tab) (hu : u ≤ u') (hF : F ≤ F') :
    g.within t₁ X u' F' ≤ g.within t₁ X u F :=
  List.sum_le_sum fun p _ => p.within_anti hu hF

theorem Tab.settled_le_within (g : Tab) (hX : t₂ + F ≤ X) : g.settled t₁ t₂ ≤ g.within t₁ X u F :=
  List.sum_le_sum fun p _ => p.settled_le_within hX

end

/-! ## One step -/

section
variable {burst t₁ X u F v w c : ℚ} {g g' : Tab}

theorem Tab.Step.le (h : g.Step burst v w c g') : v ≤ w + c := by
  cases h with
  | @drain p _ _ hup => linarith [p.secs_nonneg]
  | @borrow p _ _ _ _ hup => linarith [p.secs_nonneg]
  | _ => assumption

/-- The ledger after a deed that puts `e` into it. -/
def Extends (burst u u' : ℚ) (e : List (Entry ℚ)) : Prop :=
  e = [] ∨ ∃ time amount, e = [.grant time amount] ∧ (Entry.grant time amount).Moves 1 burst u u'

/-- A piece taken from `t₁` on is a grant, at its reading or, in debt, at the virtual time it leaves. -/
theorem Piece.grants {p : Piece} {u u' : ℚ} (hup : u + p.secs ≤ u') (hfloor : p.reading + p.secs ≤ u' + burst)
    (hb : p.secs ≤ burst) (htop : max p.reading u' ≤ p.top u' F) :
    ∃ e, Extends burst u u' e ∧ ∀ X, p.within t₁ X u' F ≤ granted t₁ X e := by
  refine ⟨[.grant (max p.reading u') p.secs], .inr ⟨_, _, rfl, p.secs_nonneg, ?_, ?_, le_max_right _ _⟩, ?_⟩
  · simpa using hup
  · rw [div_one, sub_le_iff_le_add]
    exact max_le (by linarith) (by linarith)
  · intro X
    rw [granted_cons, granted_nil, add_zero]
    by_cases h : t₁ ≤ p.reading ∧ p.top u' F ≤ X
    · have hin : t₁ ≤ max p.reading u' ∧ max p.reading u' ≤ X :=
        ⟨h.1.trans (le_max_left _ _), htop.trans h.2⟩
      rw [Piece.within, if_pos h, Entry.grantedIn, if_pos hin]
    · rw [Piece.within, if_neg h]
      simp only [Entry.grantedIn]
      split
      · exact p.secs_nonneg
      · exact le_rfl

/-- A piece on top of a tab. -/
theorem Tab.within_cons (p : Piece) (pieces : List Piece) {reads dry} :
    Tab.within t₁ X u F ⟨reads, p :: pieces, dry⟩ =
      p.within t₁ X u F + Tab.within t₁ X u F ⟨reads, pieces, dry⟩ := by
  simp [Tab.within]

/-- A piece taken before `t₁` is not counted, so nothing has to go into the ledger for it. -/
theorem Tab.extends_cons {u u' F' : ℚ} (p : Piece) (hu : u ≤ u') (hF : F ≤ F')
    (hp : t₁ ≤ p.reading → ∃ e, Extends burst u u' e ∧ ∀ X, p.within t₁ X u' F' ≤ granted t₁ X e) :
    ∃ e, Extends burst u u' e ∧ ∀ X, Tab.within t₁ X u' F' { g with pieces := p :: g.pieces } ≤
      g.within t₁ X u F + granted t₁ X e := by
  have hcons : ∀ e, (∀ X, p.within t₁ X u' F' ≤ granted t₁ X e) →
      ∀ X, Tab.within t₁ X u' F' { g with pieces := p :: g.pieces } ≤ g.within t₁ X u F + granted t₁ X e := by
    intro e he X
    have hold : g.within t₁ X u' F' ≤ g.within t₁ X u F := g.within_anti hu hF
    have hnew := he X
    rw [Tab.within_cons]
    linarith
  by_cases hr : t₁ ≤ p.reading
  · obtain ⟨e, hext, he⟩ := hp hr
    exact ⟨e, hext, hcons e he⟩
  · refine ⟨[], .inl rfl, hcons [] fun X => ?_⟩
    rw [Piece.within, if_neg fun h => hr h.1, granted_nil]

/-- What a step puts on the tab goes into the ledger. -/
theorem Tab.Step.extends (h : g.Step burst v w c g') (hc : 0 ≤ c) (hF : 0 ≤ F)
    (hdry : ∀ now, g.dry = some now → t₁ ≤ now → now ≤ v + F) :
    ∃ e, Extends burst (v + F) (w + (F + c)) e ∧
      ∀ X, g'.within t₁ X (w + (F + c)) (F + c) ≤ g.within t₁ X (v + F) F + granted t₁ X e := by
  have hFle : F ≤ F + c := le_add_of_nonneg_right hc
  have hu : v + F ≤ w + (F + c) := by linarith [h.le]
  cases h with
  | nothing => exact ⟨[], .inl rfl, fun X => by simpa using g.within_anti hu hFle⟩
  | dry hr hd h => exact ⟨[], .inl rfl, fun X => by simpa [Tab.within] using g.within_anti hu hFle⟩
  | @drain p hr huntil hup hb hfloor hceil =>
    refine Tab.extends_cons p hu hFle fun _ => ?_
    refine Piece.grants (by linarith) (by linarith) hb (max_le ?_ ?_)
    · simp only [Piece.top, huntil]
      linarith
    · simp only [Piece.top, huntil]
      linarith
  | @borrow p hr hdry' huntil hb hup =>
    refine Tab.extends_cons p hu hFle fun hle => ?_
    have hnow := hdry _ hdry' hle
    refine Piece.grants (by linarith) (by linarith) hb ?_
    simp only [Piece.top, huntil]
    exact max_le_max (by linarith) le_rfl
  | @told p rest t hp huntil hw ht =>
    refine ⟨[], .inl rfl, fun X => ?_⟩
    obtain ⟨reads, pieces, dry⟩ := g
    obtain rfl : pieces = p :: rest := hp
    rw [granted_nil, add_zero, Tab.within_cons, Tab.within_cons]
    refine add_le_add (Piece.within_le_of_top rfl rfl ?_) (Tab.within_anti _ hu hFle)
    simp only [Piece.top, huntil]
    rw [max_add_add_right]
    linarith

end

/-! ## Every run -/

section
variable {ι V N Req R : Type}

/-- The seconds lost in a stretch of a run. -/
def lost (cost : N → Deed V → ℚ) (trace : List (Event ι V N Req R)) : ℚ :=
  (trace.map fun
    | .did _ _ site d => cost site d
    | _ => 0).sum

section
variable (cost : N → Deed V → ℚ)

@[simp] theorem lost_nil : lost cost ([] : List (Event ι V N Req R)) = 0 := rfl

@[simp] theorem lost_append (tr tr' : List (Event ι V N Req R)) :
    lost cost (tr ++ tr') = lost cost tr + lost cost tr' := by
  simp [lost]

@[simp] theorem lost_call (i : ι) (n : Nat) (req : Req) :
    lost cost [(.call i n req : Event ι V N Req R)] = 0 := by
  simp [lost]

@[simp] theorem lost_did (i : ι) (n : Nat) (site : N) (d : Deed V) :
    lost cost [(.did i n site d : Event ι V N Req R)] = cost site d := by
  simp [lost]

@[simp] theorem lost_ret (i : ι) (n : Nat) (req : Req) (r : R) :
    lost cost [(.ret i n req r : Event ι V N Req R)] = 0 := by
  simp [lost]

theorem lost_nonneg {cost : N → Deed V → ℚ} (hcost : ∀ site d, 0 ≤ cost site d)
    (tr : List (Event ι V N Req R)) : 0 ≤ lost cost tr := by
  refine List.sum_nonneg fun x hx => ?_
  obtain ⟨e, -, rfl⟩ := List.mem_map.1 hx
  cases e with
  | did i n site d => exact hcost site d
  | _ => exact le_rfl

end

/-- The seconds on the tab of a call in progress. -/
def onTab (t₁ X u F : ℚ) (s : Option (Req × Tab)) : ℚ := s.elim 0 fun x => x.2.within t₁ X u F

theorem onTab_nonneg (t₁ X u F : ℚ) (s : Option (Req × Tab)) : 0 ≤ onTab t₁ X u F s := by
  cases s with
  | none => exact le_rfl
  | some x => exact x.2.within_nonneg

theorem onTab_anti {t₁ X u F u' F' : ℚ} (s : Option (Req × Tab)) (hu : u ≤ u') (hF : F ≤ F') :
    onTab t₁ X u' F' s ≤ onTab t₁ X u F s := by
  cases s with
  | none => exact le_rfl
  | some x => exact x.2.within_anti hu hF

/-- The books of a stretch of a run: the ledger `l` is a history of the virtual time, what a call has seen
dry still is in virtual time, and the ledger covers the seconds `paid` and what is on any tabs. -/
structure Account (burst t₁ t₂ v F paid : ℚ) (γ : ι → Option (Req × Tab)) (l : List (Entry ℚ)) :
    Prop where
  history : ∃ u₀, History 1 burst u₀ l (v + F)
  grants : ∀ e ∈ l, e.refunded = 0
  dry : ∀ j req g now, γ j = some (req, g) → g.dry = some now → t₁ ≤ now → now ≤ v + F
  covered : ∀ (S : Finset ι) X, t₂ + F ≤ X →
    paid + ∑ j ∈ S, onTab t₁ X (v + F) F (γ j) ≤ granted t₁ X l

variable [DecidableEq ι] {burst t₁ t₂ v w F F' paid paid' : ℚ} {γ : ι → Option (Req × Tab)}
  {l l' : List (Entry ℚ)} {i : ι} {s : Option (Req × Tab)}

/-- One call goes on to `s`: what it has paid and has on its tab has grown no more than the ledger. -/
theorem Account.update (h : Account burst t₁ t₂ v F paid γ l)
    (hhistory : ∃ u₀, History 1 burst u₀ l' (w + F')) (hgrants : ∀ e ∈ l', e.refunded = 0)
    (hu : v + F ≤ w + F') (hF : F ≤ F')
    (hdry : ∀ req g now, s = some (req, g) → g.dry = some now → t₁ ≤ now → now ≤ w + F')
    (hgrown : ∀ X, t₂ + F' ≤ X → paid' + onTab t₁ X (w + F') F' s + granted t₁ X l ≤
      paid + onTab t₁ X (v + F) F (γ i) + granted t₁ X l') :
    Account burst t₁ t₂ w F' paid' (Function.update γ i s) l' := by
  refine ⟨hhistory, hgrants, fun j req g now hj hg hnow => ?_, fun S X hX => ?_⟩
  · by_cases hji : j = i
    · subst hji
      exact hdry req g now (by simpa using hj) hg hnow
    · rw [Function.update_of_ne hji] at hj
      exact (h.dry j req g now hj hg hnow).trans hu
  · -- Whether `i` is among them or not, the others and `i` were covered.
    have hcovered := h.covered (insert i (S.erase i)) X (by linarith)
    rw [Finset.sum_insert (Finset.notMem_erase i S)] at hcovered
    have hothers : ∑ j ∈ S.erase i, onTab t₁ X (w + F') F' (Function.update γ i s j) ≤
        ∑ j ∈ S.erase i, onTab t₁ X (v + F) F (γ j) := by
      refine Finset.sum_le_sum fun j hj => ?_
      rw [Function.update_of_ne (Finset.ne_of_mem_erase hj)]
      exact onTab_anti _ hu hF
    have hi : ∑ j ∈ S, onTab t₁ X (w + F') F' (Function.update γ i s j) ≤
        onTab t₁ X (w + F') F' s + ∑ j ∈ S.erase i, onTab t₁ X (w + F') F' (Function.update γ i s j) := by
      by_cases hmem : i ∈ S
      · rw [← Finset.add_sum_erase S _ hmem, Function.update_self]
      · rw [Finset.erase_eq_of_notMem hmem]
        exact le_add_of_nonneg_left (onTab_nonneg _ _ _ _ _)
    have := hgrown X hX
    linarith

/-! ## From the first call that counts on -/

/-- What is on the tab was read off the clock by its call. -/
structure Tab.Lawful (reads : ℚ → Prop) (g : Tab) : Prop where
  reads_eq : g.reads = reads
  pieces : ∀ p ∈ g.pieces, reads p.reading
  dry : ∀ now, g.dry = some now → reads now

theorem Tab.Lawful.step {reads : ℚ → Prop} {g g' : Tab} {c : ℚ} (h : g.Lawful reads)
    (hm : g.Step burst v w c g') : g'.Lawful reads := by
  obtain ⟨rfl, hpieces, hdry⟩ := h
  cases hm with
  | nothing => exact ⟨rfl, hpieces, hdry⟩
  | dry hr => exact ⟨rfl, hpieces, fun now hnow => by cases hnow; exact hr⟩
  | drain hr | borrow hr => exact ⟨rfl, List.forall_mem_cons.2 ⟨hr, hpieces⟩, hdry⟩
  | told hp =>
    rw [hp, List.forall_mem_cons] at hpieces
    exact ⟨rfl, List.forall_mem_cons.2 hpieces, hdry⟩

/-- Nothing read before `t₁` counts. -/
theorem Tab.Lawful.within_eq {reads : ℚ → Prop} {g : Tab} {X u F : ℚ} (h : g.Lawful reads)
    (hearly : ∀ now, reads now → now < t₁) : g.within t₁ X u F = 0 := by
  refine List.sum_eq_zero fun x hx => ?_
  obtain ⟨p, hp, rfl⟩ := List.mem_map.1 hx
  rw [Piece.within, if_neg fun hle => not_lt.2 hle.1 (hearly _ (h.pieces p hp))]

/-- The event starts a call that counts. -/
def opening (opens : Req → Bool) : Event ι V N Req R → Bool
  | .call _ _ req => opens req
  | _ => false

/-- What the calls that have returned count for. -/
def paidFor (weight : Req → R → ℚ) (trace : List (Event ι V N Req R)) : ℚ :=
  ((returns trace).map fun x => weight x.request x.response).sum

section
variable (t₁ t₂ burst : ℚ) (cost : N → Deed V → ℚ) (start : Req → Tab) (weight : Req → R → ℚ)
  (opens : Req → Bool)

/-- The invariant of the run: nothing has counted yet, or the books have been kept since the first call that
counts. -/
structure Books (trace : List (Event ι V N Req R)) (v : ℚ) (γ : ι → Option (Req × Tab)) : Prop where
  lawful : ∀ j req g, γ j = some (req, g) → g.Lawful (start req).reads
  kept : ((∀ e ∈ trace, opening opens e = false) ∧ (∀ j req g, γ j = some (req, g) → opens req = false) ∧
      paidFor weight trace ≤ 0) ∨
    (∃ e ∈ trace, opening opens e = true) ∧
      ∃ l, Account burst t₁ t₂ v (lost cost (fromFirst (opening opens) trace)) (paidFor weight trace) γ l

variable {t₁ t₂ burst cost start weight opens} {trace : List (Event ι V N Req R)}

omit [DecidableEq ι] in
/-- The books are opened with nothing in them. -/
theorem Account.opened (hearly : ∀ j req g, γ j = some (req, g) →
    g.Lawful (start req).reads ∧ ∀ now, (start req).reads now → now < t₁) (hpaid : paid ≤ 0) :
    Account burst t₁ t₂ v 0 paid γ [] := by
  refine ⟨⟨v, by rw [add_zero]; exact .start⟩, by simp, fun j req g now hj hg hnow => ?_, fun S X _ => ?_⟩
  · obtain ⟨hlawful, hlt⟩ := hearly j req g hj
    exact absurd (hlt now (hlawful.dry now hg)) (not_lt.2 hnow)
  · have hzero : ∑ j ∈ S, onTab t₁ X (v + 0) 0 (γ j) = 0 := by
      refine Finset.sum_eq_zero fun j _ => ?_
      cases hj : γ j with
      | none => rfl
      | some x =>
        obtain ⟨hlawful, hlt⟩ := hearly j x.1 x.2 hj
        exact hlawful.within_eq hlt
    rw [hzero, add_zero, granted_nil]
    exact hpaid

/-- A call with nothing on its tab. -/
theorem Account.join (h : Account burst t₁ t₂ v F paid γ l) (i : ι) (req : Req) {g : Tab}
    (hpieces : g.pieces = []) (hdry : g.dry = none) :
    Account burst t₁ t₂ v F paid (Function.update γ i (some (req, g))) l := by
  refine h.update h.history h.grants le_rfl le_rfl ?_ fun X _ => ?_
  · rintro _ _ now ⟨⟩ hnow
    rw [hdry] at hnow
    cases hnow
  · have hzero : onTab t₁ X (v + F) F (some (req, g)) = 0 := by simp [onTab, Tab.within, hpieces]
    have := onTab_nonneg t₁ X (v + F) F (γ i)
    linarith

omit [DecidableEq ι] in
theorem lost_concat (hsome : ∃ e ∈ trace, opening opens e = true) (e : Event ι V N Req R) :
    lost cost (fromFirst (opening opens) (trace ++ [e])) =
      lost cost (fromFirst (opening opens) trace) + lost cost [e] := by
  rw [fromFirst_append hsome, lost_append]

omit [DecidableEq ι] in
theorem opening_concat (hnone : ∀ e ∈ trace, opening opens e = false) {e : Event ι V N Req R}
    (he : opening opens e = false) : ∀ e' ∈ trace ++ [e], opening opens e' = false := by
  intro e' hmem
  rcases List.mem_append.1 hmem with h | h
  · exact hnone e' h
  · rwa [List.mem_singleton.1 h]

omit [DecidableEq ι] in
theorem opened_concat (hsome : ∃ e ∈ trace, opening opens e = true) (e : Event ι V N Req R) :
    ∃ e' ∈ trace ++ [e], opening opens e' = true := by
  obtain ⟨e', hmem, he'⟩ := hsome
  exact ⟨e', List.mem_append_left _ hmem, he'⟩

theorem Books.call (h : Books t₁ t₂ burst cost start weight opens trace v γ)
    (hstart : ∀ req, (start req).pieces = [] ∧ (start req).dry = none)
    (hopens : ∀ req, opens req = false → ∀ now, (start req).reads now → now < t₁) (i : ι) (n : Nat)
    (req : Req) :
    Books t₁ t₂ burst cost start weight opens (trace ++ [.call i n req]) v
      (Function.update γ i (some (req, start req))) := by
  obtain ⟨hlawful, hkept⟩ := h
  obtain ⟨hpieces, hdry⟩ := hstart req
  have hpaid : paidFor weight (trace ++ [.call i n req]) = paidFor weight trace := by simp [paidFor]
  refine ⟨forall_update i hlawful ?_, ?_⟩
  · rintro _ _ ⟨⟩
    exact ⟨rfl, by simp [hpieces], by simp [hdry]⟩
  rcases hkept with ⟨hnone, hγ, hle⟩ | ⟨hsome, l, hacc⟩
  · cases hop : opens req with
    | false =>
      exact .inl ⟨opening_concat hnone hop, forall_update i hγ (by rintro _ _ ⟨⟩; exact hop), by rwa [hpaid]⟩
    | true =>
      refine .inr ⟨⟨_, List.mem_append_right _ (List.mem_singleton_self _), hop⟩, [], ?_⟩
      have hfirst : fromFirst (opening opens) (trace ++ [.call i n req]) = [.call i n req] := by
        rw [fromFirst_append_first hnone]
        simp [fromFirst, opening, hop]
      rw [hfirst, lost_call, hpaid]
      have hopened : Account burst t₁ t₂ v 0 (paidFor weight trace) γ [] :=
        Account.opened (fun j req' g hj => ⟨hlawful j req' g hj, hopens req' (hγ j req' g hj)⟩) hle
      exact hopened.join i req hpieces hdry
  · refine .inr ⟨opened_concat hsome _, l, ?_⟩
    rw [lost_concat hsome, lost_call, add_zero, hpaid]
    exact hacc.join i req hpieces hdry

theorem Books.did (h : Books t₁ t₂ burst cost start weight opens trace v γ)
    (hcost : ∀ site d, 0 ≤ cost site d) (i : ι) (n : Nat) {req : Req} {g g' : Tab} {site : N} {d : Deed V}
    (hi : γ i = some (req, g)) (hm : g.Step burst v w (cost site d) g') :
    Books t₁ t₂ burst cost start weight opens (trace ++ [.did i n site d]) w
      (Function.update γ i (some (req, g'))) := by
  obtain ⟨hlawful, hkept⟩ := h
  have hpaid : paidFor weight (trace ++ [.did i n site d]) = paidFor weight trace := by simp [paidFor]
  refine ⟨forall_update i hlawful ?_, ?_⟩
  · rintro _ _ ⟨⟩
    exact (hlawful i req g hi).step hm
  rcases hkept with ⟨hnone, hγ, hle⟩ | ⟨hsome, l, hacc⟩
  · exact .inl ⟨opening_concat hnone rfl, forall_update i hγ (by rintro _ _ ⟨⟩; exact hγ i req g hi),
      by rwa [hpaid]⟩
  · have hc := hcost site d
    have hF : 0 ≤ lost cost (fromFirst (opening opens) trace) := lost_nonneg hcost _
    obtain ⟨e, hext, hwithin⟩ := hm.extends hc hF fun now => hacc.dry i req g now hi
    obtain ⟨u₀, hist⟩ := hacc.history
    have hu : v + lost cost (fromFirst (opening opens) trace) ≤
        w + (lost cost (fromFirst (opening opens) trace) + cost site d) := by linarith [hm.le]
    refine .inr ⟨opened_concat hsome _, l ++ e, ?_⟩
    rw [lost_concat hsome, lost_did, hpaid]
    refine hacc.update ⟨u₀, ?_⟩ ?_ hu (le_add_of_nonneg_right hc) ?_ fun X _ => ?_
    · rcases hext with rfl | ⟨time, amount, rfl, hmoves⟩
      · simpa using hist.rise hu
      · exact hist.entry hmoves
    · intro e' hmem
      refine (List.mem_append.1 hmem).elim (hacc.grants e') fun hmem => ?_
      rcases hext with rfl | ⟨time, amount, rfl, -⟩
      · cases hmem
      · rw [List.mem_singleton.1 hmem]
        rfl
    · rintro _ _ now ⟨⟩ hnow hle
      have hdry : ∀ now, g.dry = some now → t₁ ≤ now →
          now ≤ w + (lost cost (fromFirst (opening opens) trace) + cost site d) :=
        fun now hnow hle => (hacc.dry i req g now hi hnow hle).trans hu
      cases hm with
      | dry hr hw h =>
        cases hnow
        linarith
      | _ => exact hdry now hnow hle
    · have h := hwithin X
      rw [hi]
      simp only [onTab, Option.elim_some, granted_append]
      linarith

theorem Books.ret (h : Books t₁ t₂ burst cost start weight opens trace v γ)
    (hopens : ∀ req, opens req = false → ∀ now, (start req).reads now → now < t₁) (i : ι) (n : Nat)
    {req : Req} {g : Tab} {r : R} (hi : γ i = some (req, g)) (hw : weight req r ≤ g.settled t₁ t₂) :
    Books t₁ t₂ burst cost start weight opens (trace ++ [.ret i n req r]) v (Function.update γ i none) := by
  obtain ⟨hlawful, hkept⟩ := h
  have hpaid : paidFor weight (trace ++ [.ret i n req r]) = paidFor weight trace + weight req r := by
    simp [paidFor]
  refine ⟨forall_update i hlawful (by rintro _ _ ⟨⟩), ?_⟩
  rcases hkept with ⟨hnone, hγ, hle⟩ | ⟨hsome, l, hacc⟩
  · refine .inl ⟨opening_concat hnone rfl, forall_update i hγ (by rintro _ _ ⟨⟩), ?_⟩
    have hsettled : g.settled t₁ t₂ ≤ g.within t₁ t₂ 0 0 := g.settled_le_within (by linarith)
    rw [(hlawful i req g hi).within_eq (hopens req (hγ i req g hi))] at hsettled
    rw [hpaid]
    linarith
  · refine .inr ⟨opened_concat hsome _, l, ?_⟩
    rw [lost_concat hsome, lost_ret, add_zero, hpaid]
    refine hacc.update hacc.history hacc.grants le_rfl le_rfl (by rintro _ _ _ ⟨⟩) fun X hX => ?_
    have hsettled : g.settled t₁ t₂ ≤ g.within t₁ X (v + lost cost (fromFirst (opening opens) trace))
        (lost cost (fromFirst (opening opens) trace)) := g.settled_le_within hX
    rw [hi]
    simp only [onTab, Option.elim_some, Option.elim_none]
    linarith

end

/-- **The ledger bound.** Whatever the interleaving, calls that keep to a protocol whose moves are steps of
their tabs count, once they have returned, for at most the burst, the length of the window, and what was lost
since the first call that counts. -/
theorem ledger_bound [DecidableEq V] (hburst : 0 ≤ burst) (ht : t₁ ≤ t₂) (M : Protocol V N Tab)
    (value : V → ℚ) {cost : N → Deed V → ℚ} (hcost : ∀ site d, 0 ≤ cost site d)
    (hstep : ∀ {g n d g'}, M.move g n d g' → M.knows g d.before →
      g.Step burst (value d.before) (value d.after) (cost n d) g')
    {I : V → Prop} (hkeep : ∀ {g n d g'}, M.move g n d g' → M.knows g d.before → I d.after)
    {code : Req → Prog V N R} {calls : ι → List Req}
    (start : Req → Tab) (weight : Req → R → ℚ) (opens : Req → Bool)
    (hknows : ∀ req v, I v → M.knows (start req) v)
    (hstart : ∀ req, (start req).pieces = [] ∧ (start req).dry = none)
    (hopens : ∀ req, opens req = false → ∀ now, (start req).reads now → now < t₁)
    (hcode : ∀ i, ∀ req ∈ calls i,
      (code req).wp M (fun r g => weight req r ≤ g.settled t₁ t₂) (start req))
    {v₀ : V} (hI : I v₀) (sched : List (ι × Bool)) :
    paidFor weight (Pool.run code sched (.init v₀ calls)).trace ≤ burst + (t₂ - t₁) +
      lost cost (fromFirst (opening opens) (Pool.run code sched (.init v₀ calls)).trace) := by
  obtain ⟨γ, hrun, -⟩ := adequacy_of_inv M start (fun req r g => weight req r ≤ g.settled t₁ t₂) hkeep hknows
    hcode hI sched
  have hbooks := hrun.events (fun tr v γ => Books t₁ t₂ burst cost start weight opens tr (value v) γ)
    ⟨by simp, .inl ⟨by simp, by simp, le_rfl⟩⟩
    (fun i n req h _ => h.call hstart hopens i n req)
    (fun i n _ _ _ _ _ h hi hd hk hm => by
      subst hd
      exact h.did hcost i n hi (hstep hm hk))
    (fun i n _ _ _ h hi hw => h.ret hopens i n hi hw)
  have hF := lost_nonneg hcost (fromFirst (opening opens) (Pool.run code sched (.init v₀ calls)).trace)
  rcases hbooks.kept with ⟨-, -, hle⟩ | ⟨-, l, hacc⟩
  · linarith
  · obtain ⟨u₀, hist⟩ := hacc.history
    have hcovered := hacc.covered ∅ _ le_rfl
    have hbound := window_bound one_pos hburst (show t₁ ≤ t₂ + lost cost (fromFirst (opening opens)
      (Pool.run code sched (.init v₀ calls)).trace) by linarith) hist
    have hrefunds : refunds (between (Entry.inWindow t₁ (t₂ + lost cost (fromFirst (opening opens)
        (Pool.run code sched (.init v₀ calls)).trace))) l) = 0 := by
      refine List.sum_eq_zero fun x hx => ?_
      obtain ⟨e, he, rfl⟩ := List.mem_map.1 hx
      exact hacc.grants e ((between_sublist l).subset he)
    rw [hrefunds] at hbound
    rw [Finset.sum_empty] at hcovered
    linarith

end

/-! ## An exact zero time -/

/-- What one access to the zero time can put on a tab, with no burst above `burst` seconds. Any access may put
nothing on it. -/
inductive Tab.Move (burst : ℚ) (g : Tab) (d : Deed ℚ) : Tab → Prop
  | nothing : g.Move burst d g
  | drain {p : Piece} (hr : g.reads p.reading) (hu : p.until? = some p.reading)
      (hup : d.before + p.secs ≤ d.after) (hfloor : p.reading + p.secs ≤ d.after + burst)
      (hceil : d.after ≤ p.reading) : g.Move burst d { g with pieces := p :: g.pieces }
  | dry {now : ℚ} (hr : g.reads now) (hd : d.after = d.before) (h : now ≤ d.before) :
      g.Move burst d { g with dry := some now }
  | borrow {p : Piece} (hr : g.reads p.reading) (hdry : g.dry = some p.reading) (hu : p.until? = none)
      (hb : p.secs ≤ burst) (hd : d.after = d.before + p.secs) :
      g.Move burst d { g with pieces := p :: g.pieces }
  | told {p : Piece} {rest : List Piece} (hp : g.pieces = p :: rest) (hu : p.until? = none)
      (hd : d.after = d.before) :
      g.Move burst d { g with pieces := { p with until? := some (max p.reading d.before) } :: rest }

def tabProtocol (burst : ℚ) : Protocol ℚ Site Tab where
  knows _ _ := True
  move g _ d g' := g.Move burst d g'
  learns _ _ := trivial
  stable _ _ _ := trivial

section
variable {burst : ℚ} {g g' : Tab} {d : Deed ℚ}

/-- By how much a deed lowers the zero time. -/
def loweredBy (d : Deed ℚ) : ℚ := max 0 (d.before - d.after)

theorem loweredBy_nonneg (d : Deed ℚ) : 0 ≤ loweredBy d := le_max_left _ _

theorem loweredBy_of_le (h : d.before ≤ d.after) : loweredBy d = 0 := max_eq_left (by linarith)

theorem before_le_add_loweredBy (d : Deed ℚ) : d.before ≤ d.after + loweredBy d := by
  have h := le_max_right 0 (d.before - d.after)
  unfold loweredBy
  linarith

theorem Tab.Move.step (h : g.Move burst d g') : g.Step burst d.before d.after (loweredBy d) g' := by
  have hle := before_le_add_loweredBy d
  cases h with
  | nothing => exact .nothing hle
  | @drain p hr hu hup hfloor hceil =>
    have hzero : loweredBy d = 0 := loweredBy_of_le (by linarith [p.secs_nonneg])
    exact .drain hr hu (by linarith) (by linarith) (by linarith) hceil
  | dry hr hd h => exact .dry hr hle (h.trans hle)
  | @borrow p hr hdry hu hb hd =>
    have hzero : loweredBy d = 0 := loweredBy_of_le (by linarith [p.secs_nonneg])
    exact .borrow hr hdry hu hb (by linarith)
  | told hp hu hd => exact .told hp hu hle (le_add_of_nonneg_right (loweredBy_nonneg d))

end

section
variable {ι Req R : Type}

/-- The seconds put back in a stretch of a run: by how much its accesses lower the zero time. -/
def putBack (trace : List (Event ι ℚ Site Req R)) : ℚ :=
  (trace.map fun
    | .did _ _ _ d => loweredBy d
    | _ => 0).sum

theorem putBack_eq (tr : List (Event ι ℚ Site Req R)) : putBack tr = lost (fun _ d => loweredBy d) tr := by
  unfold putBack lost
  congr 2
  funext e
  cases e <;> rfl

variable [DecidableEq ι] {burst t₁ t₂ : ℚ}

/-- **The tab bound.** Whatever the interleaving, the calls that have returned count for at most the burst,
the length of the window, and what was put back since the first call that counts. -/
theorem tab_bound (hburst : 0 ≤ burst) (ht : t₁ ≤ t₂) {code : Req → Code R} {calls : ι → List Req}
    (start : Req → Tab) (weight : Req → R → ℚ) (opens : Req → Bool)
    (hstart : ∀ req, (start req).pieces = [] ∧ (start req).dry = none)
    (hopens : ∀ req, opens req = false → ∀ now, (start req).reads now → now < t₁)
    (hcode : ∀ i, ∀ req ∈ calls i,
      (code req).wp (tabProtocol burst) (fun r g => weight req r ≤ g.settled t₁ t₂) (start req))
    (zt : ℚ) (sched : List (ι × Bool)) :
    paidFor weight (Pool.run code sched (.init zt calls)).trace ≤ burst + (t₂ - t₁) +
      putBack (fromFirst (opening opens) (Pool.run code sched (.init zt calls)).trace) := by
  rw [putBack_eq]
  exact ledger_bound hburst ht (tabProtocol burst) id (fun _ d => loweredBy_nonneg d) (fun hm _ => hm.step)
    (I := fun _ => True) (fun _ _ => trivial) start weight opens (fun _ _ _ => trivial) hstart hopens hcode
    trivial sched

end

end Gardal
