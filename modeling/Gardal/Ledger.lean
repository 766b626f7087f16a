import Gardal.Stretch
import Mathlib.Algebra.BigOperators.Group.List.Basic
import Mathlib.Algebra.Order.Field.Basic
import Mathlib.Tactic.FieldSimp
import Mathlib.Tactic.Linarith
/-!
# Rate limiting by one virtual time

A limiter keeps a single time `v`. Granting `amount` at `time` moves it up by at least
`amount / rate`, to a place no later than `time` and no earlier than `time - (burst - amount) / rate`;
a refund moves it down by at most `amount / rate`; anything else only moves it up. `Ledger.History`
holds the histories of such a limiter, in whatever order the times of the grants come.

`Ledger.window_bound`: the grants whose times lie in a window `[t₁, t₂]` amount to at most
`burst + rate * (t₂ - t₁)` and what was refunded between the first and the last of them.
-/
namespace Ledger
open Stretch

/-! ## Histories -/

inductive Entry (K : Type)
  | grant (time amount : K)
  | refund (amount : K)
  deriving DecidableEq, Repr

variable {K : Type} [Field K]

namespace Entry
variable [LinearOrder K]

/-- A grant whose time lies in the window. -/
def inWindow (t₁ t₂ : K) : Entry K → Bool
  | grant time _ => decide (t₁ ≤ time ∧ time ≤ t₂)
  | refund _ => false

/-- What the entry adds to the grants of the window. -/
def grantedIn (t₁ t₂ : K) : Entry K → K
  | grant time amount => if t₁ ≤ time ∧ time ≤ t₂ then amount else 0
  | refund _ => 0

end Entry

def Entry.refunded : Entry K → K
  | grant _ _ => 0
  | refund amount => amount

/-- What was refunded in a stretch of the history. -/
def refunds (l : List (Entry K)) : K := (l.map Entry.refunded).sum

@[simp] theorem refunds_nil : refunds ([] : List (Entry K)) = 0 := rfl

@[simp] theorem refunds_concat (l : List (Entry K)) (e : Entry K) :
    refunds (l ++ [e]) = refunds l + e.refunded := by
  simp [refunds]

variable [LinearOrder K]

/-- What was granted in the window. -/
def granted (t₁ t₂ : K) (l : List (Entry K)) : K := (l.map (Entry.grantedIn t₁ t₂)).sum

@[simp] theorem granted_nil (t₁ t₂ : K) : granted t₁ t₂ [] = 0 := rfl

@[simp] theorem granted_cons (t₁ t₂ : K) (e : Entry K) (l : List (Entry K)) :
    granted t₁ t₂ (e :: l) = e.grantedIn t₁ t₂ + granted t₁ t₂ l := by
  simp [granted]

@[simp] theorem granted_append (t₁ t₂ : K) (l l' : List (Entry K)) :
    granted t₁ t₂ (l ++ l') = granted t₁ t₂ l + granted t₁ t₂ l' := by
  simp [granted]

theorem granted_concat (t₁ t₂ : K) (l : List (Entry K)) (e : Entry K) :
    granted t₁ t₂ (l ++ [e]) = granted t₁ t₂ l + e.grantedIn t₁ t₂ := by
  simp

/-- How an entry may move the limiter from `v` to `w`. -/
def Entry.Moves (rate burst : K) : Entry K → K → K → Prop
  | grant time amount, v, w =>
    0 ≤ amount ∧ v + amount / rate ≤ w ∧ time - (burst - amount) / rate ≤ w ∧ w ≤ time
  | refund amount, v, w => v - amount / rate ≤ w

/-- `History rate burst v₀ l v`: the limiter started at `v₀`, did what `l` lists, and is at `v`. -/
inductive History (rate burst v₀ : K) : List (Entry K) → K → Prop
  | start : History rate burst v₀ [] v₀
  | rise {l v w} (h : History rate burst v₀ l v) (hup : v ≤ w) : History rate burst v₀ l w
  | entry {l v w e} (h : History rate burst v₀ l v) (hm : e.Moves rate burst v w) :
      History rate burst v₀ (l ++ [e]) w

/-! ## The bound -/

section bound
variable {rate burst v₀ t₁ t₂ v : K} {l : List (Entry K)}

/-- What a history in which the window has seen a grant says of the limiter. The first part is the
one that carries the induction: since the first grant of the window, `v` is as far above
`t₁ - burst / rate` as the grants less the refunds have pushed it. -/
structure Bounded (rate burst t₁ t₂ : K) (l : List (Entry K)) (v : K) : Prop where
  pushed : t₁ - burst / rate + granted t₁ t₂ l / rate
      - refunds (fromFirst (Entry.inWindow t₁ t₂) l) / rate ≤ v
  total : granted t₁ t₂ l ≤
      burst + rate * (t₂ - t₁) + refunds (between (Entry.inWindow t₁ t₂) l)

theorem grantedIn_of_not_inWindow {e : Entry K} (h : e.inWindow t₁ t₂ = false) :
    e.grantedIn t₁ t₂ = 0 := by
  cases e with
  | refund amount => rfl
  | grant time amount =>
    simp only [Entry.inWindow, decide_eq_false_iff_not] at h
    simp [Entry.grantedIn, h]

theorem granted_of_none (h : ∀ e ∈ l, e.inWindow t₁ t₂ = false) : granted t₁ t₂ l = 0 := by
  unfold granted
  apply List.sum_eq_zero
  intro x hx
  obtain ⟨e, he, rfl⟩ := List.mem_map.1 hx
  exact grantedIn_of_not_inWindow (h e he)

omit [Field K] in
theorem outside_concat {e : Entry K} (hnone : ∀ e ∈ l, e.inWindow t₁ t₂ = false)
    (he : e.inWindow t₁ t₂ = false) : ∀ e' ∈ l ++ [e], e'.inWindow t₁ t₂ = false := by
  intro e' hmem
  rcases List.mem_append.1 hmem with h | h
  · exact hnone e' h
  · obtain rfl := List.mem_singleton.1 h
    exact he

variable [IsStrictOrderedRing K]

/-- An entry outside the window keeps the bound if it lowers `v` by no more than it refunds. -/
theorem Bounded.outside {e : Entry K} {w : K} (h : Bounded rate burst t₁ t₂ l v)
    (hsome : ∃ e ∈ l, e.inWindow t₁ t₂ = true) (he : e.inWindow t₁ t₂ = false)
    (hw : v - e.refunded / rate ≤ w) : Bounded rate burst t₁ t₂ (l ++ [e]) w := by
  obtain ⟨hpushed, htotal⟩ := h
  have hg := grantedIn_of_not_inWindow he
  constructor
  · rw [granted_concat, hg, fromFirst_append hsome, refunds_concat, add_zero, add_div]
    linarith
  · rw [granted_concat, hg, between_concat_false he]
    linarith

/-- A virtual time that has been pushed no further than `t₂` has been pushed by a bounded amount. -/
theorem total_of_pushed (hr : 0 < rate) {S F w : K} (hpushed : t₁ - burst / rate + S / rate - F / rate ≤ w)
    (hw : w ≤ t₂) : S ≤ burst + rate * (t₂ - t₁) + F := by
  have h : (S - burst - F) / rate ≤ t₂ - t₁ := by
    rw [sub_div, sub_div]
    linarith
  rw [div_le_iff₀ hr] at h
  linarith

theorem Bounded.inside {time amount w : K} (hr : 0 < rate) (h : Bounded rate burst t₁ t₂ l v)
    (hsome : ∃ e ∈ l, e.inWindow t₁ t₂ = true) (hin : t₁ ≤ time ∧ time ≤ t₂)
    (hup : v + amount / rate ≤ w) (hceil : w ≤ time) :
    Bounded rate burst t₁ t₂ (l ++ [.grant time amount]) w := by
  have he : Entry.inWindow t₁ t₂ (.grant time amount) = true := by simp [Entry.inWindow, hin]
  have hpushed : t₁ - burst / rate + granted t₁ t₂ (l ++ [.grant time amount]) / rate
      - refunds (fromFirst (Entry.inWindow t₁ t₂) (l ++ [.grant time amount])) / rate ≤ w := by
    have hv := h.pushed
    rw [granted_concat, fromFirst_append hsome, refunds_concat, add_div]
    simp only [Entry.grantedIn, Entry.refunded, hin, and_self, if_true, add_zero]
    linarith
  refine ⟨hpushed, ?_⟩
  rw [between_concat_true he]
  exact total_of_pushed hr hpushed (hceil.trans hin.2)

theorem Bounded.first {time amount w : K} (hr : 0 < rate)
    (hnone : ∀ e ∈ l, e.inWindow t₁ t₂ = false) (hin : t₁ ≤ time ∧ time ≤ t₂)
    (hfloor : time - (burst - amount) / rate ≤ w) (hceil : w ≤ time) :
    Bounded rate burst t₁ t₂ (l ++ [.grant time amount]) w := by
  have he : Entry.inWindow t₁ t₂ (.grant time amount) = true := by simp [Entry.inWindow, hin]
  have hfrom : fromFirst (Entry.inWindow t₁ t₂) (l ++ [.grant time amount]) = [.grant time amount] := by
    rw [fromFirst_append_first hnone]
    simp [fromFirst, he]
  have hpushed : t₁ - burst / rate + granted t₁ t₂ (l ++ [.grant time amount]) / rate
      - refunds (fromFirst (Entry.inWindow t₁ t₂) (l ++ [.grant time amount])) / rate ≤ w := by
    rw [granted_concat, granted_of_none hnone, hfrom]
    simp only [Entry.grantedIn, hin, and_self, if_true, zero_add, refunds, List.map_cons, List.map_nil,
      List.sum_cons, List.sum_nil, Entry.refunded, add_zero, zero_div, sub_zero]
    rw [sub_div] at hfloor
    linarith [hin.1]
  refine ⟨hpushed, ?_⟩
  rw [between_concat_true he]
  exact total_of_pushed hr hpushed (hceil.trans hin.2)

theorem History.bounded (t₁ t₂ : K) (hr : 0 < rate) (h : History rate burst v₀ l v) :
    (∀ e ∈ l, e.inWindow t₁ t₂ = false) ∨
      (∃ e ∈ l, e.inWindow t₁ t₂ = true) ∧ Bounded rate burst t₁ t₂ l v := by
  induction h with
  | start => exact Or.inl (by simp)
  | rise _ hup ih =>
    refine ih.imp_right fun ⟨hsome, hb⟩ => ⟨hsome, ?_, hb.total⟩
    exact hb.pushed.trans hup
  | @entry l v w e _ hm ih =>
    cases e with
    | refund amount =>
      rcases ih with hnone | ⟨⟨e, hmem, hp⟩, hb⟩
      · exact Or.inl (outside_concat hnone rfl)
      · exact Or.inr ⟨⟨e, by simp [hmem], hp⟩, hb.outside ⟨e, hmem, hp⟩ rfl hm⟩
    | grant time amount =>
      obtain ⟨hpos, hup, hfloor, hceil⟩ := hm
      by_cases hin : t₁ ≤ time ∧ time ≤ t₂
      · refine Or.inr ⟨⟨.grant time amount, by simp, by simp [Entry.inWindow, hin]⟩, ?_⟩
        rcases ih with hnone | ⟨hsome, hb⟩
        · exact Bounded.first hr hnone hin hfloor hceil
        · exact hb.inside hr hsome hin hup hceil
      · have he : Entry.inWindow t₁ t₂ (.grant time amount) = false := by
          simpa [Entry.inWindow] using hin
        rcases ih with hnone | ⟨⟨e, hmem, hp⟩, hb⟩
        · exact Or.inl (outside_concat hnone he)
        · have hd : 0 ≤ amount / rate := div_nonneg hpos hr.le
          refine Or.inr ⟨⟨e, by simp [hmem], hp⟩, hb.outside ⟨e, hmem, hp⟩ he ?_⟩
          simp only [Entry.refunded, zero_div, sub_zero]
          linarith

/-- **The window bound.** What a limiter grants in a window is at most its burst, the rate over the
length of the window, and what it got back between the window's first and last grant. -/
theorem window_bound (hr : 0 < rate) (hb : 0 ≤ burst) (ht : t₁ ≤ t₂) (h : History rate burst v₀ l v) :
    granted t₁ t₂ l ≤ burst + rate * (t₂ - t₁) + refunds (between (Entry.inWindow t₁ t₂) l) := by
  rcases h.bounded t₁ t₂ hr with hnone | ⟨-, hbd⟩
  · have hlen : 0 ≤ rate * (t₂ - t₁) := mul_nonneg hr.le (sub_nonneg.2 ht)
    rw [granted_of_none hnone, between_eq_nil hnone, refunds_nil]
    linarith
  · exact hbd.total

/-! ## Nothing before the start -/

/-- Without refunds all that was granted has pushed the limiter up from where it started. -/
theorem History.granted_le_pushed (hr : 0 < rate) (h : History rate burst v₀ l v)
    (hl : ∀ e ∈ l, e.refunded = 0) : granted t₁ t₂ l ≤ rate * (v - v₀) := by
  induction h with
  | start => simp
  | rise _ hup ih => exact (ih hl).trans (mul_le_mul_of_nonneg_left (by linarith) hr.le)
  | @entry l v w e _ hm ih =>
    have hbefore := ih fun e' he => hl e' (List.mem_append_left _ he)
    rw [granted_concat]
    cases e with
    | refund amount =>
      have hzero : amount = 0 := hl (.refund amount) (by simp)
      have hup : v - v₀ ≤ w - v₀ := by
        have hm' : v - amount / rate ≤ w := hm
        rw [hzero, zero_div] at hm'
        linarith
      simpa [Entry.grantedIn] using hbefore.trans (mul_le_mul_of_nonneg_left hup hr.le)
    | grant time amount =>
      obtain ⟨hpos, hup, -, -⟩ := hm
      have hone : Entry.grantedIn t₁ t₂ (.grant time amount) ≤ amount := by
        simp only [Entry.grantedIn]
        split
        · exact le_rfl
        · exact hpos
      have hpush : rate * (v - v₀) + amount ≤ rate * (w - v₀) := by
        have h := mul_le_mul_of_nonneg_left (sub_le_sub_right hup v₀) hr.le
        rw [add_sub_right_comm, mul_add, mul_div_cancel₀ _ hr.ne'] at h
        exact h
      linarith

/-- **Nothing before the start.** Without refunds, the grants up to `t₂` amount to at most the rate over
the time since the limiter's start, or to nothing. -/
theorem History.granted_le_since (hr : 0 < rate) (h : History rate burst v₀ l v)
    (hl : ∀ e ∈ l, e.refunded = 0) :
    granted t₁ t₂ l ≤ 0 ∨ granted t₁ t₂ l ≤ rate * (t₂ - v₀) := by
  induction h with
  | start => exact .inl (by simp)
  | rise _ _ ih => exact ih hl
  | @entry l v w e hh hm ih =>
    have hl' : ∀ e' ∈ l, e'.refunded = 0 := fun e' he => hl e' (List.mem_append_left _ he)
    have hall : ∀ e' ∈ l ++ [e], e'.refunded = 0 := hl
    cases hin : e.inWindow t₁ t₂ with
    | false =>
      rw [granted_concat, grantedIn_of_not_inWindow hin, add_zero]
      exact ih hl'
    | true =>
      -- The last grant of the window has left the limiter no later than `t₂`.
      have hw : w ≤ t₂ := by
        cases e with
        | refund amount => cases hin
        | grant time amount => exact hm.2.2.2.trans (of_decide_eq_true hin).2
      refine .inr (((hh.entry hm).granted_le_pushed hr hall).trans ?_)
      exact mul_le_mul_of_nonneg_left (by linarith) hr.le

end bound
end Ledger
