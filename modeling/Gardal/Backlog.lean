import Mathlib.Algebra.Order.Group.Defs
import Mathlib.Algebra.Order.Monoid.Unbundled.MinMax
import Mathlib.Algebra.BigOperators.Group.List.Basic
/-!
# The level of a queue, unrolled

A queue that is served at a constant rate, a debt that is paid off over time, a clock that may not run
ahead of the next event: each arrival lifts the level to a floor of its own, and then by its size.

`level_lt_iff` unrolls the recursion: the level ends below a bound if and only if every stretch of arrivals
that goes on to the end does, started from the floor of its first one. `stays_iff` says the same of a bound
that is kept after each arrival.
-/
namespace Backlog
variable {α β : Type} [AddCommGroup α] [LinearOrder α] [IsOrderedAddMonoid α] (floor size bound : β → α)

/-- The level after some arrivals. -/
def level (v : α) (l : List β) : α := l.foldl (fun v x => max v (floor x) + size x) v

/-- What the arrivals add together. -/
def load (l : List β) : α := (l.map size).sum

/-- After each of the arrivals the level is below the arrival's bound. -/
def Stays : α → List β → Prop
  | _, [] => True
  | v, x :: l => max v (floor x) + size x < bound x ∧ Stays (max v (floor x) + size x) l

omit [LinearOrder α] [IsOrderedAddMonoid α] in
@[simp] theorem load_nil : load size ([] : List β) = 0 := rfl

omit [LinearOrder α] [IsOrderedAddMonoid α] in
@[simp] theorem load_cons (x : β) (l : List β) : load size (x :: l) = size x + load size l := List.sum_cons

omit [IsOrderedAddMonoid α] in
@[simp] theorem level_cons (v : α) (x : β) (l : List β) :
    level floor size v (x :: l) = level floor size (max v (floor x) + size x) l := rfl

theorem level_lt_iff {T : α} (v : α) (l : List β) :
    level floor size v l < T ↔
      v + load size l < T ∧ ∀ x s, x :: s <:+ l → floor x + load size (x :: s) < T := by
  induction l generalizing v with
  | nil => simp [level]
  | cons y l ih =>
    have hstep : max v (floor y) + size y + load size l < T ↔
        v + load size (y :: l) < T ∧ floor y + load size (y :: l) < T := by
      rw [load_cons, ← max_lt_iff, max_add_add_right, add_assoc]
    rw [level_cons, ih, hstep, and_assoc]
    refine and_congr_right fun _ => ?_
    constructor
    · rintro ⟨hall, hrest⟩ x s hs
      rcases List.suffix_cons_iff.1 hs with he | hs
      · cases he
        exact hall
      · exact hrest x s hs
    · intro h
      exact ⟨h y l List.suffix_rfl, fun x s hs => h x s (hs.trans (List.suffix_cons y l))⟩

omit [IsOrderedAddMonoid α] in
theorem stays_iff_level (v : α) (l : List β) :
    Stays floor size bound v l ↔
      ∀ p x, p ++ [x] <+: l → level floor size v (p ++ [x]) < bound x := by
  induction l generalizing v with
  | nil => simp [Stays]
  | cons y l ih =>
    rw [Stays, ih]
    constructor
    · rintro ⟨hfirst, hrest⟩ p x hp
      cases p with
      | nil =>
        obtain rfl : x = y := (List.cons_prefix_cons.1 hp).1
        exact hfirst
      | cons z p =>
        obtain ⟨rfl, hp'⟩ := List.cons_prefix_cons.1 hp
        exact hrest p x hp'
    · intro h
      refine ⟨h [] y (List.cons_prefix_cons.2 ⟨rfl, List.nil_prefix⟩), fun p x hp => ?_⟩
      exact h (y :: p) x (List.cons_prefix_cons.2 ⟨rfl, hp⟩)

/-- **The level, unrolled.** -/
theorem stays_iff (v : α) (l : List β) :
    Stays floor size bound v l ↔
      (∀ p x, p ++ [x] <+: l → v + load size (p ++ [x]) < bound x) ∧
      ∀ s (h : s ≠ []), s <:+: l → floor (s.head h) + load size s < bound (s.getLast h) := by
  rw [stays_iff_level]
  simp only [level_lt_iff]
  constructor
  · intro h
    refine ⟨fun p x hp => (h p x hp).1, fun s hs hin => ?_⟩
    obtain ⟨t, hst, htl⟩ := List.infix_iff_suffix_prefix.1 hin
    obtain ⟨y, s, rfl⟩ := List.exists_cons_of_ne_nil hs
    -- The prefix that the stretch ends has the same last arrival.
    have hne : t ≠ [] := fun he => by simp [he] at hst
    have hlast : (y :: s).getLast hs = t.getLast hne := hst.getLast hs
    have hsplit : t.dropLast ++ [t.getLast hne] = t := List.dropLast_append_getLast hne
    rw [hlast]
    exact (h t.dropLast (t.getLast hne) (hsplit.symm ▸ htl)).2 y s (hsplit.symm ▸ hst)
  · rintro ⟨hall, hstretch⟩ p x hp
    refine ⟨hall p x hp, fun y s hs => ?_⟩
    have hlast : (y :: s).getLast (List.cons_ne_nil y s) = x := by
      rw [hs.getLast (List.cons_ne_nil y s), List.getLast_append_singleton]
    have h := hstretch (y :: s) (List.cons_ne_nil y s) (List.infix_iff_suffix_prefix.2 ⟨_, hs, hp⟩)
    rwa [hlast] at h

end Backlog
