import Mathlib.Data.List.DropRight
/-!
# The part of a list between the first and the last element with a property

`between p l` starts at the first element of `l` with `p` and ends at the last. The lemmas say what
an element added at the end does to it.
-/
namespace Stretch
variable {α : Type} (p : α → Bool)

/-- The list from the first element with `p` on. -/
def fromFirst (l : List α) : List α := l.dropWhile fun x => !p x

/-- The part of the list between the first and the last element with `p`, both included. -/
def between (l : List α) : List α := (fromFirst p l).rdropWhile fun x => !p x

variable {p}

theorem fromFirst_eq_nil {l : List α} (h : ∀ x ∈ l, p x = false) : fromFirst p l = [] := by
  unfold fromFirst
  rw [List.dropWhile_eq_nil_iff]
  intro x hx
  simp [h x hx]

theorem between_eq_nil {l : List α} (h : ∀ x ∈ l, p x = false) : between p l = [] := by
  simp [between, fromFirst_eq_nil h]

theorem fromFirst_append {l : List α} (h : ∃ x ∈ l, p x = true) (l' : List α) :
    fromFirst p (l ++ l') = fromFirst p l ++ l' := by
  obtain ⟨x, hx, hp⟩ := h
  unfold fromFirst
  rw [List.dropWhile_append]
  have hne : (l.dropWhile fun x => !p x).isEmpty = false := by
    rw [List.isEmpty_eq_false_iff, ne_eq, List.dropWhile_eq_nil_iff]
    intro hall
    simpa [hp] using hall x hx
  simp [hne]

theorem fromFirst_append_first {l : List α} (h : ∀ x ∈ l, p x = false) (l' : List α) :
    fromFirst p (l ++ l') = fromFirst p l' := by
  unfold fromFirst
  rw [List.dropWhile_append]
  have hnil := fromFirst_eq_nil h
  unfold fromFirst at hnil
  simp [hnil]

theorem between_concat_true {e : α} (he : p e = true) (l : List α) :
    between p (l ++ [e]) = fromFirst p (l ++ [e]) := by
  unfold between
  by_cases h : ∃ x ∈ l, p x = true
  · rw [fromFirst_append h, List.rdropWhile_concat_neg _ _ _ (by simp [he])]
  · have hall : ∀ x ∈ l, p x = false := by simpa using h
    rw [fromFirst_append_first hall]
    simp [fromFirst, he, List.rdropWhile]

theorem between_concat_false {e : α} (he : p e = false) (l : List α) :
    between p (l ++ [e]) = between p l := by
  unfold between
  by_cases h : ∃ x ∈ l, p x = true
  · rw [fromFirst_append h, List.rdropWhile_concat_pos _ _ _ (by simp [he])]
  · have hall : ∀ x ∈ l, p x = false := by simpa using h
    rw [fromFirst_append_first hall, fromFirst_eq_nil hall]
    simp [fromFirst, he]

theorem between_sublist_fromFirst (l : List α) : (between p l).Sublist (fromFirst p l) :=
  (List.rdropWhile_prefix _ _).sublist

theorem between_sublist (l : List α) : (between p l).Sublist l :=
  (between_sublist_fromFirst l).trans (List.dropWhile_sublist _)

/-- What lies between stays between as the list grows. -/
theorem mem_between_append {x : α} {l : List α} (h : x ∈ between p l) (l' : List α) :
    x ∈ between p (l ++ l') := by
  induction l' generalizing l with
  | nil => simpa using h
  | cons e l' ih =>
    have hcons : l ++ e :: l' = l ++ [e] ++ l' := by simp
    rw [hcons]
    refine ih ?_
    cases he : p e with
    | false => rwa [between_concat_false he]
    | true =>
      rw [between_concat_true he]
      by_cases hex : ∃ y ∈ l, p y = true
      · rw [fromFirst_append hex]
        exact List.mem_append_left _ ((between_sublist_fromFirst l).subset h)
      · rw [between_eq_nil (by simpa using hex)] at h
        cases h

end Stretch
