import Gardal.Reference
/-!
# Changing the limit

Two functions are documented to change the limit "while preserving available tokens". A zero time means
a number of tokens only together with a rate and a burst, so preserving them takes both limits:

| function | balance read under | written under |
| --- | --- | --- |
| `TokenBucket::reset`, `update_limit` | the handle's limit | the new limit |
| `RawTokenBucket::reset` | the new limit, at least zero | the new limit |

`raw_reset_preserves_iff` says when the second does what the first does. Where the storage is shared the
zero time is every handle's and the limit is not: the other handles go on reading the new zero time under
the old limit, and `others_see_no_more_iff` says when that shows them no more tokens than before.
-/
namespace Gardal
open Cell TokenBucketStorage

/-! ## The two resets -/

/-- `RawTokenBucket::reset` to `new` leaves the tokens there were under `old`, as far as they fit, and so
what `TokenBucket::reset` leaves. -/
def ResetPreserves (fuel : Nat) (old new : Limit) (now zt : ℚ) : Prop :=
  ∃ zt₁ zt₂, (RawTokenBucket.reset new now).runLocal fuel zt = some ((), zt₁) ∧
    (TokenBucket.reset old new now).runLocal fuel zt = some ((), zt₂) ∧
    new.balance now zt₁ = min (old.balance now zt) new.burst ∧
    new.balance now zt₁ = new.balance now zt₂

/-- The bucket is not in debt, and the time since the zero time is worth the same under both limits: it
is none; or the rate stays and the bucket is not overfull; or it is full and the new rate makes exactly
the old burst of it; or it fills the new burst at either rate and the old burst is no smaller. -/
def SameTokens (old new : Limit) (now zt : ℚ) : Prop :=
  zt ≤ now ∧ (zt = now ∨
    (new.rate = old.rate ∧ (now - zt) * old.rate ≤ old.burst) ∨
    (old.burst ≤ (now - zt) * old.rate ∧ (now - zt) * new.rate = old.burst) ∨
    (new.burst ≤ old.burst ∧ new.burst ≤ (now - zt) * old.rate ∧ new.burst ≤ (now - zt) * new.rate))

section
variable {old new : Limit} {now zt : ℚ}

/-- What `RawTokenBucket::reset` leaves. -/
theorem raw_reset_balance :
    new.balance now (now - max (new.balance now zt) 0 / new.rate) = max (new.balance now zt) 0 := by
  rw [new.balance_set, min_eq_left (max_le new.balance_le_burst new.burst_pos.le)]

/-- When the new limit finds the tokens the old one did. -/
theorem sameTokens_iff :
    max (new.balance now zt) 0 = min (old.balance now zt) new.burst ↔ SameTokens old new now zt := by
  have hb := new.burst_pos
  unfold SameTokens
  rcases lt_or_ge now zt with hdebt | hle
  · -- A debt is forgotten.
    refine iff_of_false (fun h => ?_) fun h => not_le.2 hdebt h.1
    have hneg : min (old.balance now zt) new.burst < 0 := min_lt_of_left_lt (old.balance_neg_iff.2 hdebt)
    exact absurd (h ▸ le_max_right _ _) (not_le.2 hneg)
  · rw [and_iff_right hle]
    have hx : 0 ≤ now - zt := sub_nonneg.2 hle
    have hnew : 0 ≤ new.balance now zt := le_min (mul_nonneg hx new.rate_pos.le) hb.le
    rw [max_eq_left hnew]
    unfold Limit.balance balanceOf
    constructor
    · intro h
      rcases le_or_gt new.burst ((now - zt) * new.rate) with hfull | hpart
      · -- Both sides are the new burst.
        rw [min_eq_right hfull, eq_comm, min_eq_right_iff] at h
        exact .inr (.inr (.inr ⟨h.trans (min_le_right _ _), h.trans (min_le_left _ _), hfull⟩))
      · have hold : (now - zt) * new.rate = min ((now - zt) * old.rate) old.burst := by
          rw [min_eq_left hpart.le] at h
          rcases min_choice (min ((now - zt) * old.rate) old.burst) new.burst with he | he
          · exact h.trans he
          · exact absurd (h.trans he) hpart.ne
        rcases le_total ((now - zt) * old.rate) old.burst with ho | ho
        · rw [min_eq_left ho] at hold
          rcases eq_or_lt_of_le hx with h0 | hpos
          · exact .inl (sub_eq_zero.1 h0.symm).symm
          · exact .inr (.inl ⟨mul_left_cancel₀ hpos.ne' hold, ho⟩)
        · rw [min_eq_right ho] at hold
          exact .inr (.inr (.inl ⟨ho, hold⟩))
    · rintro (rfl | ⟨hr, ho⟩ | ⟨ho, hn⟩ | ⟨hbb, ho, hn⟩)
      · simp [old.burst_pos.le]
      · rw [hr, min_eq_left ho]
      · rw [hn, min_eq_right ho]
      · rw [min_eq_right hn, min_eq_right (le_min ho hbb)]

end

/-- **When `RawTokenBucket::reset` preserves the tokens** and agrees with `TokenBucket::reset`. -/
theorem raw_reset_preserves_iff (fuel : Nat) (old new : Limit) (now zt : ℚ) :
    ResetPreserves fuel old new now zt ↔ SameTokens old new now zt := by
  rw [← sameTokens_iff]
  constructor
  · rintro ⟨zt₁, zt₂, h₁, -, hkeeps, -⟩
    cases h₁
    rw [← raw_reset_balance]
    exact hkeeps
  · intro h
    refine ⟨_, _, rfl, rfl, ?_, ?_⟩
    · exact raw_reset_balance.trans h
    · rw [raw_reset_balance, new.balance_set]
      exact h

/-- Five tokens under ten a second, reset to one a second: half a token is left of them, where
`TokenBucket::reset` leaves all five. -/
theorem raw_reset_loses_tokens :
    let old := Limit.perSecond ⟨10, by decide⟩
    let new := Limit.perSecondAndBurst ⟨1, by decide⟩ ⟨10, by decide⟩
    old.balance (1 / 2) 0 = 5 ∧
      (RawTokenBucket.reset new (1 / 2)).runLocal 1 0 = some ((), 0) ∧ new.balance (1 / 2) 0 = 1 / 2 ∧
      (TokenBucket.reset old new (1 / 2)).runLocal 1 0 = some ((), -9 / 2) ∧
      new.balance (1 / 2) (-9 / 2) = 5 ∧ ¬ ResetPreserves 1 old new (1 / 2) 0 := by
  intro old new
  refine ⟨by decide +kernel, by decide +kernel, by decide +kernel, by decide +kernel, by decide +kernel, ?_⟩
  rintro ⟨zt₁, zt₂, h₁, -, hkeeps, -⟩
  cases h₁
  revert hkeeps
  decide +kernel

/-! ## Handles that share a storage -/

/-- Handles over one shared storage: the zero time is theirs together, the limit each one's own. -/
structure Handles (ι : Type) where
  zeroTime : ℚ
  limit : ι → Limit

namespace Handles
variable {ι : Type} (h : Handles ι)

/-- A bucket and its clones. -/
def clones (limit : Limit) (zeroTime : ℚ) : Handles ι := ⟨zeroTime, fun _ => limit⟩

/-- The balance handle `i` sees. -/
def balance (i : ι) (now : ℚ) : ℚ := (h.limit i).balance now h.zeroTime

/-- An operation of handle `i`. -/
def perform [DecidableEq ι] (fuel : Nat) (i : ι) (op : Op) (now : ℚ) :
    Option (Option Response × Handles ι) := do
  let (r, b) ← TokenBucket.perform fuel ⟨h.limit i, h.zeroTime⟩ op now
  return (r, ⟨b.zeroTime, Function.update h.limit i b.limit⟩)

end Handles

/-- The bucket is full, or empty, or neither and the rate does not go down, or in debt and the rate does
not go up. -/
def NoGain (old new : Limit) (now zt : ℚ) : Prop :=
  old.burst ≤ (now - zt) * old.rate ∨ zt = now ∨ (zt < now ∧ old.rate ≤ new.rate) ∨
    (now < zt ∧ new.rate ≤ old.rate)

section
variable {old new : Limit} {now zt : ℚ}

/-- The tokens under the old limit, once they are stored at the new rate. -/
theorem balance_restored (b : ℚ) :
    old.balance now (now - b / new.rate) = min (b * old.rate / new.rate) old.burst := by
  have hb : b / new.rate = b * old.rate / new.rate / old.rate := by
    have := old.rate_pos.ne'
    field_simp
  rw [hb, old.balance_set]

theorem scaled_le_iff {b : ℚ} :
    b * old.rate / new.rate ≤ b ↔ b = 0 ∨ (0 < b ∧ old.rate ≤ new.rate) ∨ (b < 0 ∧ new.rate ≤ old.rate) := by
  rw [div_le_iff₀ new.rate_pos]
  rcases lt_trichotomy b 0 with hb | rfl | hb
  · rw [mul_le_mul_left_of_neg hb]
    simp [hb, hb.ne, hb.not_gt]
  · simp
  · rw [mul_le_mul_iff_right₀ hb]
    simp [hb, hb.ne', hb.not_gt]

theorem noGain_iff : old.balance now (now - old.balance now zt / new.rate) ≤ old.balance now zt ↔
    NoGain old new now zt := by
  have hfull : old.burst ≤ old.balance now zt ↔ old.burst ≤ (now - zt) * old.rate := by
    unfold Limit.balance balanceOf
    rw [le_min_iff, and_iff_left le_rfl]
  have hpos : 0 < old.balance now zt ↔ zt < now := by
    rw [← not_le, old.balance_nonpos_iff, not_le]
  have hnonneg : 0 ≤ old.balance now zt ↔ zt ≤ now := by
    rw [← not_lt, old.balance_neg_iff, not_lt]
  have hzero : old.balance now zt = 0 ↔ zt = now := by
    rw [le_antisymm_iff, old.balance_nonpos_iff, hnonneg, and_comm, ← le_antisymm_iff]
  rw [balance_restored, min_le_iff, scaled_le_iff, hfull, hpos, hzero, old.balance_neg_iff]
  exact or_comm

end

/-- **When the other handles see no more tokens** after one handle changes its limit by `reset` or
`update_limit`. -/
theorem others_see_no_more_iff {ι : Type} [DecidableEq ι] (fuel : Nat) (old new : Limit) (zt now : ℚ)
    {i j : ι} (hij : j ≠ i) {op : Op} (hop : op = .reset new ∨ op = .updateLimit new) :
    ∃ r h, (Handles.clones old zt).perform fuel i op now = some (r, h) ∧
      (h.balance j now ≤ (Handles.clones (ι := ι) old zt).balance j now ↔ NoGain old new now zt) := by
  have hlimit : Function.update (fun _ => old) i new j = old := Function.update_of_ne hij _ _
  have hrun : (Handles.clones old zt).perform fuel i op now =
      some (none, ⟨now - old.balance now zt / new.rate, Function.update (fun _ => old) i new⟩) := by
    rcases hop with rfl | rfl <;> rfl
  refine ⟨_, _, hrun, ?_⟩
  simp only [Handles.balance, hlimit]
  exact noGain_iff

/-- Two handles with two tokens between them, and one of them goes over to twice the rate. -/
theorem others_see_no_more_double :
    ∃ r h, (Handles.clones (.perSecond ⟨4, by decide⟩) 0).perform 1 true
        (.updateLimit (.perSecond ⟨8, by decide⟩)) (1 / 2) = some (r, h) ∧
      (h.balance false (1 / 2) ≤
          (Handles.clones (ι := Bool) (.perSecond ⟨4, by decide⟩) 0).balance false (1 / 2) ↔
        NoGain (.perSecond ⟨4, by decide⟩) (.perSecond ⟨8, by decide⟩) (1 / 2) 0) :=
  others_see_no_more_iff 1 _ _ 0 (1 / 2) (by decide) (.inr rfl)

/-- Two handles at ten tokens a second with five tokens between them; one of them is reset to one token a
second. The other one sees fifty tokens at that instant, and can take them. -/
theorem reset_creates_tokens :
    let h := Handles.clones (.perSecondAndBurst ⟨10, by decide⟩ ⟨50, by decide⟩) 0
    let take : Op := .call (.consume ⟨50, by decide⟩)
    h.balance true (1 / 2) = 5 ∧
      (h.perform 2 true take (1 / 2)).map Prod.fst = some (some (.consume none)) ∧
      ∃ r h', h.perform 2 false (.reset (.perSecond ⟨1, by decide⟩)) (1 / 2) = some (r, h') ∧
        h'.balance true (1 / 2) = 50 ∧
        (h'.perform 2 true take (1 / 2)).map Prod.fst = some (some (.consume (some ⟨50⟩))) ∧
        ¬ h'.balance true (1 / 2) ≤ h.balance true (1 / 2) := by
  intro h take
  have hold : h.balance true (1 / 2) = 5 := by decide +kernel
  have hnew : Handles.balance (ι := Bool) ⟨-9 / 2, Function.update h.limit false (.perSecond ⟨1, by decide⟩)⟩
      true (1 / 2) = 50 := by decide +kernel
  refine ⟨hold, by decide +kernel, none, _, ?_, hnew, ?_, ?_⟩
  · have hzt : (-9 / 2 : ℚ) = 1 / 2 - (Limit.perSecondAndBurst ⟨10, by decide⟩ ⟨50, by decide⟩).balance
        (1 / 2) 0 / (Limit.perSecond ⟨1, by decide⟩).rate := by decide +kernel
    rw [hzt]
    rfl
  · decide +kernel
  · rw [hnew, hold]
    decide +kernel

end Gardal
