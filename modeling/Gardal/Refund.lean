import Gardal.Reference
/-!
# What a call reports, and giving it back

A caller is told the tokens it took as a `Tokens`, and `Tokens` gives out whole numbers only: `as_u64` cuts
the fraction off, and so does the conversion that `add_tokens` is called through. `consume` and
`try_consume` take whole amounts. `saturating_consume` takes what there is, which need not be one: of half
a token it reports none, takes the half, and returning what it reported returns nothing.
-/
namespace Gardal
open Cell TokenBucketStorage RawTokenBucket

/-- The calls whose answer is the tokens they took. -/
inductive Taking
  | consume | tryConsume | saturatingConsume
  deriving DecidableEq, Repr

def Taking.call (k : NonZeroU32) : Taking → Call
  | consume => .consume k
  | tryConsume => .tryConsume k
  | saturatingConsume => .saturatingConsume k

/-! ## Whole amounts -/

namespace Tokens

theorem asU64_natCast {n : Nat} (h : n < UInt64.size) : (Tokens.mk n).asU64.toNat = n := by
  have hfloor : (n : ℚ).floor = n := by exact_mod_cast Rat.floor_intCast n
  rw [asU64, hfloor, Int.toNat_natCast, UInt64.ofNatClamp_eq_ofNat _ h, UInt64.toNat_ofNat_of_lt' h]

/-- What is reported of an amount that a request can ask for. -/
theorem toF64_eq_iff {value : ℚ} (h0 : 0 ≤ value) (hk : value < UInt64.size) :
    (Tokens.mk value).toF64 = value ↔ ∃ n : Nat, value = n := by
  constructor
  · intro h
    exact ⟨_, h.symm⟩
  · rintro ⟨n, rfl⟩
    rw [toF64, asU64_natCast (by exact_mod_cast hk)]

end Tokens

theorem NonZeroU32.toRat_lt (k : NonZeroU32) : k.toRat < UInt64.size := by
  have h : k.val.toNat < UInt64.size := k.val.toNat_lt.trans (by decide)
  unfold toRat
  exact_mod_cast h

namespace Limit
variable (limit : Limit) {now t zt c : ℚ}

/-- Applying the cap early is not seen later. -/
theorem balance_capped (ht : now ≤ t) : limit.balance t (limit.capped now zt) = limit.balance t zt := by
  have hcap : limit.capped t (limit.capped now zt) = limit.capped t zt := by
    unfold capped
    rw [max_assoc, max_eq_right (a := now - limit.burst / limit.rate) (by linarith)]
  rw [balance_eq, balance_eq, hcap]

/-- Taking `c` tokens and returning as many leaves nothing to see of either. -/
theorem balance_charged_refund (ht : now ≤ t) :
    limit.balance t (limit.charged now zt c - c / limit.rate) = limit.balance t zt := by
  rw [charged, add_sub_cancel_right, balance_capped limit ht]

end Limit

/-! ## Reporting and returning -/

/-- What a call that found the zero time `zt` reports is at least one token, is by how much the balance
fell, and puts the balance back when it is returned at once. -/
def Undone (fuel : Nat) (limit : Limit) (req : Request) (zt : ℚ) : Prop :=
  ∃ r zt₁, (req.code limit).runLocal fuel zt = some (r, zt₁) ∧ ∀ tokens, r.tokens = some tokens →
    1 ≤ tokens.asU64 ∧
    limit.balance req.now zt₁ = limit.balance req.now zt - tokens.asU64.toNat ∧
    ∃ zt₂, (addTokens tokens.toF64 limit).runLocal fuel zt₁ = some ((), zt₂) ∧
      ∀ t, req.now ≤ t → limit.balance t zt₂ = limit.balance t zt

/-- The call takes a whole number of tokens: all `k`, none, or what there is of them. -/
def TakesWhole (way : Taking) (limit : Limit) (k : NonZeroU32) (now zt : ℚ) : Prop :=
  way ≠ .saturatingConsume ∨ limit.balance now zt ≤ 0 ∨ k.toRat ≤ limit.balance now zt ∨
    ∃ n : Nat, limit.balance now zt = n

section
variable {limit : Limit} {k : NonZeroU32} {now zt : ℚ} {fuel : Nat}

theorem addTokens_runLocal (hf : 0 < fuel) (tokens : ℚ) :
    (addTokens tokens limit).runLocal fuel zt = some ((), zt - tokens / limit.rate) := by
  simp only [addTokens, Prog.bind_eq_bind, Prog.runLocal_bind (returnTokens_runLocal hf _ _),
    Prog.pure_eq_ret, Prog.runLocal_ret]

/-- A call that takes nothing has nothing to undo. -/
theorem undone_refused {req : Request} {r : Response} {zt₁ : ℚ}
    (h : (req.code limit).runLocal fuel zt = some (r, zt₁)) (hr : r.tokens = none) :
    Undone fuel limit req zt := by
  refine ⟨r, zt₁, h, fun tokens ht => ?_⟩
  rw [hr] at ht
  cases ht

/-- A call that takes some tokens is undone when the reported number is the one taken. -/
theorem undone_taken_iff (hf : 0 < fuel) {req : Request} {r : Response} {value : ℚ} (hpos : 0 < value)
    (hsize : value < UInt64.size) (hr : r.tokens = some ⟨value⟩)
    (h : (req.code limit).runLocal fuel zt = some (r, limit.charged req.now zt value)) :
    Undone fuel limit req zt ↔ ∃ n : Nat, value = n := by
  rw [← Tokens.toF64_eq_iff hpos.le hsize]
  constructor
  · rintro ⟨r', zt₁, h', hall⟩
    rw [h, Option.some.injEq, Prod.mk.injEq] at h'
    obtain ⟨rfl, rfl⟩ := h'
    obtain ⟨-, hfell, -⟩ := hall _ hr
    rw [limit.balance_charged _ _ hpos.le] at hfell
    exact (sub_right_injective hfell).symm
  · intro hwhole
    refine ⟨r, _, h, fun tokens ht => ?_⟩
    rw [hr, Option.some.injEq] at ht
    subst ht
    have hone : 0 < (Tokens.mk value).asU64.toNat := by
      have : (0 : ℚ) < (Tokens.mk value).asU64.toNat := hpos.trans_eq hwhole.symm
      exact_mod_cast this
    refine ⟨?_, ?_, _, addTokens_runLocal hf _, fun t ht => ?_⟩
    · exact UInt64.le_iff_toNat_le.2 hone
    · rw [limit.balance_charged _ _ hpos.le]
      exact congrArg _ hwhole.symm
    · rw [hwhole]
      exact limit.balance_charged_refund ht

end

/-- **Which calls can be undone.** Exactly those that take a whole number of tokens. -/
theorem undone_iff (way : Taking) (limit : Limit) (k : NonZeroU32) (now zt : ℚ) {fuel : Nat}
    (hf : 2 ≤ fuel) :
    Undone fuel limit ⟨way.call k, now⟩ zt ↔ TakesWhole way limit k now zt := by
  have hrun := code_runLocal limit ⟨way.call k, now⟩ hf zt
  have hf0 : 0 < fuel := by omega
  unfold TakesWhole
  cases way with
  | consume | tryConsume =>
    refine iff_of_true ?_ (.inl (by decide))
    simp only [Taking.call, Request.outcome] at hrun ⊢
    by_cases h : limit.balance now zt < k.toRat
    · rw [if_pos h] at hrun
      exact undone_refused hrun rfl
    · rw [if_neg h] at hrun
      exact (undone_taken_iff hf0 k.toRat_pos k.toRat_lt rfl hrun).2 ⟨_, rfl⟩
  | saturatingConsume =>
    rw [or_iff_right (not_not.2 rfl)]
    simp only [Taking.call, Request.outcome] at hrun ⊢
    by_cases h : limit.balance now zt ≤ 0
    · rw [if_pos h] at hrun
      exact iff_of_true (undone_refused hrun rfl) (.inl h)
    · rw [if_neg h] at hrun
      have hpos : 0 < min (limit.balance now zt) k.toRat := lt_min (not_le.1 h) k.toRat_pos
      have hsize : min (limit.balance now zt) k.toRat < UInt64.size := min_lt_of_right_lt k.toRat_lt
      rw [undone_taken_iff hf0 hpos hsize rfl hrun, or_iff_right h]
      rcases le_or_gt k.toRat (limit.balance now zt) with hk | hk
      · rw [min_eq_right hk]
        exact iff_of_true ⟨_, rfl⟩ (.inl hk)
      · rw [min_eq_left hk.le, or_iff_right (not_le.2 hk)]

/-- Three tokens asked for with two there: `saturating_consume` takes the two, and they can be given back. -/
theorem undone_two :
    Undone 2 (.perSecondAndBurst ⟨1, by decide⟩ ⟨5, by decide⟩)
        ⟨Taking.saturatingConsume.call ⟨3, by decide⟩, 2⟩ 0 ↔
      TakesWhole .saturatingConsume (.perSecondAndBurst ⟨1, by decide⟩ ⟨5, by decide⟩) ⟨3, by decide⟩ 2 0 :=
  undone_iff _ _ _ _ _ le_rfl

/-- Half a second after it was empty, with one token a second: `saturating_consume(1)` takes the half
token and reports a number of tokens that `as_u64` gives as zero. -/
theorem half_token_lost :
    let limit := Limit.perSecond ⟨1, by decide⟩
    let req : Request := ⟨.saturatingConsume ⟨1, by decide⟩, 1 / 2⟩
    (req.code limit).runLocal 2 0 = some (.saturatingConsume (some ⟨1 / 2⟩), 1 / 2) ∧
      (Tokens.mk (1 / 2)).asU64 = 0 ∧ limit.balance (1 / 2) 0 = 1 / 2 ∧
      limit.balance (1 / 2) (1 / 2) = 0 ∧ ¬ Undone 2 limit req 0 := by
  intro limit req
  have hrun : (req.code limit).runLocal 2 0 = some (.saturatingConsume (some ⟨1 / 2⟩), 1 / 2) := by
    decide +kernel
  have hzero : (Tokens.mk (1 / 2)).asU64 = 0 := by decide +kernel
  refine ⟨hrun, hzero, by decide +kernel, by decide +kernel, ?_⟩
  rintro ⟨r, zt₁, h, hall⟩
  rw [hrun, Option.some.injEq, Prod.mk.injEq] at h
  obtain ⟨rfl, rfl⟩ := h
  have hone := (hall _ rfl).1
  rw [hzero] at hone
  exact absurd hone (by decide)

end Gardal
