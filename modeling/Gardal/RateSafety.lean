import Gardal.Rules
/-!
# Rate safety under concurrency

Threads share the zero time and make the calls of `Call` with whatever clock readings they have.
`rate_safety` bounds what `consume`, `try_consume` and `saturating_consume` grant for clock readings in
a window, in every interleaving.

The protocol (`rateProtocol`) lets a call raise the zero time as often as it likes (draining and
borrowing do nothing else to it), and lets it make one move of a `Ledger.History`, after which it must
return. The ledger of a run is then the list of its finished calls: a call commits in its last
access and returns in the turn of that access, so calls return in the order in which they commit.
-/
namespace Gardal
open Cell Stretch Ledger TokenBucketStorage RawTokenBucket

/-- What a finished call enters in the ledger: its grant at its clock reading, or its refund. Calls
that were refused enter nothing, and neither do calls that borrow. -/
def Request.entry (req : Request) : Response → Option (Entry ℚ)
  | .consume (some tokens) => some (.grant req.now tokens.value)
  | .tryConsume (.ok tokens) => some (.grant req.now tokens.value)
  | .saturatingConsume (some tokens) => some (.grant req.now tokens.value)
  | .addTokens =>
    match req.call with
    | .addTokens tokens => some (.refund tokens)
    | _ => none
  | _ => none

/-- The ledger of the calls that have finished. -/
def ledger {ι : Type} (calls : List (Returned ι Request Response)) : List (Entry ℚ) :=
  calls.filterMap fun x => x.request.entry x.response

/-! ## The protocol -/

/-- The ghost state of a call is the entry it has made, if any. -/
def rateProtocol (limit : Limit) : Protocol ℚ Site (Option (Entry ℚ)) where
  knows _ _ := True
  move g _ d g' := g = none ∧
    match g' with
    | none => d.before ≤ d.after
    | some e => e.Moves limit.rate limit.burst d.before d.after
  learns _ _ := trivial
  stable _ _ _ := trivial

section
variable {limit : Limit} {site : Site} {d : Deed ℚ} {e : Entry ℚ} {v w : ℚ}

theorem rate_read (hw : d.writes = false) : (rateProtocol limit).move none site d none :=
  ⟨rfl, (d.after_eq_before hw).ge⟩

theorem rate_raise (h : v ≤ w) : (rateProtocol limit).move none site (.exchange v w) none := ⟨rfl, h⟩

theorem rate_entry (h : e.Moves limit.rate limit.burst v w) :
    (rateProtocol limit).move none site (.exchange v w) (some e) := ⟨rfl, h⟩

theorem rate_load : (rateProtocol limit).move none site (.load v) none := ⟨rfl, le_rfl⟩

end

/-! ## Every call keeps to it -/

section
variable (limit : Limit) (now : ℚ) {k : ℚ}

theorem consume_exactly_rate (hk : 0 < k) :
    (TokenBucketStorage.consume limit.rate limit.burst now (exactly k)).wp (rateProtocol limit)
      (fun c g => (c = 0 ∧ g = none) ∨ (c = k ∧ g = some (.grant now k))) none := by
  refine consume_exactly_wp hk (fun v _ _ d _ hw => ⟨none, rate_read hw, Or.inl ⟨rfl, rfl⟩⟩)
    fun v _ hle => ?_
  exact ⟨⟨some (.grant now k), rate_entry (limit.charged_moves_now hk.le hle), Or.inr ⟨rfl, rfl⟩⟩,
    fun d _ hw => rate_read hw⟩

theorem consume2_exactly_rate (hk : 0 < k) :
    (consume2 limit.rate limit.burst now (exactly k)).wp (rateProtocol limit)
      (fun a g => (∃ zt, a = .zeroedAt zt ∧ g = none) ∨ (a = .acquired k ∧ g = some (.grant now k)))
      none := by
  refine consume2_exactly_wp hk (fun v _ _ d _ hw => ⟨none, rate_read hw, Or.inl ⟨v, rfl, rfl⟩⟩)
    fun v _ hle => ?_
  exact ⟨⟨some (.grant now k), rate_entry (limit.charged_moves_now hk.le hle), Or.inr ⟨rfl, rfl⟩⟩,
    fun d _ hw => rate_read hw⟩

theorem saturatingConsumeInner_rate (hk : 0 < k) :
    (saturatingConsumeInner k now limit).wp (rateProtocol limit)
      (fun c g => (c = 0 ∧ g = none) ∨ (0 < c ∧ g = some (.grant now c))) none := by
  refine saturatingConsumeInner_wp hk (fun v _ _ d _ hw => ⟨none, rate_read hw, Or.inl ⟨rfl, rfl⟩⟩)
    fun v c _ _ hc _ hca => ?_
  exact ⟨⟨some (.grant now c), rate_entry (limit.charged_moves_now hc.le hca), Or.inr ⟨hc, rfl⟩⟩,
    fun d _ hw => rate_read hw⟩

theorem returnTokens_rate (tokens : ℚ) :
    (returnTokens tokens limit.rate).wp (rateProtocol limit) (fun _ g => g = some (.refund tokens))
      none := by
  refine returnTokens_wp fun v _ => ⟨⟨some (.refund tokens), rate_entry ?_, rfl⟩, fun d _ hw => rate_read hw⟩
  exact le_rfl

/-- Draining and borrowing only raise the zero time. -/
theorem borrowLoop_rate {R : Type} {borrowed : ℚ → R} {paid : R} (hk : 0 ≤ k) :
    (Prog.loop (borrowStep now limit borrowed paid) k).wp (rateProtocol limit) (fun _ g => g = none)
      none := by
  refine borrowLoop_wp (fun _ g => g = none) (fun _ g => g = none) (fun g => g = none)
    ?_ ?_ ?_ ?_ (fun g hg => hg) hk rfl
  · rintro k g v - rfl - - d - hw
    exact ⟨none, rate_read hw, rfl⟩
  · rintro k g v c rfl - - hc - -
    exact ⟨⟨none, rate_raise (limit.le_charged hc.le), rfl⟩, fun d _ hw => rate_read hw⟩
  · rintro k g v hk rfl -
    have hd : 0 ≤ k / limit.rate := div_nonneg hk.le limit.rate_pos.le
    exact ⟨⟨none, rate_raise (by linarith), rfl⟩, fun d _ hw => rate_read hw⟩
  · rintro g v rfl -
    exact ⟨none, rate_load, rfl⟩

end

theorem code_rate (limit : Limit) (req : Request) :
    (req.code limit).wp (rateProtocol limit) (fun r g => g = req.entry r) none := by
  obtain ⟨call, now⟩ := req
  cases call with
  | consume k =>
    show (TokenBucketStorage.consume limit.rate limit.burst now (exactly k.toRat)).wp _
      (fun c g => g = Request.entry ⟨.consume k, now⟩ (.consume (Tokens.newChecked c))) none
    refine Prog.wp_mono _ ?_ (consume_exactly_rate limit now k.toRat_pos)
    rintro c g (⟨rfl, rfl⟩ | ⟨rfl, rfl⟩)
    · rfl
    · rw [Tokens.newChecked, if_neg k.toRat_ne_zero]
      rfl
  | tryConsume k =>
    show (consume2 limit.rate limit.burst now (exactly k.toRat)).wp _
      (fun a g => g = Request.entry ⟨.tryConsume k, now⟩
        (.tryConsume (acquisitionResult k.toRat now limit a))) none
    refine Prog.wp_mono _ ?_ (consume2_exactly_rate limit now k.toRat_pos)
    rintro a g (⟨zt, rfl, rfl⟩ | ⟨rfl, rfl⟩) <;> rfl
  | saturatingConsume k =>
    show (saturatingConsumeInner k.toRat now limit).wp _
      (fun c g => g = Request.entry ⟨.saturatingConsume k, now⟩
        (.saturatingConsume (Tokens.newChecked c))) none
    refine Prog.wp_mono _ ?_ (saturatingConsumeInner_rate limit now k.toRat_pos)
    rintro c g (⟨rfl, rfl⟩ | ⟨hc, rfl⟩)
    · rfl
    · rw [Tokens.newChecked, if_neg hc.ne']
      rfl
  | consumeWithBorrow k =>
    simp only [Request.code, consumeWithBorrow]
    split
    · rfl
    · exact Prog.wp_mono _ (fun r g hg => hg) (borrowLoop_rate limit now k.toRat_pos.le)
  | saturatingConsumeWithBorrow k =>
    exact Prog.wp_mono _ (fun r g hg => hg)
      (borrowLoop_rate limit now (le_min k.toRat_pos.le limit.burst_pos.le))
  | addTokens tokens =>
    exact Prog.wp_mono _ (fun r g hg => hg) (returnTokens_rate limit tokens)

/-! ## Every run -/

/-- A call still going on has entered nothing, so the finished calls are a history of the zero
time. -/
theorem run_history {ι : Type} [DecidableEq ι] {limit : Limit} {zt v : ℚ}
    {tr : List (Event ι ℚ Site Request Response)} {γ : ι → Option (Request × Option (Entry ℚ))}
    (h : (rateProtocol limit).Run (fun _ => none) (fun req r g => g = req.entry r) zt tr v γ) :
    History limit.rate limit.burst zt (ledger (returns tr)) v ∧
    ∀ i req g, γ i = some (req, g) → g = none := by
  induction h with
  | init => exact ⟨.start, fun i req g hi => by cases hi⟩
  | @call tr v γ i n req evs s _ hi hs ih =>
    obtain ⟨hh, hγ⟩ := ih
    cases hs with
    | goesOn => exact ⟨by simpa using hh, forall_update i hγ (by rintro _ _ ⟨⟩; rfl)⟩
    | returns hp => exact ⟨by simpa [ledger, ← hp] using hh, forall_update i hγ (by rintro _ _ ⟨⟩)⟩
  | @did tr v γ i n req g site d g' evs s _ hi hd hk hm hs ih =>
    obtain ⟨hh, hγ⟩ := ih
    obtain ⟨-, hm⟩ := hm
    rw [hd] at hm
    cases hs with
    | goesOn hl =>
      obtain ⟨_, _, _, rfl, -⟩ := hl
      exact ⟨by simpa using hh.rise hm, forall_update i hγ (by rintro _ _ ⟨⟩; rfl)⟩
    | returns hp =>
      refine ⟨?_, forall_update i hγ (by rintro _ _ ⟨⟩)⟩
      cases g' with
      | none => simpa [ledger, ← hp] using hh.rise hm
      | some e => simpa [ledger, ← hp] using hh.entry hm

/-- **Rate safety.** The tokens granted by the calls that do not borrow and read the clock in
`[t₁, t₂]` are at most `burst + rate * (t₂ - t₁)` and what `add_tokens` put back between the first and
the last of them. -/
theorem rate_safety {ι : Type} [DecidableEq ι] (limit : Limit) (zt : ℚ) (calls : ι → List Request)
    (sched : List (ι × Bool)) {t₁ t₂ : ℚ} (ht : t₁ ≤ t₂) :
    let entries := ledger (returns (Pool.run (Request.code limit) sched (.init zt calls)).trace)
    granted t₁ t₂ entries ≤
      limit.burst + limit.rate * (t₂ - t₁) + refunds (between (Entry.inWindow t₁ t₂) entries) := by
  obtain ⟨γ, hrun, -⟩ := adequacy (rateProtocol limit) (fun _ => none)
    (fun req r g => g = req.entry r) (fun _ _ => trivial) (fun _ req _ => code_rate limit req)
    zt sched
  exact window_bound limit.rate_pos limit.burst_pos.le ht (run_history hrun).1

/-- Two threads race for the last token; the one whose exchange fails finds too little. -/
theorem rate_safety_race :
    let code := Request.code (Limit.perSecondAndBurst ⟨1, by decide⟩ ⟨2, by decide⟩)
    let calls : Bool → List Request := fun _ => [⟨.consume ⟨1, by decide⟩, 1⟩]
    let sched := [true, false, true, false, true, false].map fun i => (i, false)
    let entries := ledger (returns (Pool.run code sched (.init 0 calls)).trace)
    granted 0 2 entries = 1 ∧
      granted 0 2 entries ≤ 2 + 1 * (2 - 0) + refunds (between (Entry.inWindow 0 2) entries) :=
  ⟨by decide +kernel, rate_safety _ _ _ _ (by norm_num)⟩

end Gardal
