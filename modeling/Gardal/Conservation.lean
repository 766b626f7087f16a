import Mathlib.Algebra.BigOperators.Fin
import Gardal.Rules
/-!
# Conservation of tokens at one instant

All threads read the same `now`. Whatever pieces a call is split into, drained or borrowed, what it
takes in the end is what its request says, and the balance at `now` goes down by the sum.

The ghost state of a call is what it has been charged so far and whether it has seen the bucket
empty. Nothing here lowers the zero time, so a bucket empty at `now` stays empty, and the uncapped
primitive that borrows charges exactly what the capped one would.
-/
namespace Gardal
open Cell TokenBucketStorage RawTokenBucket

/-- What a finished call takes. -/
def Request.taken (limit : Limit) (req : Request) (r : Response) : ℚ :=
  match req.call, r with
  | .consume k, .consume (some _) => k.toRat
  | .tryConsume k, .tryConsume (.ok _) => k.toRat
  | .saturatingConsume _, .saturatingConsume (some tokens) => tokens.value
  | .consumeWithBorrow k, _ => if k.toRat ≤ limit.burst then k.toRat else 0
  | .saturatingConsumeWithBorrow k, _ => min k.toRat limit.burst
  | _, _ => 0

def Call.isAddTokens : Call → Bool
  | .addTokens _ => true
  | _ => false

/-! ## The protocol -/

structure Charge where
  charged : ℚ
  empty : Bool

def chargeProtocol (limit : Limit) (now : ℚ) : Protocol ℚ Site Charge where
  knows g v := g.empty = true → now ≤ v
  move g _ d g' := d.before ≤ d.after ∧
    limit.balance now d.after = limit.balance now d.before - (g'.charged - g.charged) ∧
    (g'.empty = true → now ≤ d.after)
  learns h _ := h.2.2
  stable h _ hk := fun he => (hk he).trans h.1

section
variable {limit : Limit} {now v c x : ℚ} {site : Site} {d : Deed ℚ} {b : Bool}

theorem charge_read (hd : d.before = v) (hw : d.writes = false) (hb : b = true → now ≤ v) (b' : Bool) :
    (chargeProtocol limit now).move ⟨x, b'⟩ site d ⟨x, b⟩ := by
  have ha : d.after = v := (d.after_eq_before hw).trans hd
  simp only [chargeProtocol, ha, hd, sub_self, sub_zero, le_refl, true_and]
  exact hb

theorem charge_exchange (hc : 0 ≤ c) (hb : b = true → now ≤ v) :
    (chargeProtocol limit now).move ⟨x, b⟩ site (.exchange v (limit.charged now v c)) ⟨x + c, b⟩ := by
  have hle : v ≤ limit.charged now v c := limit.le_charged hc
  refine ⟨hle, ?_, fun h => (hb h).trans hle⟩
  simp only [Deed.after_exchange, Deed.before_exchange, limit.balance_charged _ _ hc, add_sub_cancel_left]

end

/-! ## Every call keeps to it -/

section
variable (limit : Limit) (now : ℚ) {k : ℚ}

theorem consume_exactly_charge (hk : 0 < k) :
    (TokenBucketStorage.consume limit.rate limit.burst now (exactly k)).wp (chargeProtocol limit now)
      (fun c g => (c = 0 ∧ g.charged = 0) ∨ (c = k ∧ g.charged = k)) ⟨0, false⟩ := by
  refine consume_exactly_wp hk (fun v _ _ d hd hw => ?_) fun v _ _ => ?_
  · exact ⟨⟨0, false⟩, charge_read hd hw (by simp) _, Or.inl ⟨rfl, rfl⟩⟩
  · refine ⟨⟨⟨0 + k, false⟩, charge_exchange hk.le (by simp), Or.inr ⟨rfl, zero_add k⟩⟩, fun d hd hw => ?_⟩
    exact charge_read hd hw (by simp) _

theorem consume2_exactly_charge (hk : 0 < k) :
    (consume2 limit.rate limit.burst now (exactly k)).wp (chargeProtocol limit now)
      (fun a g => (∃ zt, a = .zeroedAt zt ∧ g.charged = 0) ∨ (a = .acquired k ∧ g.charged = k))
      ⟨0, false⟩ := by
  refine consume2_exactly_wp hk (fun v _ _ d hd hw => ?_) fun v _ _ => ?_
  · exact ⟨⟨0, false⟩, charge_read hd hw (by simp) _, Or.inl ⟨v, rfl, rfl⟩⟩
  · refine ⟨⟨⟨0 + k, false⟩, charge_exchange hk.le (by simp), Or.inr ⟨rfl, zero_add k⟩⟩, fun d hd hw => ?_⟩
    exact charge_read hd hw (by simp) _

theorem saturatingConsumeInner_charge (hk : 0 < k) :
    (saturatingConsumeInner k now limit).wp (chargeProtocol limit now)
      (fun c g => 0 ≤ c ∧ g.charged = c) ⟨0, false⟩ := by
  refine saturatingConsumeInner_wp hk (fun v _ _ d hd hw => ?_) fun v c _ _ hc _ _ => ?_
  · exact ⟨⟨0, false⟩, charge_read hd hw (by simp) _, le_rfl, rfl⟩
  · refine ⟨⟨⟨0 + c, false⟩, charge_exchange hc.le (by simp), hc.le, zero_add c⟩, fun d hd hw => ?_⟩
    exact charge_read hd hw (by simp) _

/-- The pieces add up: what has been charged and what is left to take are the request. -/
theorem borrowLoop_charge {R : Type} {borrowed : ℚ → R} {paid : R} (hk : 0 ≤ k) :
    (Prog.loop (borrowStep now limit borrowed paid) k).wp (chargeProtocol limit now)
      (fun _ g => g.charged = k) ⟨0, false⟩ := by
  refine borrowLoop_wp (fun rest g => g.charged + rest = k ∧ g.empty = false)
    (fun rest g => g.charged + rest = k ∧ g.empty = true) (fun g => g.charged = k)
    ?_ ?_ ?_ ?_ ?_ hk ⟨zero_add k, rfl⟩
  · rintro rest ⟨x, b⟩ v - ⟨hx, rfl⟩ - hle d hd hw
    exact ⟨⟨x, true⟩, charge_read hd hw (fun _ => hle) _, hx, rfl⟩
  · rintro rest ⟨x, b⟩ v c ⟨hx, rfl⟩ - - hc - -
    refine ⟨⟨⟨x + c, false⟩, charge_exchange hc.le (by simp), ?_, rfl⟩, fun d hd hw => ?_⟩
    · simp only at hx ⊢
      linarith
    · exact charge_read hd hw (by simp) _
  · rintro rest ⟨x, b⟩ v hpos ⟨hx, rfl⟩ hknows
    have hle : now ≤ v := hknows rfl
    refine ⟨⟨⟨x + rest, true⟩, ?_, hx⟩, fun d hd hw => charge_read hd hw (fun _ => hle) _⟩
    -- The bucket is empty, so borrowing is charging.
    rw [← limit.charged_of_now_le hle]
    exact charge_exchange hpos.le fun _ => hle
  · rintro ⟨x, b⟩ v hx hknows
    have hle : b = true → now ≤ v := hknows
    exact ⟨⟨x, b⟩, charge_read rfl rfl hle _, hx⟩
  · rintro ⟨x, b⟩ ⟨hx, -⟩
    simpa using hx

end

theorem code_charge (limit : Limit) {now : ℚ} {req : Request}
    (h : req.now = now ∧ req.call.isAddTokens = false) :
    (req.code limit).wp (chargeProtocol limit now) (fun r g => g.charged = req.taken limit r)
      ⟨0, false⟩ := by
  obtain ⟨call, now⟩ := req
  obtain ⟨rfl, hadd⟩ := h
  cases call with
  | consume k =>
    show (TokenBucketStorage.consume limit.rate limit.burst now (exactly k.toRat)).wp
      (chargeProtocol limit now) (fun c g => g.charged =
        Request.taken limit ⟨.consume k, now⟩ (.consume (Tokens.newChecked c))) _
    refine Prog.wp_mono _ ?_ (consume_exactly_charge limit now k.toRat_pos)
    rintro c g (⟨rfl, hg⟩ | ⟨rfl, hg⟩)
    · exact hg
    · rw [Tokens.newChecked, if_neg k.toRat_ne_zero]
      exact hg
  | tryConsume k =>
    show (consume2 limit.rate limit.burst now (exactly k.toRat)).wp
      (chargeProtocol limit now) (fun a g => g.charged = Request.taken limit ⟨.tryConsume k, now⟩
        (.tryConsume (acquisitionResult k.toRat now limit a))) _
    refine Prog.wp_mono _ ?_ (consume2_exactly_charge limit now k.toRat_pos)
    rintro a g (⟨zt, rfl, hg⟩ | ⟨rfl, hg⟩) <;> exact hg
  | saturatingConsume k =>
    show (saturatingConsumeInner k.toRat now limit).wp
      (chargeProtocol limit now) (fun c g => g.charged = Request.taken limit ⟨.saturatingConsume k, now⟩
        (.saturatingConsume (Tokens.newChecked c))) _
    refine Prog.wp_mono _ ?_ (saturatingConsumeInner_charge limit now k.toRat_pos)
    rintro c g ⟨-, hg⟩
    by_cases hc : c = 0
    · rw [Tokens.newChecked, if_pos hc, hg, hc]
      rfl
    · rw [Tokens.newChecked, if_neg hc]
      exact hg
  | consumeWithBorrow k =>
    simp only [Request.code, Request.taken, consumeWithBorrow]
    by_cases hb : limit.burst < k.toRat
    · rw [if_pos hb, if_neg (not_le.2 hb)]
      rfl
    · rw [if_neg hb, if_pos (not_lt.1 hb)]
      exact Prog.wp_mono _ (fun r g hg => hg) (borrowLoop_charge limit now k.toRat_pos.le)
  | saturatingConsumeWithBorrow k =>
    exact Prog.wp_mono _ (fun r g hg => hg)
      (borrowLoop_charge limit now (le_min k.toRat_pos.le limit.burst_pos.le))
  | addTokens tokens => cases hadd

/-! ## Every run -/

/-- What the calls in progress have been charged. -/
def inProgress {ι : Type} [Fintype ι] (γ : ι → Option (Request × Charge)) : ℚ :=
  ∑ i, (γ i).elim 0 fun s => s.2.charged

/-- What the finished calls took. -/
def taken {ι : Type} (limit : Limit) (calls : List (Returned ι Request Response)) : ℚ :=
  (calls.map fun x => x.request.taken limit x.response).sum

theorem inProgress_update {ι : Type} [Fintype ι] [DecidableEq ι] (γ : ι → Option (Request × Charge))
    (i : ι) (s : Option (Request × Charge)) :
    inProgress (Function.update γ i s) =
      inProgress γ - (γ i).elim 0 (fun s => s.2.charged) + s.elim 0 fun s => s.2.charged := by
  have hupd : ∀ j, (Function.update γ i s j).elim (0 : ℚ) (fun s => s.2.charged) =
      Function.update (fun j => (γ j).elim (0 : ℚ) fun s => s.2.charged) i
        (s.elim 0 fun s => s.2.charged) j :=
    Function.apply_update (fun _ s => s.elim (0 : ℚ) fun s => s.2.charged) γ i s
  unfold inProgress
  rw [Finset.sum_congr rfl fun j _ => hupd j, Finset.sum_update_of_mem (Finset.mem_univ i),
    Finset.sdiff_singleton_eq_erase, Finset.sum_erase_eq_sub (Finset.mem_univ i)]
  ring

theorem run_balance {ι : Type} [Fintype ι] [DecidableEq ι] {limit : Limit} {now zt v : ℚ}
    {tr : List (Event ι ℚ Site Request Response)} {γ : ι → Option (Request × Charge)}
    (h : (chargeProtocol limit now).Run (fun _ => ⟨0, false⟩)
      (fun req r g => g.charged = req.taken limit r) zt tr v γ) :
    limit.balance now v = limit.balance now zt - taken limit (returns tr) - inProgress γ := by
  refine h.events (P := fun tr v γ =>
    limit.balance now v = limit.balance now zt - taken limit (returns tr) - inProgress γ) ?_ ?_ ?_ ?_
  · simp [taken, inProgress]
  · intro tr v γ i n req hP hi
    rw [inProgress_update, hi]
    simpa using hP
  · intro tr v γ i n req g site d g' hP hi hd hk hm
    obtain ⟨-, hbal, -⟩ := hm
    rw [hd] at hbal
    rw [inProgress_update, hi, hbal, hP]
    simp only [returns_append, returns_did, returns_nil, List.append_nil, Option.elim_some]
    ring
  · intro tr v γ i n req g r hP hi hpost
    rw [inProgress_update, hi, hP]
    simp only [taken, returns_append, returns_ret, returns_nil, List.map_append, List.sum_append,
      List.map_cons, List.map_nil, List.sum_cons, List.sum_nil, Option.elim_some, Option.elim_none, hpost]
    ring

/-- **Conservation.** When all calls have returned, the balance at `now` has gone down by the sum of
what they took. -/
theorem conservation {ι : Type} [Fintype ι] [DecidableEq ι] (limit : Limit) (zt now : ℚ)
    (calls : ι → List Request)
    (hcalls : ∀ i, ∀ req ∈ calls i, req.now = now ∧ req.call.isAddTokens = false)
    (sched : List (ι × Bool)) (hdone : (Pool.run (Request.code limit) sched (.init zt calls)).Done) :
    let c := Pool.run (Request.code limit) sched (.init zt calls)
    limit.balance now c.cell = limit.balance now zt - taken limit (returns c.trace) := by
  intro c
  obtain ⟨γ, hrun, hfit⟩ := adequacy (chargeProtocol limit now) (fun _ => ⟨0, false⟩)
    (fun req r g => g.charged = req.taken limit r) (fun _ _ => by rintro ⟨⟩)
    (fun i req hreq => code_charge limit (hcalls i req hreq)) zt sched
  have hnone : ∀ i, γ i = none := by
    intro i
    have hf := hfit i
    have hc := Option.isNone_iff_eq_none.1 (hdone i).1
    unfold Fits at hf
    rw [hc] at hf
    exact hf
  have hsum : inProgress γ = 0 := by simp [inProgress, hnone]
  rw [run_balance hrun, hsum, sub_zero]

/-- Two borrowers of three tokens each find four: one drains its three, the other drains the fourth
and borrows two. -/
theorem conservation_race :
    let limit := Limit.perSecondAndBurst ⟨1, by decide⟩ ⟨4, by decide⟩
    let calls : Bool → List Request := fun _ => [⟨.consumeWithBorrow ⟨3, by decide⟩, 4⟩]
    let sched := [true, false, true, false, true, false, false, false, false, false, false, false].map
      fun i => (i, false)
    let c := Pool.run (Request.code limit) sched (.init 0 calls)
    limit.balance 4 c.cell = -2 ∧
      limit.balance 4 c.cell = limit.balance 4 0 - taken limit (returns c.trace) := by
  refine ⟨by decide +kernel, conservation _ _ _ _ ?_ _ ?_⟩
  · decide +kernel
  · unfold Pool.Done
    decide +kernel

end Gardal
