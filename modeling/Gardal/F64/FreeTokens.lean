import Gardal.F64.Rate
/-!
# Tokens that cost nothing

The clocks of `clock.rs` count seconds from 1970, where a unit in the last place of an `f64` is a quarter of a
microsecond. A token that is worth less than half of that does not move the zero time: it is handed out, and the
next one finds the bucket as full as before. So the bucket hands out any number of them, as long as they are
asked for within one burst of each other. With `per_second(n)` this is so from `n` of about ten million on.
-/
namespace Gardal.F64
open Cell Ieee

/-- The tokens a call asks for. -/
def Call.asked : Call → Option NonZeroU32
  | consume k => some k
  | tryConsume k => some k
  | saturatingConsume k => some k
  | consumeWithBorrow k => some k
  | saturatingConsumeWithBorrow k => some k
  | _ => none

namespace HandleCall

/-- At the zero time `zt`, of at least `2 ^ e` seconds, the call asks for some tokens, which are there, but no
longer than a burst after `zt`, and they are worth less than half of the last place of `2 ^ e`. -/
structure Negligible (e : ℕ) (zt : Float) (c : HandleCall) (k : NonZeroU32) : Prop where
  asks : c.call.asked = some k
  reading : Reading (2 ^ 100) c.now
  there : k.toRat ≤ c.limit.balance c.now zt
  fits : toRat c.now - toRat zt ≤ toRat c.limit.burst / toRat c.limit.rate
  small : k.toRat / toRat c.limit.rate + 10 * (toRat c.limit.burst / toRat c.limit.rate) / 2 ^ 53 <
    2 ^ e / 2 ^ 53

end HandleCall

/-! ## The zero time stays -/

def stillProtocol (zt : Float) : Protocol Float Site Unit where
  knows _ v := InRange v ∧ toRat v = toRat zt
  move _ _ d _ := InRange d.after ∧ toRat d.after = toRat zt
  learns h _ := h
  stable h _ _ := h

section
variable {zt now v w x : Float} {limit : Limit} {site : Site} {g : Unit} {k : ℚ} {e : ℕ}

theorem still_range {g : Unit} {v : Float} (h : (stillProtocol zt).knows g v) : InRange v := h.1

theorem still_stay (hv : (stillProtocol zt).knows g v) {d : Deed Float} (hd : d.before = v)
    (hw : d.writes = false) : (stillProtocol zt).move g site d g := by
  subst hd
  rw [← d.after_eq_before hw] at hv
  exact hv

variable (he : 2 ^ e ≤ toRat zt) (hnow : Reading (2 ^ 100) now) (hk1 : 1 ≤ k) (hk : k ≤ limit.balance now zt)
  (hfits : toRat now - toRat zt ≤ toRat limit.burst / toRat limit.rate)
  (hsmall : k / toRat limit.rate + 10 * (toRat limit.burst / toRat limit.rate) / 2 ^ 53 < 2 ^ e / 2 ^ 53)

theorem still_balance (limit : Limit) (now : Float) (hv : (stillProtocol zt).knows g v) :
    limit.balance now v = limit.balance now zt := by
  unfold Limit.balance
  rw [hv.2]

include he hk1 hk hfits hsmall

theorem still_charged (hv : (stillProtocol zt).knows g v) (hw : Is w (limit.charged now v k))
    (hin : InRange w) :
    (stillProtocol zt).move g site (.exchange v w) g := by
  refine ⟨hin, ?_⟩
  have hdouble : Double (toRat zt) := hv.2 ▸ hv.1.double
  show toRat w = toRat zt
  rw [hw.toRat, Limit.charged, still_balance limit now hv]
  exact roundedCharge_absorb limit.rate_within.le limit.rate_within.ge limit.burst_within.le
    limit.burst_within.ge hdouble he hk1 hk hfits hsmall

include hnow

theorem consume_exactly_still (hx : Is x k) :
    (TokenBucketStorage.consume limit.rate limit.burst now (RawTokenBucket.exactly x)).wp (stillProtocol zt)
      (fun y _ => y = x) g := by
  refine consume_exactly_wp still_range hnow hx (by linarith) ?_ ?_
  · intro v hv hlt
    exact absurd hk (not_le.2 (still_balance limit now hv ▸ hlt))
  · exact fun v w hv _ hw hin =>
      ⟨⟨g, still_charged he hk1 hk hfits hsmall hv hw hin, rfl⟩, fun d hd hw => still_stay hv hd hw⟩

theorem consume2_exactly_still (hx : Is x k) :
    (TokenBucketStorage.consume2 limit.rate limit.burst now (RawTokenBucket.exactly x)).wp (stillProtocol zt)
      (fun a _ => a = .acquired x) g := by
  refine consume2_exactly_wp still_range hnow hx (by linarith) ?_ ?_
  · intro v hv hlt
    exact absurd hk (not_le.2 (still_balance limit now hv ▸ hlt))
  · exact fun v w hv _ hw hin =>
      ⟨⟨g, still_charged he hk1 hk hfits hsmall hv hw hin, rfl⟩, fun d hd hw => still_stay hv hd hw⟩

theorem saturatingConsumeInner_still (hx : Is x k) :
    (RawTokenBucket.saturatingConsumeInner x now limit).wp (stillProtocol zt) (fun y _ => Is y k) g := by
  refine saturatingConsumeInner_wp still_range hnow hx (by linarith) ?_ ?_
  · intro v hv hle
    rw [still_balance limit now hv] at hle
    linarith
  · intro v w y c hv hy _ _ hcase hw hin
    rw [still_balance limit now hv] at hcase
    obtain rfl : c = k := hcase.resolve_right fun h => not_lt.2 hk (h.2 ▸ h.1)
    exact ⟨⟨g, still_charged he hk1 hk hfits hsmall hv hw hin, hy⟩, fun d hd hw => still_stay hv hd hw⟩

/-- The borrowing loop need not borrow. -/
theorem borrowLoop_still {R : Type} {borrowed : Float → R} {paid : R} (hx : Is x k) :
    (Prog.loop (RawTokenBucket.borrowStep now limit borrowed paid) x).wp (stillProtocol zt)
      (fun a _ => a = paid) g := by
  refine borrowLoop_wp still_range hnow (fun rest _ => rest = k ∨ rest = 0) (fun _ _ => False)
    (fun _ => False) ?_ ?_ ?_ ?_ ?_ hx (by linarith) (hk.trans roundedBalance_le_burst) (.inl rfl)
  · rintro rest g v hpos (rfl | rfl) hv hle
    · rw [still_balance limit now hv] at hle
      linarith
    · exact absurd hpos (lt_irrefl _)
  · rintro rest g v w c - - hrest hv hc0 - hcase hw hin
    rw [still_balance limit now hv] at hcase
    obtain ⟨rfl, rfl⟩ : rest = k ∧ c = rest := by
      rcases hrest with rfl | rfl
      · exact ⟨rfl, hcase.resolve_right fun h => not_lt.2 hk (h.2 ▸ h.1)⟩
      · rcases hcase with rfl | h
        · exact absurd hc0 (lt_irrefl _)
        · exact absurd hc0 (not_lt.2 h.1.le)
    refine ⟨⟨g, still_charged he hk1 hk hfits hsmall hv hw hin, .inr ?_⟩, fun d hd hw => still_stay hv hd hw⟩
    rw [sub_self]
    exact fl_of_double .zero
  · exact fun _ _ _ _ _ _ h => h.elim
  · exact fun _ _ _ h => h.elim
  · exact fun _ _ => rfl

end

namespace HandleCall

/-- The call is given what it asks for, and need not wait. -/
def Granted (k : NonZeroU32) (c : HandleCall) (r : Response) : Prop :=
  c.call.taken c.limit r = k.toRat ∧ r.waited = 0

theorem code_still {zt : Float} {e : ℕ} {k : NonZeroU32} (he : 2 ^ e ≤ toRat zt) (c : HandleCall)
    (h : c.Negligible e zt k) : c.code.wp (stillProtocol zt) (fun r _ => c.Granted k r) () := by
  obtain ⟨limit, call, now⟩ := c
  obtain ⟨hasks, hnow, hthere, hfits, hsmall⟩ := h
  have his : Is k.toF64 k.toRat := is_toFloat k.val
  have hone := k.one_le_toRat
  have hburst : k.toRat ≤ toRat limit.burst := hthere.trans roundedBalance_le_burst
  have hne : (k.toF64 == 0.0) = false :=
    Bool.eq_false_iff.2 fun h => k.toRat_ne_zero ((his.beq_iff is_zero).1 h)
  cases call with
  | consume k' =>
    obtain rfl := Option.some.inj hasks
    show (TokenBucketStorage.consume limit.rate limit.burst now (RawTokenBucket.exactly k'.toF64)).wp _
      (fun y _ => Granted k' ⟨limit, .consume k', now⟩ (.consume (Tokens.newChecked y))) ()
    refine Prog.wp_mono _ ?_ (consume_exactly_still he hnow hone hthere hfits hsmall his)
    rintro _ - rfl
    rw [Tokens.newChecked, hne]
    exact ⟨rfl, rfl⟩
  | tryConsume k' =>
    obtain rfl := Option.some.inj hasks
    show (TokenBucketStorage.consume2 limit.rate limit.burst now (RawTokenBucket.exactly k'.toF64)).wp _
      (fun a _ => Granted k' ⟨limit, .tryConsume k', now⟩
        (.tryConsume (RawTokenBucket.acquisitionResult k'.toF64 now limit a))) ()
    refine Prog.wp_mono _ ?_ (consume2_exactly_still he hnow hone hthere hfits hsmall his)
    rintro _ - rfl
    exact ⟨rfl, rfl⟩
  | saturatingConsume k' =>
    obtain rfl := Option.some.inj hasks
    show (RawTokenBucket.saturatingConsumeInner k'.toF64 now limit).wp _
      (fun y _ => Granted k' ⟨limit, .saturatingConsume k', now⟩ (.saturatingConsume (Tokens.newChecked y))) ()
    refine Prog.wp_mono _ ?_ (saturatingConsumeInner_still he hnow hone hthere hfits hsmall his)
    intro y _ hy
    have hy' : (y == 0.0) = false := Bool.eq_false_iff.2 fun h => k'.toRat_ne_zero ((hy.beq_iff is_zero).1 h)
    rw [Tokens.newChecked, hy']
    exact ⟨hy.toRat, rfl⟩
  | consumeWithBorrow k' =>
    obtain rfl := Option.some.inj hasks
    simp only [code, RawTokenBucket.consumeWithBorrow]
    rw [if_neg fun h => not_lt.2 hburst ((limit.burst_within.is.lt_iff his).1 h)]
    show (Prog.loop (RawTokenBucket.borrowStep now limit (fun nap => .ok (Nanos.newChecked nap)) (.ok none))
      k'.toF64).wp _ (fun a _ => Granted k' ⟨limit, .consumeWithBorrow k', now⟩ (.consumeWithBorrow a)) ()
    refine Prog.wp_mono _ ?_ (borrowLoop_still he hnow hone hthere hfits hsmall his)
    rintro _ - rfl
    exact ⟨rfl, rfl⟩
  | saturatingConsumeWithBorrow k' =>
    obtain rfl := Option.some.inj hasks
    have hmin : Is (minNum k'.toF64 limit.burst) k'.toRat := by
      have h := his.minNum limit.burst_within.is
      rwa [min_eq_left hburst] at h
    show (Prog.loop (RawTokenBucket.borrowStep now limit
      (fun nap => do
        return (Tokens.newChecked (minNum k'.toF64 limit.burst), ← Duration.fromSecsF64 nap))
      (some (none, ⟨0⟩))) (minNum k'.toF64 limit.burst)).wp _
      (fun a _ => Granted k' ⟨limit, .saturatingConsumeWithBorrow k', now⟩ (.saturatingConsumeWithBorrow a)) ()
    refine Prog.wp_mono _ ?_ (borrowLoop_still he hnow hone hthere hfits hsmall hmin)
    rintro _ - rfl
    exact ⟨min_eq_left hburst, by simp [Response.waited]⟩
  | addTokens | balance | available => cases hasks

end HandleCall

/-- **Tokens for nothing.** Let the calls ask for tokens worth less than half of a unit in the last place of the
zero time, no longer than a burst after it. Then, however many threads make however many calls, and in whatever
interleaving, every call that returns has been given its tokens without a wait, and the zero time has not moved.
-/
theorem free_tokens {ι : Type} [DecidableEq ι] {zt : Float} {e : ℕ} (hzt : InRange zt) (he : 2 ^ e ≤ toRat zt)
    {calls : ι → List HandleCall} (asked : HandleCall → NonZeroU32)
    (hcalls : ∀ i, ∀ c ∈ calls i, c.Negligible e zt (asked c)) (sched : List (ι × Bool)) :
    let pool := Pool.run HandleCall.code sched (.init zt calls)
    toRat pool.cell = toRat zt ∧ ∀ x ∈ returns pool.trace, x.request.Granted (asked x.request) x.response := by
  intro pool
  obtain ⟨γ, hrun, -⟩ := adequacy_of_inv (I := fun v => InRange v ∧ toRat v = toRat zt) (stillProtocol zt)
    (fun _ : HandleCall => ()) (fun c r _ => c.Granted (asked c) r) (fun hm _ => hm) (fun _ _ hv => hv)
    (fun i c hc => c.code_still he (hcalls i c hc)) ⟨hzt, rfl⟩ sched
  have hcell := hrun.cell (I := fun v => InRange v ∧ toRat v = toRat zt) ⟨hzt, rfl⟩ fun hm _ => hm
  refine ⟨hcell.2, fun x hx => ?_⟩
  obtain ⟨-, hgranted⟩ := hrun.returned x hx
  exact hgranted

/-- Two and a bit of ten million tokens a second, at a time in 2023. -/
theorem is_two_and_a_bit :
    Is (TokenBucketStorage.balanceOf (Limit.perSecond ⟨10000000, by decide⟩).rate
        (Limit.perSecond ⟨10000000, by decide⟩).burst 1700000000.0000002 1700000000.0)
      ((Limit.perSecond ⟨10000000, by decide⟩).balance 1700000000.0000002 1700000000.0) :=
  is_balanceOf _ (by decide +kernel) (by decide +kernel)

theorem negligible_one {call : Call} (h : call.asked = some ⟨1, by decide⟩) :
    HandleCall.Negligible 30 1700000000.0 ⟨.perSecond ⟨10000000, by decide⟩, call, 1700000000.0000002⟩
      ⟨1, by decide⟩ := by
  refine ⟨h, ?_, ?_, ?_, ?_⟩
  · show Reading (2 ^ 100) 1700000000.0000002
    decide +kernel
  · show _ ≤ (Limit.perSecond ⟨10000000, by decide⟩).balance 1700000000.0000002 1700000000.0
    rw [← is_two_and_a_bit.toRat]
    decide +kernel
  · show toRat 1700000000.0000002 - toRat 1700000000.0 ≤ toRat (Limit.perSecond ⟨10000000, by decide⟩).burst /
      toRat (Limit.perSecond ⟨10000000, by decide⟩).rate
    decide +kernel
  · show NonZeroU32.toRat ⟨1, by decide⟩ / toRat (Limit.perSecond ⟨10000000, by decide⟩).rate +
      10 * (toRat (Limit.perSecond ⟨10000000, by decide⟩).burst /
        toRat (Limit.perSecond ⟨10000000, by decide⟩).rate) / 2 ^ 53 < 2 ^ 30 / 2 ^ 53
    decide +kernel

/-- Six tokens are taken of two and a bit, and the bucket is as it was. -/
theorem free_tokens_six :
    let one : NonZeroU32 := ⟨1, by decide⟩
    let asks : List Call := [.consume one, .saturatingConsumeWithBorrow one, .tryConsume one]
    let pool := Pool.run HandleCall.code ((List.range 24).map fun n => (n % 2 == 0, n % 7 == 3))
      (.init 1700000000.0 fun _ => asks.map fun call =>
        ⟨.perSecond ⟨10000000, by decide⟩, call, 1700000000.0000002⟩)
    (returns pool.trace).length = 6 ∧
      toRat pool.cell = toRat 1700000000.0 ∧ ∀ x ∈ returns pool.trace, x.request.Granted one x.response := by
  refine ⟨by decide +kernel, ?_⟩
  refine free_tokens (e := 30) (by decide +kernel) (by decide +kernel) (fun _ => ⟨1, by decide⟩)
    (fun i c hc => ?_) _
  obtain ⟨call, hcall, rfl⟩ := List.mem_map.1 hc
  have hasks : ∀ call ∈ [Call.consume ⟨1, by decide⟩, .saturatingConsumeWithBorrow ⟨1, by decide⟩,
      .tryConsume ⟨1, by decide⟩], call.asked = some ⟨1, by decide⟩ := by decide
  exact negligible_one (hasks call hcall)

end Gardal.F64
