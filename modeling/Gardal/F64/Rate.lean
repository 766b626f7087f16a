import Gardal.F64.Rules
import Gardal.SharedRate
/-!
# The rate in `f64`

What `Gardal.SharedRate` shows of the exact code holds of the code as it computes, but for what rounding loses.
Every access that writes, and every read of a wait, may lose some units in the last place of the burst, in
seconds, and of the times it computes with (`roundoff`). It is the size of the clock's readings that counts:
counted from 1970 a unit in the last place is a quarter of a microsecond.
-/
namespace Gardal.F64
open Cell Ieee Ledger Stretch

/-! ## What is taken and when -/

/-- The tokens a finished call has taken. A call that panics does not finish. -/
def Call.taken (limit : Limit) (call : Call) (r : Response) : ℚ :=
  match call, r with
  | .consume k, .consume (some _) => k.toRat
  | .tryConsume k, .tryConsume (.ok _) => k.toRat
  | .saturatingConsume _, .saturatingConsume (some tokens) => toRat tokens.value
  | .consumeWithBorrow k, .consumeWithBorrow (.ok _) => k.toRat
  | .saturatingConsumeWithBorrow k, .saturatingConsumeWithBorrow (some _) => min k.toRat (toRat limit.burst)
  | _, _ => 0

/-- The wait a call returns, in seconds. -/
def Response.waited : Response → ℚ
  | .consumeWithBorrow (.ok (some wait)) => toRat wait.secs
  | .saturatingConsumeWithBorrow (some (_, wait)) => wait.nanos / 10 ^ 9
  | _ => 0

namespace HandleCall

/-- The seconds of refill a finished call has taken. -/
def secsTaken (c : HandleCall) (r : Response) : ℚ := c.call.taken c.limit r / toRat c.limit.rate

/-- When the caller of a finished call goes on. -/
def goesOn (c : HandleCall) (r : Response) : ℚ := toRat c.now + r.waited

/-- It reads the clock, no earlier than `t₁`. -/
def readsFrom (t₁ : ℚ) (c : HandleCall) : Bool := !c.call.isAddTokens && decide (t₁ ≤ toRat c.now)

/-- The seconds a finished call has taken, if it falls into the window. -/
def secsWithin (t₁ t₂ : ℚ) (c : HandleCall) (r : Response) : ℚ :=
  if c.readsFrom t₁ ∧ c.goesOn r ≤ t₂ then c.secsTaken r else 0

/-- It reads a clock within `M` seconds of its origin, and what it puts back is not absurd. -/
structure Within (M : ℚ) (c : HandleCall) : Prop where
  reading : Reading M c.now
  tokens : ∀ t, c.call = .addTokens t → F64.Within (-2 ^ 100) (2 ^ 100) t

end HandleCall

/-! ## What is lost -/

/-- By how much a deed lowers the zero time. -/
def loweredBy (d : Deed Float) : ℚ := max 0 (toRat d.before - toRat d.after)

/-- What rounding may lose at an access: where the zero time is written, and where a wait is read, which may go
on to be rounded to a nanosecond. What was too little to be drained is less than nothing. -/
def roundoff (B M : ℚ) : Site → Deed Float → ℚ
  | _, .exchange old _ => ulps B M (toRat old)
  | .timeWhenBucket, .load zt => ulps B M (toRat zt) + 1 / (2 * 10 ^ 9)
  | _, _ => 1 / 2 ^ 100

/-- The seconds put back or lost in rounding at an access. -/
def loss (B M : ℚ) (site : Site) (d : Deed Float) : ℚ := loweredBy d + roundoff B M site d

section
variable {B M : ℚ} (hB : 0 ≤ B) (hM : 0 ≤ M) (site : Site) (d : Deed Float)

theorem loweredBy_nonneg : 0 ≤ loweredBy d := le_max_left _ _

theorem le_add_loweredBy : toRat d.before ≤ toRat d.after + loweredBy d := by
  have h := le_max_right 0 (toRat d.before - toRat d.after)
  unfold loweredBy
  linarith

include hB hM

theorem roundoff_nonneg : 0 ≤ roundoff B M site d := by
  have hulps := fun z => ulps_nonneg hB hM z
  cases d with
  | exchange old new => exact hulps _
  | load zt =>
    cases site with
    | timeWhenBucket => exact add_nonneg (hulps _) (by norm_num)
    | _ => exact (by norm_num : (0 : ℚ) ≤ 1 / 2 ^ 100)
  | _ => cases site <;> exact (by norm_num : (0 : ℚ) ≤ 1 / 2 ^ 100)

theorem loss_nonneg : 0 ≤ loss B M site d :=
  add_nonneg (loweredBy_nonneg d) (roundoff_nonneg hB hM site d)

omit hB hM in
theorem roundoff_le_loss : roundoff B M site d ≤ loss B M site d :=
  le_add_of_nonneg_left (loweredBy_nonneg d)

theorem le_add_loss : toRat d.before ≤ toRat d.after + loss B M site d := by
  have h := le_add_loweredBy d
  have hr := roundoff_nonneg hB hM site d
  unfold loss
  linarith

end

/-! ## Every call keeps to its tab -/

def rateProtocol (B M : ℚ) : Protocol Float Site Tab where
  knows _ v := InRange v
  move g site d g' := InRange d.after ∧ g.Step B (toRat d.before) (toRat d.after) (loss B M site d) g'
  learns h _ := h.1
  stable h _ _ := h.1

section
variable {B M : ℚ} {limit : Limit} {now v w x : Float} {g : Tab} {site : Site} {k c : ℚ}

theorem rate_range {g : Tab} {v : Float} (h : (rateProtocol B M).knows g v) : InRange v := h

variable (hlimit : toRat limit.burst / toRat limit.rate ≤ B) (hM : M ≤ 2 ^ 100) (hnow : Reading M now)

include hlimit in
theorem burst_le : 1 / 2 ^ 32 ≤ B := limit.le_burst_div_rate.trans hlimit

include hnow in
theorem reading_nonneg : 0 ≤ M := (abs_nonneg _).trans hnow.abs_toRat_le

include hM hnow in
theorem Reading.all : Reading (2 ^ 100) now := hnow.mono (neg_le_neg hM) hM

include hlimit hnow

theorem rate_stay (hv : InRange v) {d : Deed Float} (hd : d.before = v) (hw : d.writes = false) :
    (rateProtocol B M).move g site d g := by
  have hB := burst_le hlimit
  subst hd
  refine ⟨by rwa [d.after_eq_before hw], .nothing (le_add_loss ?_ (reading_nonneg hnow) site d)⟩
  linarith [show (0 : ℚ) < 1 / 2 ^ 32 by norm_num]

theorem rate_write (hin : InRange w) : (rateProtocol B M).move g site (.exchange v w) g := by
  have hB := burst_le hlimit
  refine ⟨hin, .nothing (le_add_loss ?_ (reading_nonneg hnow) site (.exchange v w))⟩
  linarith [show (0 : ℚ) < 1 / 2 ^ 32 by norm_num]

/-- A drain puts on the tab what it takes off the request. -/
theorem rate_drain (hr : g.reads (toRat now)) {secs : ℚ} (hsecs0 : 0 ≤ secs)
    (hsecs : secs ≤ c / toRat limit.rate + 2 * B / 2 ^ 53) (hsecsB : secs ≤ B) (hc0 : 0 < c)
    (hc : c ≤ limit.balance now v) (hw : Is w (limit.charged now v c)) (hin : InRange w) :
    (rateProtocol B M).move g site (.exchange v w)
      { g with pieces := ⟨toRat now, secs, hsecs0, some (toRat now)⟩ :: g.pieces } := by
  have hBlow := burst_le hlimit
  have hB0 : 0 ≤ B := by linarith [show (0 : ℚ) < 1 / 2 ^ 32 by norm_num]
  obtain ⟨hup, hfloor⟩ :=
    add_le_roundedCharge (M := M) limit.rate_within.le hlimit hBlow hnow.abs_toRat_le hc0 hc
  have hceil := roundedCharge_le hnow.double limit.rate_pos.le hc
  have hloss := roundoff_le_loss (B := B) (M := M) site (.exchange v w)
  simp only [roundoff, ulps] at hloss
  have habs := abs_nonneg (toRat v)
  have hwq : toRat w = roundedCharge (toRat limit.rate) (toRat now) (limit.balance now v) c := hw.toRat
  have hv : limit.balance now v =
    roundedBalance (toRat limit.rate) (toRat limit.burst) (toRat now) (toRat v) := rfl
  rw [← hv] at hup hfloor
  refine ⟨hin, .drain hr rfl ?_ hsecsB ?_ ?_⟩
  · simp only [Deed.before_exchange, Deed.after_exchange, hwq]
    linarith
  · simp only [Deed.after_exchange, hwq]
    linarith
  · simp only [Deed.after_exchange, hwq]
    exact hceil

/-- A drain that is all the call takes. -/
theorem rate_take (site : Site) (hr : g.reads (toRat now)) (hc0 : 0 < c) (hc : c ≤ limit.balance now v)
    (hw : Is w (limit.charged now v c)) (hin : InRange w) :
    ∃ g', (rateProtocol B M).move g site (.exchange v w) g' ∧
      g.Paid g' (toRat now) (toRat now) (c / toRat limit.rate) := by
  have hBlow := burst_le hlimit
  have hB0 : 0 ≤ B := by linarith [show (0 : ℚ) < 1 / 2 ^ 32 by norm_num]
  have hsecs0 : 0 ≤ c / toRat limit.rate := (div_pos hc0 limit.rate_pos).le
  have hsecsB : c / toRat limit.rate ≤ B :=
    (div_le_div_of_nonneg_right (hc.trans roundedBalance_le_burst) limit.rate_pos.le).trans hlimit
  refine ⟨_, rate_drain hlimit hnow hr hsecs0 ?_ hsecsB hc0 hc hw hin, ?_⟩
  · have : 0 ≤ 2 * B / 2 ^ 53 := by positivity
    linarith
  · simpa using (Tab.Paid.refl g (toRat now) (toRat now)).cons
      (p := ⟨toRat now, c / toRat limit.rate, hsecs0, some (toRat now)⟩) rfl rfl le_rfl

variable (hr : g.reads (toRat now))
include hM hr

theorem consume_exactly_rate (hx : Is x k) (hk : 0 < k) :
    (TokenBucketStorage.consume limit.rate limit.burst now (RawTokenBucket.exactly x)).wp (rateProtocol B M)
      (fun y g' => (y = 0.0 ∧ g.Paid g' (toRat now) (toRat now) 0) ∨
        (y = x ∧ g.Paid g' (toRat now) (toRat now) (k / toRat limit.rate))) g := by
  refine consume_exactly_wp rate_range (Reading.all hM hnow) hx hk ?_ ?_
  · exact fun v hv _ d hd hw => ⟨g, rate_stay hlimit hnow hv hd hw, .inl ⟨rfl, .refl _ _ _⟩⟩
  · intro v w hv hle hw hin
    obtain ⟨g', hm, hpaid⟩ := rate_take hlimit hnow .consume hr hk hle hw hin
    exact ⟨⟨g', hm, .inr ⟨rfl, hpaid⟩⟩, fun d hd hw => rate_stay hlimit hnow hv hd hw⟩

theorem consume2_exactly_rate (hx : Is x k) (hk : 0 < k) :
    (TokenBucketStorage.consume2 limit.rate limit.burst now (RawTokenBucket.exactly x)).wp (rateProtocol B M)
      (fun a g' => (∃ zt, a = .zeroedAt zt ∧ g.Paid g' (toRat now) (toRat now) 0) ∨
        (a = .acquired x ∧ g.Paid g' (toRat now) (toRat now) (k / toRat limit.rate))) g := by
  refine consume2_exactly_wp rate_range (Reading.all hM hnow) hx hk ?_ ?_
  · exact fun v hv _ d hd hw => ⟨g, rate_stay hlimit hnow hv hd hw, .inl ⟨v, rfl, .refl _ _ _⟩⟩
  · intro v w hv hle hw hin
    obtain ⟨g', hm, hpaid⟩ := rate_take hlimit hnow .consume2 hr hk hle hw hin
    exact ⟨⟨g', hm, .inr ⟨rfl, hpaid⟩⟩, fun d hd hw => rate_stay hlimit hnow hv hd hw⟩

theorem saturatingConsumeInner_rate (hx : Is x k) (hk : 0 < k) :
    (RawTokenBucket.saturatingConsumeInner x now limit).wp (rateProtocol B M)
      (fun y g' => y.isFinite = true ∧
        g.Paid g' (toRat now) (toRat now) (toRat y / toRat limit.rate)) g := by
  refine saturatingConsumeInner_wp rate_range (Reading.all hM hnow) hx hk ?_ ?_
  · intro v hv _ d hd hw
    refine ⟨g, rate_stay hlimit hnow hv hd hw, is_zero.finite, ?_⟩
    rw [is_zero.toRat, zero_div]
    exact .refl _ _ _
  · intro v w y c hv hy hc0 hc _ hw hin
    obtain ⟨g', hm, hpaid⟩ := rate_take hlimit hnow .consume hr hc0 hc hw hin
    refine ⟨⟨g', hm, hy.finite, ?_⟩, fun d hd hw => rate_stay hlimit hnow hv hd hw⟩
    rwa [hy.toRat]

omit hM hr in
theorem returnTokens_rate (hx : Is x k) (hk : |k| ≤ 2 ^ 100) :
    (TokenBucketStorage.returnTokens x limit.rate).wp (rateProtocol B M) (fun _ g' => g' = g) g :=
  returnTokens_wp rate_range hx hk fun _ _ hv _ hin =>
    ⟨⟨g, rate_write hlimit hnow hin, rfl⟩, fun _ hd hw => rate_stay hlimit hnow hv hd hw⟩

/-- The borrowing loop has the whole request on its tab, and what it borrows is good by the end of the wait, to
half a nanosecond. -/
theorem borrowLoop_rate {R : Type} {borrowed : Float → R} {paid : R} (hx : Is x k) (hk : 0 ≤ k)
    (hb : k ≤ toRat limit.burst) :
    (Prog.loop (RawTokenBucket.borrowStep now limit borrowed paid) x).wp (rateProtocol B M)
      (fun a g' => (a = paid ∧ g.Paid g' (toRat now) (toRat now) (k / toRat limit.rate)) ∨
        ∃ y nap, a = borrowed y ∧ Is y nap ∧ 0 ≤ nap ∧
          g.Paid g' (toRat now) (max (toRat now) (toRat now + nap - 1 / (2 * 10 ^ 9))) (k / toRat limit.rate))
      g := by
  have hrate := limit.rate_pos
  have hBlow := burst_le hlimit
  have hB0 : 0 ≤ B := by linarith [show (0 : ℚ) < 1 / 2 ^ 32 by norm_num]
  refine borrowLoop_wp rate_range (Reading.all hM hnow)
    (fun rest g' => rest ≤ k ∧ g.Paid g' (toRat now) (toRat now) ((k - rest) / toRat limit.rate))
    (fun rest g' => g'.dry = some (toRat now) ∧ rest ≤ k ∧
      g.Paid g' (toRat now) (toRat now) ((k - rest) / toRat limit.rate))
    (fun g' => ∃ p ps, p.until? = none ∧ p.reading = toRat now ∧ g'.pieces = p :: (ps ++ g.pieces) ∧
      g'.reads = g.reads ∧ Pays (toRat now) (toRat now) (k / toRat limit.rate - p.secs) ps)
    ?_ ?_ ?_ ?_ ?_ hx hk hb ?_
  · rintro rest g' v - ⟨hle, hpaid⟩ hv hempty d hd hw
    have hnow' := le_of_roundedBalance_nonpos limit.rate_within.le limit.burst_within.le hempty
    have hM0 := reading_nonneg hnow
    refine ⟨{ g' with dry := some (toRat now) }, ⟨by rwa [d.after_eq_before hw, hd], .dry (by rwa [hpaid.1])
      (le_add_loss hB0 hM0 _ d) ?_⟩, rfl, hle, hpaid⟩
    -- Too little to be drained may have come in, less than any access loses.
    have htiny : 1 / 2 ^ 100 ≤ roundoff B M .consume d := by
      have hz : 0 ≤ (M + |toRat v|) / 2 ^ 53 := by positivity
      cases d with
      | exchange | store | atomic => cases hw
      | load | fail => exact le_rfl
    have hloss := roundoff_le_loss (B := B) (M := M) .consume d
    rw [d.after_eq_before hw, hd]
    linarith
  · rintro rest g' v w c hdouble hrb ⟨hle, hpaid⟩ hv hc0 hc hcase hw hin
    have hck : c ≤ rest := hcase.elim Eq.le fun h => h.1.le
    have hrest0 : 0 ≤ fl (rest - c) := fl_nonneg (sub_nonneg.2 hck)
    have hfl : fl (rest - c) ≤ rest := rnd_le hdouble (by linarith)
    have hrestB : rest / toRat limit.rate ≤ B :=
      (div_le_div_of_nonneg_right hrb hrate.le).trans hlimit
    have hsecs0 : 0 ≤ (rest - fl (rest - c)) / toRat limit.rate :=
      div_nonneg (sub_nonneg.2 hfl) hrate.le
    refine ⟨⟨_, rate_drain hlimit hnow (by rwa [hpaid.1]) hsecs0
      (rest_div_le limit.rate_within.le hc0.le hck hrestB hBlow)
      ((div_le_div_of_nonneg_right (by linarith) hrate.le).trans hrestB) hc0 hc hw hin, hfl.trans hle, ?_⟩,
      fun d hd hw => rate_stay hlimit hnow hv hd hw⟩
    have hsum : (k - fl (rest - c)) / toRat limit.rate =
        (rest - fl (rest - c)) / toRat limit.rate + (k - rest) / toRat limit.rate := by
      rw [← add_div]
      congr 1
      ring
    rw [hsum]
    exact hpaid.cons (p := ⟨toRat now, _, hsecs0, some (toRat now)⟩) rfl rfl le_rfl
  · rintro rest g' v w hpos hrb ⟨hdry, hle, hreads, ps, hps, hpays⟩ hv hw hin
    have hrestB : rest / toRat limit.rate ≤ B :=
      (div_le_div_of_nonneg_right hrb hrate.le).trans hlimit
    have hup := add_le_roundedDebt (z := toRat v) limit.rate_within.le hpos.le hrestB hBlow
    obtain ⟨p, hreading, hp, hu⟩ : ∃ p : Piece, p.reading = toRat now ∧ p.secs = rest / toRat limit.rate ∧
        p.until? = none := ⟨⟨toRat now, _, div_nonneg hpos.le hrate.le, none⟩, rfl, rfl, rfl⟩
    have hloss := roundoff_le_loss (B := B) (M := M) .returnTokens (.exchange v w)
    have hM0 := reading_nonneg hnow
    have habs := abs_nonneg (toRat v)
    have hwq : toRat w = fl (toRat v + fl (rest / toRat limit.rate)) := hw.toRat
    refine ⟨⟨{ g' with pieces := p :: g'.pieces }, ⟨hin, .borrow (by rwa [hreading, hreads])
      (by rw [hreading, hdry]) hu (by rwa [hp]) ?_⟩, p, ps, hu, hreading, by simp [hps], hreads, ?_⟩,
      fun d hd hw => rate_stay hlimit hnow hv hd hw⟩
    · simp only [roundoff, ulps] at hloss
      simp only [Deed.before_exchange, Deed.after_exchange, hwq, hp]
      linarith
    · rwa [hp, ← sub_div]
  · rintro g' v y ⟨p, ps, hu, hreading, hpieces, hreads, hpays⟩ hv hy
    have hwait := max_le_roundedWait (z := toRat v) hnow.abs_toRat_le
    have hloss := roundoff_le_loss (B := B) (M := M) .timeWhenBucket (.load v)
    have hM0 := reading_nonneg hnow
    have hlate := le_max_right (toRat now)
      (toRat now + max (fl (toRat v - toRat now)) 0 - 1 / (2 * 10 ^ 9))
    refine ⟨_, ⟨hv, .told hpieces hu (le_add_loss hB0 hM0 _ _) ?_⟩, .inr ⟨y, _, rfl, hy, le_max_right _ _,
      hreads, { p with until? := some (max (toRat now)
        (toRat now + max (fl (toRat v - toRat now)) 0 - 1 / (2 * 10 ^ 9))) } :: ps, rfl, ?_⟩⟩
    · simp only [roundoff, ulps] at hloss
      simp only [Deed.before_load, hreading]
      linarith
    · simpa using (hpays.mono (le_max_left _ _)).cons (p := { p with until? := some (max (toRat now)
        (toRat now + max (fl (toRat v - toRat now)) 0 - 1 / (2 * 10 ^ 9))) }) hreading rfl le_rfl
  · rintro g' ⟨-, hpaid⟩
    rw [sub_zero] at hpaid
    exact .inl ⟨rfl, hpaid⟩
  · refine ⟨le_rfl, ?_⟩
    rw [sub_self, zero_div]
    exact .refl _ _ _

end
/-! ## Every run -/

/-- A wait that is rounded to a nanosecond is no more than half of one too short. -/
theorem Duration.le_fromSecsF64 {y : Float} {nap : ℚ} (hy : Is y nap) {d : Duration}
    (h : Duration.fromSecsF64 y = some d) : nap - 1 / (2 * 10 ^ 9) ≤ d.nanos / 10 ^ 9 := by
  unfold Duration.fromSecsF64 at h
  split at h
  · obtain rfl := Option.some.inj h
    have hnear := (abs_le.1 (abs_nearest_sub_le (toRat y * 10 ^ 9))).1
    have hnat : (nearest (toRat y * 10 ^ 9) : ℚ) ≤ ((nearest (toRat y * 10 ^ 9)).toNat : ℚ) := by
      exact_mod_cast Int.self_le_toNat _
    have hscale : (nap - 1 / (2 * 10 ^ 9)) * 10 ^ 9 = nap * 10 ^ 9 - 1 / 2 := by ring
    rw [le_div_iff₀ (by norm_num), hscale]
    refine le_trans ?_ hnat
    rw [hy.toRat] at hnear ⊢
    linarith
  · cases h

/-- A wait that is left out is none. -/
theorem waited_newChecked {y : Float} {nap : ℚ} (hy : Is y nap) (hnap : 0 ≤ nap) :
    (Response.consumeWithBorrow (.ok (Nanos.newChecked y))).waited = nap := by
  unfold Nanos.newChecked
  split
  · rename_i h
    exact le_antisymm hnap ((hy.le_iff is_zero).1 h)
  · exact hy.toRat

namespace HandleCall

/-- The tab a call starts with. -/
def tab (c : HandleCall) : Tab := ⟨fun now => c.call.isAddTokens = false ∧ now = toRat c.now, [], none⟩

/-- What a finished call has taken is on its tab, and its caller goes on no sooner than it is good. -/
def Settles (t₁ t₂ : ℚ) (c : HandleCall) (r : Response) (g : Tab) : Prop :=
  c.secsWithin t₁ t₂ r ≤ g.settled t₁ t₂

section
variable {t₁ t₂ t : ℚ} {c : HandleCall} {r : Response} {g : Tab}

theorem settles_of_paid (hpaid : c.tab.Paid g (toRat c.now) t (c.secsTaken r)) (ht : t ≤ c.goesOn r) :
    c.Settles t₁ t₂ r g := by
  obtain ⟨-, ps, hps, hpays⟩ := hpaid
  obtain rfl : g.pieces = ps := by simpa [tab] using hps
  unfold Settles secsWithin
  split
  · rename_i hin
    obtain ⟨hfrom, huntil⟩ := hin
    have h₁ : t₁ ≤ toRat c.now := by simpa using (Bool.and_eq_true_iff.1 hfrom).2
    exact (hpays.settled h₁ (ht.trans huntil)).ge
  · exact settled_sum_nonneg t₁ t₂ _

/-- A call that has taken nothing, or does not finish. -/
theorem settles_of_zero (h : c.call.taken c.limit r = 0) : c.Settles t₁ t₂ r g := by
  unfold Settles secsWithin secsTaken
  rw [h, zero_div, ite_self]
  exact settled_sum_nonneg t₁ t₂ _

end

theorem code_rate {B M : ℚ} (t₁ t₂ : ℚ) (c : HandleCall) (hM : M ≤ 2 ^ 100)
    (hlimit : toRat c.limit.burst / toRat c.limit.rate ≤ B) (hc : c.Within M) :
    c.code.wp (rateProtocol B M) (c.Settles t₁ t₂) c.tab := by
  obtain ⟨limit, call, now⟩ := c
  obtain ⟨hnow, htokens⟩ := hc
  have hpos : ∀ k : NonZeroU32, 0 < toRat k.toF64 := fun k => by linarith [(within_toF64 k).le]
  have his : ∀ k : NonZeroU32, Is k.toF64 (toRat k.toF64) := fun k => (within_toF64 k).is
  have hval : ∀ k : NonZeroU32, toRat k.toF64 = k.toRat := fun k => (is_toFloat k.val).toRat
  have hne : ∀ k : NonZeroU32, (k.toF64 == 0.0) = false := fun k =>
    Bool.eq_false_iff.2 fun h => (hpos k).ne' (((his k).beq_iff is_zero).1 h)
  cases call with
  | consume k =>
    show (TokenBucketStorage.consume limit.rate limit.burst now (RawTokenBucket.exactly k.toF64)).wp _
      (fun y g => Settles t₁ t₂ ⟨limit, .consume k, now⟩ (.consume (Tokens.newChecked y)) g) _
    refine Prog.wp_mono _ ?_ (consume_exactly_rate (g := tab ⟨limit, .consume k, now⟩) hlimit hM hnow
      ⟨rfl, rfl⟩ (his k) (hpos k))
    rintro y g (⟨rfl, -⟩ | ⟨rfl, h⟩)
    · rw [Tokens.newChecked, if_pos ((is_zero.beq_iff is_zero).2 rfl)]
      exact settles_of_zero rfl
    · rw [Tokens.newChecked, hne k]
      rw [hval k] at h
      exact settles_of_paid h (add_zero _).ge
  | tryConsume k =>
    show (TokenBucketStorage.consume2 limit.rate limit.burst now (RawTokenBucket.exactly k.toF64)).wp _
      (fun a g => Settles t₁ t₂ ⟨limit, .tryConsume k, now⟩
        (.tryConsume (RawTokenBucket.acquisitionResult k.toF64 now limit a)) g) _
    refine Prog.wp_mono _ ?_ (consume2_exactly_rate (g := tab ⟨limit, .tryConsume k, now⟩) hlimit hM hnow
      ⟨rfl, rfl⟩ (his k) (hpos k))
    rintro a g (⟨zt, rfl, -⟩ | ⟨rfl, h⟩)
    · exact settles_of_zero rfl
    · rw [hval k] at h
      exact settles_of_paid h (add_zero _).ge
  | saturatingConsume k =>
    show (RawTokenBucket.saturatingConsumeInner k.toF64 now limit).wp _
      (fun y g => Settles t₁ t₂ ⟨limit, .saturatingConsume k, now⟩
        (.saturatingConsume (Tokens.newChecked y)) g) _
    refine Prog.wp_mono _ ?_ (saturatingConsumeInner_rate (g := tab ⟨limit, .saturatingConsume k, now⟩) hlimit
      hM hnow ⟨rfl, rfl⟩ (his k) (hpos k))
    rintro y g ⟨-, h⟩
    unfold Tokens.newChecked
    split
    · exact settles_of_zero rfl
    · exact settles_of_paid h (add_zero _).ge
  | consumeWithBorrow k =>
    simp only [code, RawTokenBucket.consumeWithBorrow]
    split
    · exact settles_of_zero rfl
    · rename_i hb
      have hle := not_lt.1 fun h => hb ((limit.burst_within.is.lt_iff (his k)).2 h)
      show (Prog.loop (RawTokenBucket.borrowStep now limit (fun nap => .ok (Nanos.newChecked nap)) (.ok none))
        k.toF64).wp _
        (fun a g => Settles t₁ t₂ ⟨limit, .consumeWithBorrow k, now⟩ (.consumeWithBorrow a) g) _
      refine Prog.wp_mono _ ?_ (borrowLoop_rate (g := tab ⟨limit, .consumeWithBorrow k, now⟩) hlimit hM hnow
        ⟨rfl, rfl⟩ (his k) (hpos k).le hle)
      rintro a g (⟨rfl, h⟩ | ⟨y, nap, rfl, hy, hnap, h⟩) <;> rw [hval k] at h
      · exact settles_of_paid h (add_zero _).ge
      · refine settles_of_paid h ?_
        rw [goesOn, waited_newChecked hy hnap]
        exact max_le (by linarith) (by linarith)
  | saturatingConsumeWithBorrow k =>
    have hmin := (his k).minNum limit.burst_within.is
    show (Prog.loop (RawTokenBucket.borrowStep now limit
      (fun nap => do
        return (Tokens.newChecked (minNum k.toF64 limit.burst), ← Duration.fromSecsF64 nap))
      (some (none, ⟨0⟩))) (minNum k.toF64 limit.burst)).wp _
      (fun a g => Settles t₁ t₂ ⟨limit, .saturatingConsumeWithBorrow k, now⟩
        (.saturatingConsumeWithBorrow a) g) _
    refine Prog.wp_mono _ ?_ (borrowLoop_rate (g := tab ⟨limit, .saturatingConsumeWithBorrow k, now⟩) hlimit hM
      hnow ⟨rfl, rfl⟩ hmin (le_min (hpos k).le limit.burst_pos.le) (min_le_right _ _))
    rintro a g (⟨rfl, h⟩ | ⟨y, nap, rfl, hy, hnap, h⟩) <;> rw [hval k] at h
    · refine settles_of_paid h ?_
      simp [goesOn, Response.waited]
    · cases hd : Duration.fromSecsF64 y with
      | none => exact settles_of_zero rfl
      | some d =>
        refine settles_of_paid h (max_le ?_ ?_)
        · exact le_add_of_nonneg_right (div_nonneg (Nat.cast_nonneg _) (by norm_num))
        · have hle := Duration.le_fromSecsF64 hy hd
          show toRat now + nap - 1 / (2 * 10 ^ 9) ≤ toRat now + (d.nanos : ℚ) / 10 ^ 9
          linarith
  | addTokens tokens =>
    show (TokenBucketStorage.returnTokens tokens limit.rate).wp _
      (fun _ g => Settles t₁ t₂ ⟨limit, .addTokens tokens, now⟩ .addTokens g) _
    have htok := htokens tokens rfl
    exact Prog.wp_mono _ (fun _ _ _ => settles_of_zero rfl)
      (returnTokens_rate hlimit hnow htok.is htok.abs_toRat_le)
  | balance =>
    have hload : (Prog.access Site.balance .load).wp (rateProtocol B M) (fun _ _ => True)
        (tab ⟨limit, .balance, now⟩) :=
      Prog.wp_load fun v hv => ⟨_, rate_stay hlimit hnow hv rfl rfl, trivial⟩
    exact Prog.wp_bind (Prog.wp_map hload) fun _ _ _ => settles_of_zero rfl
  | available =>
    have hload : (Prog.access Site.balance .load).wp (rateProtocol B M) (fun _ _ => True)
        (tab ⟨limit, .available, now⟩) :=
      Prog.wp_load fun v hv => ⟨_, rate_stay hlimit hnow hv rfl rfl, trivial⟩
    exact Prog.wp_bind (Prog.wp_map (Prog.wp_map hload)) fun _ _ _ => settles_of_zero rfl

end HandleCall

/-- **The rate in `f64`.** Handles with limits of their own make any calls, in any interleaving, at readings of
a clock within `M` seconds of its origin. The seconds of refill that the calls take which read the clock from
`t₁` on and let their caller go on until `t₂` are at most the largest burst, in seconds, and `t₂ - t₁`, and what
was put back, and what rounding may have lost, since the first of them started. -/
theorem rounded_rate {ι : Type} [DecidableEq ι] {zt : Float} (hzt : InRange zt) {calls : ι → List HandleCall}
    (sched : List (ι × Bool)) {B M t₁ t₂ : ℚ} (hB : 0 ≤ B) (hM : 0 ≤ M) (hM' : M ≤ 2 ^ 100) (ht : t₁ ≤ t₂)
    (hlimit : ∀ i, ∀ c ∈ calls i, toRat c.limit.burst / toRat c.limit.rate ≤ B)
    (hcalls : ∀ i, ∀ c ∈ calls i, c.Within M) :
    let trace := (Pool.run HandleCall.code sched (.init zt calls)).trace
    ((returns trace).map fun x => x.request.secsWithin t₁ t₂ x.response).sum ≤
      B + (t₂ - t₁) + lost (loss B M) (fromFirst (opening (HandleCall.readsFrom t₁)) trace) := by
  refine ledger_bound hB ht (rateProtocol B M) toRat (loss_nonneg hB hM) (fun hm _ => hm.2) (I := InRange)
    (fun hm _ => hm.1) HandleCall.tab (HandleCall.secsWithin t₁ t₂) (HandleCall.readsFrom t₁)
    (fun _ _ hv => hv) (fun _ => ⟨rfl, rfl⟩) ?_ ?_ hzt sched
  · rintro c hc now ⟨hadd, rfl⟩
    simpa [HandleCall.readsFrom, hadd] using hc
  · exact fun i c hc => c.code_rate t₁ t₂ hM' (hlimit i c hc) (hcalls i c hc)

/-- Clocks that count from 1970, and limits whose rates are no binary fractions: 77 of the 89 seconds there are.
-/
theorem rounded_rate_seven :
    let slow := Limit.perMinute ⟨7, by decide⟩
    let fast := Limit.perSecond ⟨3, by decide⟩
    let calls : Bool → List HandleCall := fun i =>
      if i then
        [⟨slow, .consume ⟨5, by decide⟩, 1700000000.1⟩, ⟨slow, .consumeWithBorrow ⟨4, by decide⟩, 1700000003.7⟩]
      else
        [⟨fast, .addTokens 0.3, 1700000000.5⟩, ⟨fast, .saturatingConsume ⟨2, by decide⟩, 1700000004.9⟩]
    let sched := (List.range 24).map fun n => (n % 3 != 0, n % 5 == 3)
    let trace := (Pool.run HandleCall.code sched (.init 1699999950.5 calls)).trace
    77 < ((returns trace).map fun x => x.request.secsWithin 1700000000 1700000028 x.response).sum ∧
      ((returns trace).map fun x => x.request.secsWithin 1700000000 1700000028 x.response).sum ≤
        61 + (1700000028 - 1700000000) +
          lost (loss 61 (2 ^ 31)) (fromFirst (opening (HandleCall.readsFrom 1700000000)) trace) := by
  refine ⟨by decide +kernel, ?_⟩
  refine rounded_rate (by decide +kernel) _ (by norm_num) (by norm_num) (by norm_num) (by norm_num)
    (by decide +kernel) ?_
  intro i c hc
  cases i <;> rcases List.mem_pair.1 hc with rfl | rfl <;>
    refine ⟨by decide +kernel, fun t ht => ?_⟩ <;> cases ht
  decide +kernel

end Gardal.F64
