import Gardal.Conservation
import Gardal.OwnDebt
import Gardal.Tab
/-!
# The rate of a bucket whose handles have limits of their own

Clones of a bucket share its zero time, each with its own copy of the limit, and the calls on them
interleave as they like. A call that is answered has taken seconds of the zero time; its caller goes on at
its reading of the clock, or at the end of the wait it was told.

`shared_rate` bounds what is taken in a window from the first reading to the time the caller goes on, borrowed
tokens included: the debt of others may lengthen a wait, but it never shortens one.
-/
namespace Gardal
open Cell Ledger Stretch TokenBucketStorage RawTokenBucket

/-- A call on a handle with the limit `limit`. -/
structure HandleCall where
  limit : Limit
  req : Request
  deriving DecidableEq

namespace HandleCall

def code (c : HandleCall) : Code Response := c.req.code c.limit

/-- The seconds of refill a finished call has taken. -/
def secsTaken (c : HandleCall) (r : Response) : ℚ := c.req.taken c.limit r / c.limit.rate

/-- When the caller of a finished call goes on. -/
def goesOn (c : HandleCall) (r : Response) : ℚ := c.req.now + r.waited

/-- It reads the clock, no earlier than `t₁`. -/
def readsFrom (t₁ : ℚ) (c : HandleCall) : Bool := !c.req.call.isAddTokens && decide (t₁ ≤ c.req.now)

/-- The seconds a finished call has taken, if it falls into the window. -/
def secsWithin (t₁ t₂ : ℚ) (c : HandleCall) (r : Response) : ℚ :=
  if c.readsFrom t₁ ∧ c.goesOn r ≤ t₂ then c.secsTaken r else 0

end HandleCall

/-! ## The pieces of a call -/

/-- Pieces that amount to `secs`, taken at the reading `now` by a caller that goes on at `t`. -/
def Pays (now t secs : ℚ) (ps : List Piece) : Prop :=
  (∀ p ∈ ps, p.reading = now ∧ ∃ t' ∈ p.until?, t' ≤ t) ∧ (ps.map Piece.secs).sum = secs

section
variable {now t t₁ t₂ secs : ℚ} {ps : List Piece} {p : Piece}

theorem Pays.nil (now t : ℚ) : Pays now t 0 [] := ⟨by simp, rfl⟩

theorem Pays.cons (h : Pays now t secs ps) (hr : p.reading = now) {t' : ℚ} (hu : p.until? = some t')
    (ht : t' ≤ t) : Pays now t (p.secs + secs) (p :: ps) := by
  refine ⟨List.forall_mem_cons.2 ⟨⟨hr, t', hu, ht⟩, h.1⟩, ?_⟩
  rw [List.map_cons, List.sum_cons, h.2]

theorem Pays.mono (h : Pays now t secs ps) {t' : ℚ} (ht : t ≤ t') : Pays now t' secs ps := by
  refine ⟨fun p hp => ?_, h.2⟩
  obtain ⟨hr, t₀, ht₀, hle⟩ := h.1 p hp
  exact ⟨hr, t₀, ht₀, hle.trans ht⟩

/-- Pieces of a call that falls into the window are settled in it. -/
theorem Pays.settled (h : Pays now t secs ps) (h₁ : t₁ ≤ now) (h₂ : t ≤ t₂) :
    (ps.map (Piece.settled t₁ t₂)).sum = secs := by
  rw [← h.2]
  congr 1
  refine List.map_congr_left fun p hp => ?_
  obtain ⟨hr, t', ht', hle⟩ := h.1 p hp
  rw [Piece.settled, if_pos ⟨by rwa [hr], t', ht', hle.trans h₂⟩]

end

/-- Between `g₀` and `g` the call has put pieces on its tab that amount to `secs`. -/
def Tab.Paid (g₀ g : Tab) (now t secs : ℚ) : Prop :=
  g.reads = g₀.reads ∧ ∃ ps, g.pieces = ps ++ g₀.pieces ∧ Pays now t secs ps

namespace Tab.Paid
variable {g₀ g : Tab} {now t secs : ℚ} {p : Piece}

theorem refl (g : Tab) (now t : ℚ) : g.Paid g now t 0 := ⟨rfl, [], rfl, .nil now t⟩

theorem cons (h : g₀.Paid g now t secs) (hr : p.reading = now) {t' : ℚ} (hu : p.until? = some t')
    (ht : t' ≤ t) : g₀.Paid { g with pieces := p :: g.pieces } now t (p.secs + secs) := by
  obtain ⟨hreads, ps, hps, hpays⟩ := h
  exact ⟨hreads, p :: ps, by simp [hps], hpays.cons hr hu ht⟩

theorem mono (h : g₀.Paid g now t secs) {t' : ℚ} (ht : t ≤ t') : g₀.Paid g now t' secs := by
  obtain ⟨hreads, ps, hps, hpays⟩ := h
  exact ⟨hreads, ps, hps, hpays.mono ht⟩

end Tab.Paid

/-! ## Every call keeps to its tab -/

section
variable {burst now k : ℚ} {limit : Limit} {g : Tab}

/-- The piece of a drain is good at once. -/
def drained (limit : Limit) (now : ℚ) {c : ℚ} (hc : 0 ≤ c) : Piece :=
  ⟨now, c / limit.rate, div_nonneg hc limit.rate_pos.le, some now⟩

theorem tab_drain (hlimit : limit.burst / limit.rate ≤ burst) (hr : g.reads now) {site : Site} {v c : ℚ}
    (hc : 0 ≤ c) (ha : c ≤ limit.balance now v) :
    (tabProtocol burst).move g site (.exchange v (limit.charged now v c))
      { g with pieces := drained limit now hc :: g.pieces } := by
  obtain ⟨-, hup, hfloor, hceil⟩ := limit.charged_moves_now hc ha
  rw [sub_div] at hfloor
  refine .drain hr rfl hup ?_ hceil
  simp only [Deed.after_exchange, drained]
  linarith

theorem paid_drain {c : ℚ} (hc : 0 ≤ c) {g' : Tab} {secs : ℚ} (h : g.Paid g' now now secs) :
    g.Paid { g' with pieces := drained limit now hc :: g'.pieces } now now (c / limit.rate + secs) :=
  h.cons rfl rfl le_rfl

variable (hlimit : limit.burst / limit.rate ≤ burst) (hr : g.reads now)
include hlimit hr

theorem consume_exactly_tab (hk : 0 < k) :
    (TokenBucketStorage.consume limit.rate limit.burst now (exactly k)).wp (tabProtocol burst)
      (fun c g' => (c = 0 ∧ g.Paid g' now now 0) ∨ (c = k ∧ g.Paid g' now now (k / limit.rate))) g := by
  refine consume_exactly_wp hk (fun v _ _ _ _ _ => ⟨g, .nothing, .inl ⟨rfl, .refl g now now⟩⟩)
    fun v _ hle => ?_
  refine ⟨⟨_, tab_drain hlimit hr hk.le hle, .inr ⟨rfl, ?_⟩⟩, fun _ _ _ => .nothing⟩
  simpa using paid_drain hk.le (.refl g now now)

theorem consume2_exactly_tab (hk : 0 < k) :
    (consume2 limit.rate limit.burst now (exactly k)).wp (tabProtocol burst)
      (fun a g' => (∃ zt, a = .zeroedAt zt ∧ g.Paid g' now now 0) ∨
        (a = .acquired k ∧ g.Paid g' now now (k / limit.rate))) g := by
  refine consume2_exactly_wp hk (fun v _ _ _ _ _ => ⟨g, .nothing, .inl ⟨v, rfl, .refl g now now⟩⟩)
    fun v _ hle => ?_
  refine ⟨⟨_, tab_drain hlimit hr hk.le hle, .inr ⟨rfl, ?_⟩⟩, fun _ _ _ => .nothing⟩
  simpa using paid_drain hk.le (.refl g now now)

theorem saturatingConsumeInner_tab (hk : 0 < k) :
    (saturatingConsumeInner k now limit).wp (tabProtocol burst)
      (fun c g' => g.Paid g' now now (c / limit.rate)) g := by
  refine saturatingConsumeInner_wp hk (fun v _ _ _ _ _ => ⟨g, .nothing, ?_⟩) fun v c _ _ hc _ hca => ?_
  · rw [zero_div]
    exact .refl g now now
  · refine ⟨⟨_, tab_drain hlimit hr hc.le hca, ?_⟩, fun _ _ _ => .nothing⟩
    simpa using paid_drain hc.le (.refl g now now)

omit hlimit hr in
theorem returnTokens_tab (tokens : ℚ) :
    (returnTokens tokens limit.rate).wp (tabProtocol burst) (fun _ g' => g' = g) g :=
  returnTokens_wp fun _ _ => ⟨⟨g, .nothing, rfl⟩, fun _ _ _ => .nothing⟩

/-- The borrowing loop pays for the whole request by the end of the wait it reports. -/
theorem borrowLoop_tab {R : Type} {borrowed : ℚ → R} {paid : R} (hk : 0 ≤ k) (hb : k ≤ limit.burst) :
    (Prog.loop (borrowStep now limit borrowed paid) k).wp (tabProtocol burst)
      (fun r g' => (r = paid ∧ g.Paid g' now now (k / limit.rate)) ∨
        ∃ nap, r = borrowed nap ∧ 0 ≤ nap ∧ g.Paid g' now (now + nap) (k / limit.rate)) g := by
  have hrate := limit.rate_pos
  refine borrowLoop_wp (fun rest g' => rest ≤ k ∧ g.Paid g' now now ((k - rest) / limit.rate))
    (fun rest g' => g'.dry = some now ∧ rest ≤ k ∧ g.Paid g' now now ((k - rest) / limit.rate))
    (fun g' => ∃ p ps, p.until? = none ∧ p.reading = now ∧ g'.pieces = p :: (ps ++ g.pieces) ∧
      g'.reads = g.reads ∧ Pays now now (k / limit.rate - p.secs) ps) ?_ ?_ ?_ ?_ ?_ hk ?_
  · rintro rest g' v - ⟨hle, hpaid⟩ - hv d hd hw
    refine ⟨{ g' with dry := some now }, .dry (by rw [hpaid.1]; exact hr) (d.after_eq_before hw)
      (by rwa [hd]), rfl, hle, hpaid⟩
  · rintro rest g' v c ⟨hle, hpaid⟩ - - hc - hca
    refine ⟨⟨_, tab_drain hlimit (by rw [hpaid.1]; exact hr) hc.le hca, by linarith, ?_⟩,
      fun _ _ _ => .nothing⟩
    have hsum : (k - (rest - c)) / limit.rate = c / limit.rate + (k - rest) / limit.rate := by
      rw [← add_div]
      congr 1
      ring
    rw [hsum]
    exact paid_drain hc.le hpaid
  · rintro rest g' v hpos ⟨hdry, hle, hreads, ps, hps, hpays⟩ -
    have hsecs : rest / limit.rate ≤ burst :=
      (div_le_div_of_nonneg_right (hle.trans hb) hrate.le).trans hlimit
    have hdebt : ∃ p : Piece, p.reading = now ∧ p.secs = rest / limit.rate ∧ p.until? = none :=
      ⟨⟨now, _, div_nonneg hpos.le hrate.le, none⟩, rfl, rfl, rfl⟩
    obtain ⟨p, rfl, hp, hu⟩ := hdebt
    refine ⟨⟨{ g' with pieces := p :: g'.pieces }, .borrow (by rw [hreads]; exact hr) hdry hu
      (by rwa [hp]) (by rw [hp]; rfl), p, ps, hu, rfl, by simp [hps], hreads, ?_⟩, fun _ _ _ => .nothing⟩
    rwa [hp, ← sub_div]
  · rintro g' v ⟨p, ps, hu, rfl, hpieces, hreads, hpays⟩ -
    refine ⟨_, .told hpieces hu rfl, .inr ⟨_, rfl, le_max_right _ _, hreads,
      { p with until? := some (max p.reading v) } :: ps, rfl, ?_⟩⟩
    have hgoes : p.reading + max (v - p.reading) 0 = max p.reading v := by
      rw [← max_add_add_left, add_sub_cancel, add_zero, max_comm]
    rw [hgoes]
    simpa using (hpays.mono (le_max_left p.reading v)).cons (p := { p with until? := some (max p.reading v) })
      rfl rfl le_rfl
  · rintro g' ⟨-, hpaid⟩
    rw [sub_zero] at hpaid
    exact .inl ⟨rfl, hpaid⟩
  · refine ⟨le_rfl, ?_⟩
    rw [sub_self, zero_div]
    exact .refl g now now

end

/-! ## Every run -/

namespace HandleCall

/-- The tab a call starts with. -/
def tab (c : HandleCall) : Tab :=
  ⟨fun now => c.req.call.isAddTokens = false ∧ now = c.req.now, [], none⟩

/-- What a finished call has taken is on its tab, and its caller goes on no sooner than it is good. -/
def Settles (c : HandleCall) (r : Response) (g : Tab) : Prop :=
  ∃ t, t ≤ c.goesOn r ∧ c.tab.Paid g c.req.now t (c.secsTaken r)

theorem Settles.le {c : HandleCall} {r : Response} {g : Tab} (h : c.Settles r g) (t₁ t₂ : ℚ) :
    c.secsWithin t₁ t₂ r ≤ g.settled t₁ t₂ := by
  obtain ⟨t, ht, -, ps, hps, hpays⟩ := h
  obtain rfl : g.pieces = ps := by simpa [tab] using hps
  unfold secsWithin
  split
  · rename_i hin
    obtain ⟨hfrom, huntil⟩ := hin
    have h₁ : t₁ ≤ c.req.now := by simpa using (Bool.and_eq_true_iff.1 hfrom).2
    exact (hpays.settled h₁ (ht.trans huntil)).ge
  · exact settled_sum_nonneg t₁ t₂ _

theorem code_tab {burst : ℚ} (c : HandleCall) (hlimit : c.limit.burst / c.limit.rate ≤ burst) :
    c.code.wp (tabProtocol burst) (fun r g => c.Settles r g) c.tab := by
  obtain ⟨limit, call, now⟩ := c
  -- A call that takes all or nothing, and is answered at once.
  have hat : ∀ {c : HandleCall} {r : Response} {g : Tab} {secs : ℚ}, c.tab.Paid g c.req.now c.req.now secs →
      c.secsTaken r = secs → 0 ≤ r.waited → c.Settles r g := by
    rintro c r g _ h rfl hw
    exact ⟨c.req.now, le_add_of_nonneg_right hw, h⟩
  cases call with
  | consume k =>
    show (TokenBucketStorage.consume limit.rate limit.burst now (exactly k.toRat)).wp _
      (fun x g => Settles ⟨limit, .consume k, now⟩ (.consume (Tokens.newChecked x)) g) _
    refine Prog.wp_mono _ ?_ (consume_exactly_tab (g := tab ⟨limit, .consume k, now⟩) hlimit
      ⟨rfl, rfl⟩ k.toRat_pos)
    rintro x g (⟨rfl, h⟩ | ⟨rfl, h⟩)
    · exact hat h (zero_div _) le_rfl
    · rw [Tokens.newChecked, if_neg k.toRat_ne_zero]
      exact hat h rfl le_rfl
  | tryConsume k =>
    show (consume2 limit.rate limit.burst now (exactly k.toRat)).wp _
      (fun a g => Settles ⟨limit, .tryConsume k, now⟩
        (.tryConsume (acquisitionResult k.toRat now limit a)) g) _
    refine Prog.wp_mono _ ?_ (consume2_exactly_tab (g := tab ⟨limit, .tryConsume k, now⟩) hlimit
      ⟨rfl, rfl⟩ k.toRat_pos)
    rintro a g (⟨zt, rfl, h⟩ | ⟨rfl, h⟩)
    · exact hat h (zero_div _) le_rfl
    · exact hat h rfl le_rfl
  | saturatingConsume k =>
    show (saturatingConsumeInner k.toRat now limit).wp _
      (fun x g => Settles ⟨limit, .saturatingConsume k, now⟩
        (.saturatingConsume (Tokens.newChecked x)) g) _
    refine Prog.wp_mono _ ?_ (saturatingConsumeInner_tab (g := tab ⟨limit, .saturatingConsume k, now⟩)
      hlimit ⟨rfl, rfl⟩ k.toRat_pos)
    intro x g h
    by_cases hx : x = 0
    · subst hx
      rw [Tokens.newChecked, if_pos rfl]
      exact hat h rfl le_rfl
    · rw [Tokens.newChecked, if_neg hx]
      exact hat h rfl le_rfl
  | consumeWithBorrow k =>
    simp only [code, Request.code, consumeWithBorrow]
    split
    · rename_i hb
      refine hat (.refl _ _ _) ?_ le_rfl
      simp [secsTaken, Request.taken, not_le.2 hb]
    · rename_i hb
      have hk := not_lt.1 hb
      show (Prog.loop (borrowStep now limit (fun nap => .ok (Nanos.newChecked nap)) (.ok none)) k.toRat).wp _
        (fun a g => Settles ⟨limit, .consumeWithBorrow k, now⟩ (.consumeWithBorrow a) g) _
      refine Prog.wp_mono _ ?_ (borrowLoop_tab (g := tab ⟨limit, .consumeWithBorrow k, now⟩) hlimit
        ⟨rfl, rfl⟩ k.toRat_pos.le hk)
      rintro r g (⟨rfl, h⟩ | ⟨nap, rfl, -, h⟩)
      · exact hat h (by simp [secsTaken, Request.taken, hk]) le_rfl
      · refine ⟨now + nap, ?_, ?_⟩
        · by_cases hle : nap ≤ 0
          · simp [goesOn, Nanos.newChecked, hle, Response.waited]
          · simp [goesOn, Nanos.newChecked, hle, Response.waited, Nanos.fromSecsF64Unchecked]
        · simpa [secsTaken, Request.taken, hk] using h
  | saturatingConsumeWithBorrow k =>
    show (Prog.loop (borrowStep now limit
      (fun nap => (Tokens.newChecked (min k.toRat limit.burst), Duration.fromSecsF64 nap)) (none, ⟨0⟩))
      (min k.toRat limit.burst)).wp _
      (fun a g => Settles ⟨limit, .saturatingConsumeWithBorrow k, now⟩ (.saturatingConsumeWithBorrow a) g) _
    refine Prog.wp_mono _ ?_ (borrowLoop_tab (g := tab ⟨limit, .saturatingConsumeWithBorrow k, now⟩) hlimit
      ⟨rfl, rfl⟩ (le_min k.toRat_pos.le limit.burst_pos.le) (min_le_right _ _))
    rintro r g (⟨rfl, h⟩ | ⟨nap, rfl, -, h⟩)
    · exact ⟨now, (add_zero now).ge, h⟩
    · exact ⟨now + nap, le_rfl, h⟩
  | addTokens tokens =>
    show (returnTokens (tokens : ℚ) limit.rate).wp _
      (fun _ g => Settles ⟨limit, .addTokens tokens, now⟩ .addTokens g) _
    refine Prog.wp_mono _ ?_ (returnTokens_tab tokens)
    rintro _ g rfl
    exact hat (.refl _ _ _) (zero_div _) le_rfl

end HandleCall

/-- **The shared rate.** Handles with limits of their own make any calls, in any interleaving. The seconds of
refill that the calls take which read the clock from `t₁` on and let their caller go on until `t₂` are at most
the largest burst, in seconds, and `t₂ - t₁`, and what `add_tokens` has put back since the first of them
started. -/
theorem shared_rate {ι : Type} [DecidableEq ι] (zt : ℚ) {calls : ι → List HandleCall}
    (sched : List (ι × Bool)) {burst t₁ t₂ : ℚ} (hburst : 0 ≤ burst) (ht : t₁ ≤ t₂)
    (hlimit : ∀ i, ∀ c ∈ calls i, c.limit.burst / c.limit.rate ≤ burst) :
    let trace := (Pool.run HandleCall.code sched (.init zt calls)).trace
    ((returns trace).map fun x => x.request.secsWithin t₁ t₂ x.response).sum ≤
      burst + (t₂ - t₁) + putBack (fromFirst (opening (HandleCall.readsFrom t₁)) trace) := by
  refine tab_bound hburst ht HandleCall.tab (HandleCall.secsWithin t₁ t₂) (HandleCall.readsFrom t₁)
    (fun _ => ⟨rfl, rfl⟩) ?_ ?_ zt sched
  · rintro c hc now ⟨hadd, rfl⟩
    simpa [HandleCall.readsFrom, hadd] using hc
  · intro i c hc
    exact Prog.wp_mono _ (fun r g h => h.le t₁ t₂) (c.code_tab (hlimit i c hc))

/-- Two handles, at one token a second and at two. One borrows while the other is between its debt and its
wait, and then a token is put back. -/
theorem shared_rate_two :
    let slow := Limit.perSecond ⟨1, by decide⟩
    let fast := Limit.perSecondAndBurst ⟨2, by decide⟩ ⟨4, by decide⟩
    let calls : Bool → List HandleCall := fun i =>
      if i then [⟨slow, .consumeWithBorrow ⟨1, by decide⟩, 1⟩, ⟨slow, .consumeWithBorrow ⟨1, by decide⟩, 1⟩]
      else [⟨fast, .saturatingConsumeWithBorrow ⟨4, by decide⟩, 1⟩, ⟨fast, .addTokens ⟨1, by decide⟩, 1⟩]
    let sched := ([true, true, true, true, false, false, true, true, true, false, false, false, false, true,
      false, false, false, false].map fun i => (i, false))
    let trace := (Pool.run HandleCall.code sched (.init 0 calls)).trace
    ((returns trace).map fun x => x.request.secsWithin 1 4 x.response).sum = 4 ∧
      ((returns trace).map fun x => x.request.secsWithin 1 4 x.response).sum ≤
        2 + (4 - 1) + putBack (fromFirst (opening (HandleCall.readsFrom 1)) trace) := by
  refine ⟨by decide +kernel, shared_rate 0 _ (by norm_num) (by norm_num) ?_⟩
  decide +kernel

end Gardal
