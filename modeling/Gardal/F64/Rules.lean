import Gardal.F64.Arith
import Gardal.Rules
/-!
# Rules for the rounded code in any protocol

What `Gardal.Rules` is for the exact code: one rule per storage routine and one for the borrowing loop. Besides,
each operation on floats is rewritten to its rounded arithmetic; nothing overflows as long as the zero time is
in range, and it stays in range.
-/
namespace Gardal.F64
open Cell Ieee

/-- The zero time, as long as nothing overflows. -/
abbrev InRange : Float → Prop := Within (-2 ^ 200) (2 ^ 200)

/-- A reading of the clock. -/
abbrev Reading (M : ℚ) : Float → Prop := Within (-M) M

section
variable {lo hi : ℚ} {x : Float}

theorem Within.is (h : Within lo hi x) : Is x (toRat x) := is_toRat h.finite

theorem Within.double (h : Within lo hi x) : Double (toRat x) := h.is.double

theorem Within.abs_toRat_le (h : Within (-hi) hi x) : |toRat x| ≤ hi := abs_le.2 ⟨h.le, h.ge⟩

theorem Within.mono (h : Within lo hi x) {lo' hi' : ℚ} (hlo : lo' ≤ lo) (hhi : hi ≤ hi') : Within lo' hi' x :=
  ⟨h.finite, hlo.trans h.le, h.ge.trans hhi⟩

theorem within_of_abs {q : ℚ} (h : Is x q) (hq : |q| ≤ hi) : Within (-hi) hi x :=
  .of_is h (abs_le.1 hq).1 (abs_le.1 hq).2

end

theorem is_zero : Is 0.0 0 := ⟨by decide +kernel, by decide +kernel⟩

namespace Limit
variable (limit : Limit)

theorem rate_pos : 0 < toRat limit.rate := lt_of_lt_of_le (by norm_num) limit.rate_within.le

theorem burst_pos : 0 < toRat limit.burst := lt_of_lt_of_le one_pos limit.burst_within.le

/-- The limit that the two floats stand for. -/
def exact : Gardal.Limit := ⟨toRat limit.rate, toRat limit.burst, limit.rate_pos, limit.burst_pos⟩

/-- A burst lasts no shorter than this. -/
theorem le_burst_div_rate : 1 / 2 ^ 32 ≤ toRat limit.burst / toRat limit.rate := by
  rw [div_le_div_iff₀ (by norm_num) limit.rate_pos]
  linarith [limit.rate_within.ge, limit.burst_within.le]

/-- The balance at `now` when the zero time is `v`. -/
def balance (now v : Float) : ℚ :=
  roundedBalance (toRat limit.rate) (toRat limit.burst) (toRat now) (toRat v)

/-- The zero time after `c` tokens are taken at `now`. -/
def charged (now v : Float) (c : ℚ) : ℚ :=
  roundedCharge (toRat limit.rate) (toRat now) (limit.balance now v) c

/-- The zero time after `k` tokens are borrowed. -/
def indebted (v : Float) (k : ℚ) : ℚ := fl (toRat v + fl (k / toRat limit.rate))

end Limit

/-! ## Operations on floats -/

section
variable (limit : Limit) {now v x : Float} {c k : ℚ}

theorem is_balanceOf (hnow : Reading (2 ^ 100) now) (hv : InRange v) :
    Is (TokenBucketStorage.balanceOf limit.rate limit.burst now v) (limit.balance now v) := by
  have hsub : |toRat now - toRat v| ≤ 2 ^ 201 := by
    refine (abs_sub _ _).trans ((add_le_add hnow.abs_toRat_le hv.abs_toRat_le).trans ?_)
    norm_num
  have hmul : |fl (toRat now - toRat v) * toRat limit.rate| ≤ 2 ^ 233 := by
    have hrate : |toRat limit.rate| ≤ 2 ^ 32 := by
      rw [abs_of_pos limit.rate_pos]
      exact limit.rate_within.ge
    rw [abs_mul]
    calc |fl (toRat now - toRat v)| * |toRat limit.rate| ≤ 2 ^ 201 * 2 ^ 32 :=
          mul_le_mul (abs_fl_le (double_two_pow 201) hsub) hrate (abs_nonneg _) (by norm_num)
      _ = 2 ^ 233 := by norm_num
  exact ((hnow.is.sub hv.is (abs_fl_lt (by norm_num) hsub)).mul limit.rate_within.is
    (abs_fl_lt (by norm_num) hmul)).minNum limit.burst_within.is

theorem Limit.balance_le_burst (now v : Float) : limit.balance now v ≤ 2 ^ 32 :=
  roundedBalance_le_burst.trans limit.burst_within.ge

/-- The seconds of up to `2 ^ m` tokens. -/
theorem is_div_rate {m : ℕ} (hx : Is x k) (hk : |k| ≤ 2 ^ m) (hm : m ≤ 200) :
    Is (x / limit.rate) (fl (k / toRat limit.rate)) ∧ |fl (k / toRat limit.rate)| ≤ 2 ^ (m + 12) := by
  have hdiv : |k / toRat limit.rate| ≤ 2 ^ (m + 12) := by
    rw [abs_div, abs_of_pos limit.rate_pos, div_le_iff₀ limit.rate_pos, pow_add]
    have hrate := limit.rate_within.le
    have hpow : (0 : ℚ) < 2 ^ m := by positivity
    nlinarith
  exact ⟨hx.div limit.rate_within.is limit.rate_pos.ne' (abs_fl_lt (by omega) hdiv),
    abs_fl_le (double_two_pow _) hdiv⟩

theorem is_zeroTimeNew (hnow : Reading (2 ^ 100) now) {avail : Float} (ha : Is avail (limit.balance now v))
    (hx : Is x c) (hc0 : 0 ≤ c) (hc : c ≤ limit.balance now v) :
    Is (TokenBucketStorage.zeroTimeNew limit.rate now avail x) (limit.charged now v c) ∧
      InRange (TokenBucketStorage.zeroTimeNew limit.rate now avail x) := by
  have hle := limit.balance_le_burst now v
  have hsub : |limit.balance now v - c| ≤ 2 ^ 32 := by
    rw [abs_of_nonneg (sub_nonneg.2 hc)]
    linarith
  obtain ⟨hq, hqle⟩ := is_div_rate limit (ha.sub hx (abs_fl_lt (by norm_num) hsub))
    (abs_fl_le (double_two_pow 32) hsub) (by norm_num)
  have hw : |toRat now - fl (fl (limit.balance now v - c) / toRat limit.rate)| ≤ 2 ^ 200 := by
    refine (abs_sub _ _).trans ((add_le_add hnow.abs_toRat_le hqle).trans ?_)
    norm_num
  have his := hnow.is.sub hq (abs_fl_lt (by norm_num) hw)
  exact ⟨his, within_of_abs his (abs_fl_le (double_two_pow 200) hw)⟩

/-- Whole tokens never take the zero time back. -/
theorem le_charged_of_one_le {w : Float} (hv : InRange v) (hc1 : 1 ≤ c) (hc : c ≤ limit.balance now v)
    (hw : Is w (limit.charged now v c)) : toRat v ≤ toRat w := by
  rw [hw.toRat]
  exact le_roundedCharge_of_one_le limit.rate_within.le limit.rate_within.ge limit.burst_within.le
    limit.burst_within.ge hv.double hc1 hc

/-- Draining everything takes it to the clock. -/
theorem charged_all {w : Float} (hnow : Reading (2 ^ 100) now) (hc0 : 0 < c) (hc : c = limit.balance now v)
    (hw : Is w (limit.charged now v c)) : toRat v < toRat now ∧ toRat w = toRat now := by
  subst hc
  refine ⟨lt_of_roundedBalance_pos limit.rate_pos.le hc0, ?_⟩
  rw [hw.toRat]
  exact roundedCharge_self hnow.double

/-- What `return_tokens` computes. -/
theorem is_returned (hv : InRange v) (hx : Is x k) (hk : |k| ≤ 2 ^ 100) :
    Is (v - x / limit.rate) (fl (toRat v - fl (k / toRat limit.rate))) ∧ InRange (v - x / limit.rate) := by
  obtain ⟨hq, hqle⟩ := is_div_rate limit hx hk (by norm_num)
  have hsum : |toRat v - fl (k / toRat limit.rate)| ≤ 2 ^ 200 + 2 ^ 112 :=
    (abs_sub _ _).trans (add_le_add hv.abs_toRat_le hqle)
  have his := hv.is.sub hq (abs_fl_lt (n := 201) (by norm_num) (hsum.trans (by norm_num)))
  exact ⟨his, within_of_abs his (abs_fl_le_two_pow (hsum.trans_lt (by norm_num)))⟩

theorem is_indebted (hv : InRange v) (hx : Is x k) (hk0 : 0 ≤ k) (hk : k ≤ 2 ^ 32) :
    Is (v - -x / limit.rate) (limit.indebted v k) ∧ InRange (v - -x / limit.rate) := by
  have hneg : |-k| ≤ 2 ^ 100 := by
    rw [abs_neg, abs_of_nonneg hk0]
    exact hk.trans (by norm_num)
  obtain ⟨his, hrange⟩ := is_returned limit hv hx.neg hneg
  refine ⟨?_, hrange⟩
  rwa [neg_div, show fl (-(k / toRat limit.rate)) = -fl (k / toRat limit.rate) from rnd_neg _, sub_neg_eq_add]
    at his

/-- What is left of a request for no more than a burst. -/
theorem is_rest {y : Float} (hx : Is x k) (hy : Is y c) (hc0 : 0 ≤ c) (hc : c ≤ k)
    (hk : k ≤ toRat limit.burst) :
    Is (x - y) (fl (k - c)) ∧ 0 ≤ fl (k - c) ∧ fl (k - c) ≤ toRat limit.burst := by
  have hsub : |k - c| ≤ 2 ^ 32 := by
    rw [abs_of_nonneg (sub_nonneg.2 hc)]
    linarith [limit.burst_within.ge]
  have hle : fl (k - c) ≤ k := rnd_le hx.double (by linarith)
  exact ⟨hx.sub hy (abs_fl_lt (by norm_num) hsub), fl_nonneg (sub_nonneg.2 hc), hle.trans hk⟩

/-- The wait, from the zero time `v` that `time_when_bucket` reads. -/
theorem is_napTime (hnow : Reading (2 ^ 100) now) (hv : InRange v) :
    Is (maxNum (v + 0.0 / limit.rate - now) 0.0) (max (fl (toRat v - toRat now)) 0) := by
  obtain ⟨hq, -⟩ := is_div_rate limit (m := 0) is_zero (by norm_num) (by norm_num)
  rw [zero_div, fl_of_double .zero] at hq
  have hsum : |toRat v + 0| ≤ 2 ^ 200 := by
    rw [add_zero]
    exact hv.abs_toRat_le
  have hpaid := hv.is.add hq (abs_fl_lt (by norm_num) hsum)
  rw [add_zero, fl_of_double hv.double] at hpaid
  have hsub : |toRat v - toRat now| ≤ 2 ^ 201 := by
    refine (abs_sub _ _).trans ((add_le_add hv.abs_toRat_le hnow.abs_toRat_le).trans ?_)
    norm_num
  exact (hpaid.sub hnow.is (abs_fl_lt (by norm_num) hsub)).maxNum is_zero

/-! ## The closures -/

theorem exactly_eq {avail : Float} {a : ℚ} (ha : Is avail a) (hx : Is x k) :
    RawTokenBucket.exactly x avail = if a < k then 0.0 else x := by
  unfold RawTokenBucket.exactly
  simp only [ha.lt_iff hx]

theorem is_upTo {avail : Float} {a : ℚ} (ha : Is avail a) (hx : Is x k) :
    Is (RawTokenBucket.upTo x avail) (Gardal.RawTokenBucket.upTo k a) :=
  (ha.maxNum is_zero).minNum hx

/-! ## One iteration -/

open F64.TokenBucketStorage F64.RawTokenBucket

/-- `consume2` tries what `consume` tries. -/
theorem consume2Step_eq (rate burst now : Float) (f : Float → Float) (v : Float) :
    consume2Step rate burst now f v =
      match consumeStep rate burst now f v with
      | .stop _ => .stop (.zeroedAt v)
      | .write w y => .write w (.acquired y) := by
  simp only [consume2Step, consumeStep]
  split <;> rfl

variable {limit} (hnow : Reading (2 ^ 100) now) (hv : InRange v) (hx : Is x k) (hk : 0 < k)
include hnow hv hx hk

theorem consumeStep_exactly :
    (limit.balance now v < k ∧ consumeStep limit.rate limit.burst now (exactly x) v = .stop 0.0) ∨
      ∃ w, consumeStep limit.rate limit.burst now (exactly x) v = .write w x ∧ k ≤ limit.balance now v ∧
        Is w (limit.charged now v k) ∧ InRange w := by
  have ha := is_balanceOf limit hnow hv
  simp only [consumeStep, exactly_eq ha hx]
  by_cases h : limit.balance now v < k
  · rw [if_pos h, if_pos ((is_zero.beq_iff is_zero).2 rfl)]
    exact .inl ⟨h, rfl⟩
  · have hle := not_lt.1 h
    rw [if_neg h, if_neg fun h => hk.ne' ((hx.beq_iff is_zero).1 h)]
    exact .inr ⟨_, rfl, hle, is_zeroTimeNew limit hnow ha hx hk.le hle⟩

theorem consume2Step_exactly :
    (limit.balance now v < k ∧
        consume2Step limit.rate limit.burst now (exactly x) v = .stop (.zeroedAt v)) ∨
      ∃ w, consume2Step limit.rate limit.burst now (exactly x) v = .write w (.acquired x) ∧
        k ≤ limit.balance now v ∧ Is w (limit.charged now v k) ∧ InRange w := by
  rw [consume2Step_eq]
  rcases consumeStep_exactly hnow hv hx hk with ⟨h, he⟩ | ⟨w, he, hw⟩ <;> rw [he]
  · exact .inl ⟨h, rfl⟩
  · exact .inr ⟨w, rfl, hw⟩

/-- A drain finds the bucket as good as empty, or takes what is there or all that is asked for. -/
theorem consumeStep_upTo :
    (limit.balance now v ≤ 0 ∧ consumeStep limit.rate limit.burst now (upTo x) v = .stop 0.0) ∨
      ∃ w y c, consumeStep limit.rate limit.burst now (upTo x) v = .write w y ∧ Is y c ∧ 0 < c ∧
        c ≤ limit.balance now v ∧ (c = k ∨ c < k ∧ c = limit.balance now v) ∧
        Is w (limit.charged now v c) ∧ InRange w := by
  have ha := is_balanceOf limit hnow hv
  have hup := is_upTo ha hx
  simp only [consumeStep]
  by_cases h : limit.balance now v ≤ 0
  · rw [(upTo_eq_zero_iff hk).2 h] at hup
    rw [if_pos ((hup.beq_iff is_zero).2 rfl)]
    exact .inl ⟨h, rfl⟩
  · have hpos := not_le.1 h
    rw [upTo_of_pos hpos] at hup
    have hc0 : 0 < min (limit.balance now v) k := lt_min hpos hk
    rw [if_neg fun h => hc0.ne' ((hup.beq_iff is_zero).1 h)]
    refine .inr ⟨_, _, _, rfl, hup, hc0, min_le_left _ _, ?_,
      is_zeroTimeNew limit hnow ha hup hc0.le (min_le_left _ _)⟩
    rcases le_or_gt k (limit.balance now v) with hle | hlt
    · exact .inl (min_eq_right hle)
    · rw [min_eq_left hlt.le]
      exact .inr ⟨hlt, rfl⟩

end

/-! ## The loops -/

section
variable {G R : Type} {M : Protocol Float Site G} {limit : Limit} {now x : Float} {g : G} {k : ℚ}
  (hrange : ∀ {g v}, M.knows g v → InRange v) (hnow : Reading (2 ^ 100) now)
include hrange hnow

/-- A request for exactly `k` is refused, or it takes them. -/
theorem consume_exactly_wp {Q : Float → G → Prop} (hx : Is x k) (hk : 0 < k)
    (hstop : ∀ v, M.knows g v → limit.balance now v < k →
      ∀ d : Deed Float, d.before = v → d.writes = false → ∃ g', M.move g .consume d g' ∧ Q 0.0 g')
    (hwrite : ∀ v w, M.knows g v → k ≤ limit.balance now v → Is w (limit.charged now v k) → InRange w →
      (∃ g', M.move g .consume (.exchange v w) g' ∧ Q x g') ∧
      ∀ d : Deed Float, d.before = v → d.writes = false → M.move g .consume d g) :
    (TokenBucketStorage.consume limit.rate limit.burst now (RawTokenBucket.exactly x)).wp M Q g := by
  apply casLoop_wp
  intro v hv
  rcases consumeStep_exactly hnow (hrange hv) hx hk with ⟨h, he⟩ | ⟨w, he, hle, his, hin⟩ <;> rw [he]
  · exact hstop v hv h
  · exact hwrite v w hv hle his hin

theorem consume2_exactly_wp {Q : TokenAcquisition → G → Prop} (hx : Is x k) (hk : 0 < k)
    (hstop : ∀ v, M.knows g v → limit.balance now v < k →
      ∀ d : Deed Float, d.before = v → d.writes = false → ∃ g', M.move g .consume2 d g' ∧ Q (.zeroedAt v) g')
    (hwrite : ∀ v w, M.knows g v → k ≤ limit.balance now v → Is w (limit.charged now v k) → InRange w →
      (∃ g', M.move g .consume2 (.exchange v w) g' ∧ Q (.acquired x) g') ∧
      ∀ d : Deed Float, d.before = v → d.writes = false → M.move g .consume2 d g) :
    (TokenBucketStorage.consume2 limit.rate limit.burst now (RawTokenBucket.exactly x)).wp M Q g := by
  apply casLoop_wp
  intro v hv
  rcases consume2Step_exactly hnow (hrange hv) hx hk with ⟨h, he⟩ | ⟨w, he, hle, his, hin⟩ <;> rw [he]
  · exact hstop v hv h
  · exact hwrite v w hv hle his hin

theorem saturatingConsumeInner_wp {Q : Float → G → Prop} (hx : Is x k) (hk : 0 < k)
    (hempty : ∀ v, M.knows g v → limit.balance now v ≤ 0 →
      ∀ d : Deed Float, d.before = v → d.writes = false → ∃ g', M.move g .consume d g' ∧ Q 0.0 g')
    (hdrain : ∀ v w y c, M.knows g v → Is y c → 0 < c → c ≤ limit.balance now v →
      (c = k ∨ c < k ∧ c = limit.balance now v) → Is w (limit.charged now v c) → InRange w →
      (∃ g', M.move g .consume (.exchange v w) g' ∧ Q y g') ∧
      ∀ d : Deed Float, d.before = v → d.writes = false → M.move g .consume d g) :
    (RawTokenBucket.saturatingConsumeInner x now limit).wp M Q g := by
  apply casLoop_wp
  intro v hv
  rcases consumeStep_upTo hnow (hrange hv) hx hk with ⟨h, he⟩ | ⟨w, y, c, he, hy, hc0, hc, hcase, his, hin⟩ <;>
    rw [he]
  · exact hempty v hv h
  · exact hdrain v w y c hv hy hc0 hc hcase his hin

omit hnow in
theorem returnTokens_wp {Q : Float → G → Prop} (hx : Is x k) (hk : |k| ≤ 2 ^ 100)
    (h : ∀ v w, M.knows g v → Is w (fl (toRat v - fl (k / toRat limit.rate))) → InRange w →
      (∃ g', M.move g .returnTokens (.exchange v w) g' ∧ Q w g') ∧
      ∀ d : Deed Float, d.before = v → d.writes = false → M.move g .returnTokens d g) :
    (TokenBucketStorage.returnTokens x limit.rate).wp M Q g := by
  apply casLoop_wp
  intro v hv
  obtain ⟨his, hin⟩ := is_returned limit (hrange hv) hx hk
  exact h v _ hv his hin

omit hrange hnow in
theorem borrowStep_nospin {borrowed : Float → R} {paid : R} (s s' : Float) :
    (RawTokenBucket.borrowStep now limit borrowed paid s).head ≠ .ret (.inl s') := by
  unfold RawTokenBucket.borrowStep
  split
  · simp [RawTokenBucket.saturatingConsumeInner, TokenBucketStorage.consume, casLoop, Prog.head]
  · simp

/-- **The borrowing loop**, over what is left of a request for no more than a burst. -/
theorem borrowLoop_wp {borrowed : Float → R} {paid : R} {Q : R → G → Prop} (Inv Dry : ℚ → G → Prop)
    (Owes : G → Prop)
    (hempty : ∀ k g v, 0 < k → Inv k g → M.knows g v → limit.balance now v ≤ 0 →
      ∀ d : Deed Float, d.before = v → d.writes = false → ∃ g', M.move g .consume d g' ∧ Dry k g')
    (hdrain : ∀ k g v w c, Double k → k ≤ toRat limit.burst → Inv k g → M.knows g v → 0 < c →
      c ≤ limit.balance now v → (c = k ∨ c < k ∧ c = limit.balance now v) → Is w (limit.charged now v c) →
      InRange w → (∃ g', M.move g .consume (.exchange v w) g' ∧ Inv (fl (k - c)) g') ∧
      ∀ d : Deed Float, d.before = v → d.writes = false → M.move g .consume d g)
    (hborrow : ∀ k g v w, 0 < k → k ≤ toRat limit.burst → Dry k g → M.knows g v → Is w (limit.indebted v k) →
      InRange w → (∃ g', M.move g .returnTokens (.exchange v w) g' ∧ Owes g') ∧
      ∀ d : Deed Float, d.before = v → d.writes = false → M.move g .returnTokens d g)
    (hwait : ∀ g v y, Owes g → M.knows g v → Is y (max (fl (toRat v - toRat now)) 0) →
      ∃ g', M.move g .timeWhenBucket (.load v) g' ∧ Q (borrowed y) g')
    (hpaid : ∀ g, Inv 0 g → Q paid g) (hx : Is x k) (hk : 0 ≤ k) (hb : k ≤ toRat limit.burst) (hInv : Inv k g) :
    (Prog.loop (RawTokenBucket.borrowStep now limit borrowed paid) x).wp M Q g := by
  refine ⟨borrowStep_nospin, fun x g => ∃ k, Is x k ∧ 0 ≤ k ∧ k ≤ toRat limit.burst ∧ Inv k g,
    ⟨k, hx, hk, hb, hInv⟩, ?_⟩
  rintro x g ⟨k, hx, hk, hb, hInv⟩
  unfold RawTokenBucket.borrowStep
  split
  · rename_i h
    have hpos : 0 < k := (is_zero.lt_iff hx).1 h
    refine saturatingConsumeInner_wp hrange hnow hx hpos (fun v hv hle d hd hw => ?_)
      fun v w y c hv hy hc hca hcase hw hin => ?_
    · -- The drain got nothing: the rest is borrowed, in two more accesses.
      obtain ⟨g', hm, hdry⟩ := hempty k g v hpos hInv hv hle d hd hw
      refine ⟨g', hm, ?_⟩
      beta_reduce
      rw [if_neg fun h => lt_irrefl _ ((is_zero.lt_iff is_zero).1 h)]
      apply casLoop_wp
      intro u hu
      obtain ⟨his, hin⟩ := is_indebted limit (hrange hu) hx hk (hb.trans limit.burst_within.ge)
      obtain ⟨⟨g₁, hm₁, howes⟩, hstay⟩ := hborrow k g' u _ hpos hb hdry hu his hin
      refine ⟨⟨g₁, hm₁, Prog.wp_load fun w hw => ?_⟩, hstay⟩
      exact hwait g₁ w _ howes hw (is_napTime limit hnow (hrange hw))
    · obtain ⟨⟨g', hm, hI⟩, hstay⟩ := hdrain k g v w c hx.double hb hInv hv hc hca hcase hw hin
      refine ⟨⟨g', hm, ?_⟩, hstay⟩
      beta_reduce
      rw [if_pos ((is_zero.lt_iff hy).2 hc)]
      obtain ⟨hrest, hrest0, hrestb⟩ := is_rest limit hx hy hc.le (hcase.elim Eq.le fun h => h.1.le) hb
      exact ⟨_, hrest, hrest0, hrestb, hI⟩
  · rename_i h
    obtain rfl : k = 0 := le_antisymm (not_lt.1 fun hpos => h ((is_zero.lt_iff hx).2 hpos)) hk
    exact hpaid g hInv

end
end Gardal.F64
