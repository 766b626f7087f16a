import Gardal.ZeroTime
/-!
# Rules for the bucket's code in any protocol

One rule per storage routine, from `casLoop_wp`, and one for the borrowing loop: whoever wants to show
something of the bucket under concurrency names what holds between the iterations (`Inv`), after a
drain that got nothing (`Dry`) and after the debt is taken (`Owes`), and never looks at the code.
-/
namespace Gardal
open Cell TokenBucketStorage RawTokenBucket

variable {G R : Type} {M : Protocol ℚ Site G} {limit : Limit} {now : ℚ} {g : G}

theorem consume_wp {f : ℚ → ℚ} {Q : ℚ → G → Prop}
    (hstop : ∀ v, M.knows g v → f (limit.balance now v) = 0 →
      ∀ d : Deed ℚ, d.before = v → d.writes = false → ∃ g', M.move g .consume d g' ∧ Q 0 g')
    (hwrite : ∀ v c, M.knows g v → f (limit.balance now v) = c → c ≠ 0 →
      (∃ g', M.move g .consume (.exchange v (limit.charged now v c)) g' ∧ Q c g') ∧
      ∀ d : Deed ℚ, d.before = v → d.writes = false → M.move g .consume d g) :
    (TokenBucketStorage.consume limit.rate limit.burst now f).wp M Q g := by
  apply casLoop_wp
  intro v hv
  rw [consumeStep_eq]
  by_cases h : f (limit.balance now v) = 0
  · rw [if_pos h]
    exact hstop v hv h
  · rw [if_neg h]
    exact hwrite v _ hv rfl h

theorem consume2_wp {f : ℚ → ℚ} {Q : TokenAcquisition → G → Prop}
    (hstop : ∀ v, M.knows g v → f (limit.balance now v) = 0 →
      ∀ d : Deed ℚ, d.before = v → d.writes = false →
        ∃ g', M.move g .consume2 d g' ∧ Q (.zeroedAt v) g')
    (hwrite : ∀ v c, M.knows g v → f (limit.balance now v) = c → c ≠ 0 →
      (∃ g', M.move g .consume2 (.exchange v (limit.charged now v c)) g' ∧ Q (.acquired c) g') ∧
      ∀ d : Deed ℚ, d.before = v → d.writes = false → M.move g .consume2 d g) :
    (consume2 limit.rate limit.burst now f).wp M Q g := by
  apply casLoop_wp
  intro v hv
  rw [consume2Step_eq]
  by_cases h : f (limit.balance now v) = 0
  · rw [if_pos h]
    exact hstop v hv h
  · rw [if_neg h]
    exact hwrite v _ hv rfl h

/-- A request for exactly `k` is refused when there is less than that. -/
theorem consume_exactly_wp {k : ℚ} {Q : ℚ → G → Prop} (hk : 0 < k)
    (hstop : ∀ v, M.knows g v → limit.balance now v < k →
      ∀ d : Deed ℚ, d.before = v → d.writes = false → ∃ g', M.move g .consume d g' ∧ Q 0 g')
    (hwrite : ∀ v, M.knows g v → k ≤ limit.balance now v →
      (∃ g', M.move g .consume (.exchange v (limit.charged now v k)) g' ∧ Q k g') ∧
      ∀ d : Deed ℚ, d.before = v → d.writes = false → M.move g .consume d g) :
    (TokenBucketStorage.consume limit.rate limit.burst now (exactly k)).wp M Q g := by
  refine consume_wp (fun v hv h => ?_) fun v c hv h hc => ?_
  · refine hstop v hv (not_le.1 fun hle => hk.ne' ?_)
    rwa [exactly_of_le hle] at h
  · have hle : k ≤ limit.balance now v := not_lt.1 fun hlt => hc (h ▸ exactly_of_lt hlt)
    obtain rfl : c = k := by rw [← h, exactly_of_le hle]
    exact hwrite v hv hle

theorem consume2_exactly_wp {k : ℚ} {Q : TokenAcquisition → G → Prop} (hk : 0 < k)
    (hstop : ∀ v, M.knows g v → limit.balance now v < k →
      ∀ d : Deed ℚ, d.before = v → d.writes = false →
        ∃ g', M.move g .consume2 d g' ∧ Q (.zeroedAt v) g')
    (hwrite : ∀ v, M.knows g v → k ≤ limit.balance now v →
      (∃ g', M.move g .consume2 (.exchange v (limit.charged now v k)) g' ∧ Q (.acquired k) g') ∧
      ∀ d : Deed ℚ, d.before = v → d.writes = false → M.move g .consume2 d g) :
    (consume2 limit.rate limit.burst now (exactly k)).wp M Q g := by
  refine consume2_wp (fun v hv h => ?_) fun v c hv h hc => ?_
  · refine hstop v hv (not_le.1 fun hle => hk.ne' ?_)
    rwa [exactly_of_le hle] at h
  · have hle : k ≤ limit.balance now v := not_lt.1 fun hlt => hc (h ▸ exactly_of_lt hlt)
    obtain rfl : c = k := by rw [← h, exactly_of_le hle]
    exact hwrite v hv hle

theorem returnTokens_wp {tokens rate : ℚ} {Q : ℚ → G → Prop}
    (h : ∀ v, M.knows g v →
      (∃ g', M.move g .returnTokens (.exchange v (v - tokens / rate)) g' ∧ Q (v - tokens / rate) g') ∧
      ∀ d : Deed ℚ, d.before = v → d.writes = false → M.move g .returnTokens d g) :
    (returnTokens tokens rate).wp M Q g :=
  casLoop_wp h

theorem timeWhenBucket_wp {rate target : ℚ} {Q : ℚ → G → Prop}
    (h : ∀ v, M.knows g v → ∃ g', M.move g .timeWhenBucket (.load v) g' ∧ Q (v + target / rate) g') :
    (timeWhenBucket rate target).wp M Q g :=
  Prog.wp_load h

/-- A drain finds the bucket empty, or takes all of what is there up to `k`. -/
theorem saturatingConsumeInner_wp {k : ℚ} {Q : ℚ → G → Prop} (hk : 0 < k)
    (hempty : ∀ v, M.knows g v → now ≤ v →
      ∀ d : Deed ℚ, d.before = v → d.writes = false → ∃ g', M.move g .consume d g' ∧ Q 0 g')
    (hdrain : ∀ v c, M.knows g v → v < now → 0 < c → c ≤ k → c ≤ limit.balance now v →
      (∃ g', M.move g .consume (.exchange v (limit.charged now v c)) g' ∧ Q c g') ∧
      ∀ d : Deed ℚ, d.before = v → d.writes = false → M.move g .consume d g) :
    (saturatingConsumeInner k now limit).wp M Q g := by
  refine consume_wp (fun v hv h => ?_) fun v c hv h hc => ?_
  · exact hempty v hv (limit.balance_nonpos_iff.1 ((upTo_eq_zero_iff hk).1 h))
  · subst h
    have hlt : v < now := by
      refine not_le.1 fun hle => hc ((upTo_eq_zero_iff hk).2 ?_)
      exact limit.balance_nonpos_iff.2 hle
    exact hdrain v _ hv hlt (lt_of_le_of_ne (upTo_nonneg hk.le) (Ne.symm hc)) upTo_le
      (upTo_le_avail hk hc)

theorem borrowStep_nospin {borrowed : ℚ → R} {paid : R} (s s' : ℚ) :
    (borrowStep now limit borrowed paid s).head ≠ .ret (.inl s') := by
  unfold borrowStep
  split
  · simp [saturatingConsumeInner, TokenBucketStorage.consume, casLoop, Prog.head]
  · simp

/-- **The borrowing loop.** -/
theorem borrowLoop_wp {borrowed : ℚ → R} {paid : R} {Q : R → G → Prop} (Inv Dry : ℚ → G → Prop)
    (Owes : G → Prop)
    (hempty : ∀ k g v, 0 < k → Inv k g → M.knows g v → now ≤ v →
      ∀ d : Deed ℚ, d.before = v → d.writes = false → ∃ g', M.move g .consume d g' ∧ Dry k g')
    (hdrain : ∀ k g v c, Inv k g → M.knows g v → v < now → 0 < c → c ≤ k → c ≤ limit.balance now v →
      (∃ g', M.move g .consume (.exchange v (limit.charged now v c)) g' ∧ Inv (k - c) g') ∧
      ∀ d : Deed ℚ, d.before = v → d.writes = false → M.move g .consume d g)
    (hborrow : ∀ k g v, 0 < k → Dry k g → M.knows g v →
      (∃ g', M.move g .returnTokens (.exchange v (v + k / limit.rate)) g' ∧ Owes g') ∧
      ∀ d : Deed ℚ, d.before = v → d.writes = false → M.move g .returnTokens d g)
    (hwait : ∀ g v, Owes g → M.knows g v →
      ∃ g', M.move g .timeWhenBucket (.load v) g' ∧ Q (borrowed (max (v - now) 0)) g')
    (hpaid : ∀ g, Inv 0 g → Q paid g) {k : ℚ} (hk : 0 ≤ k) (hInv : Inv k g) :
    (Prog.loop (borrowStep now limit borrowed paid) k).wp M Q g := by
  refine ⟨borrowStep_nospin, fun k g => 0 ≤ k ∧ Inv k g, ⟨hk, hInv⟩, ?_⟩
  rintro k g ⟨hk, hInv⟩
  unfold borrowStep
  split
  · rename_i hpos
    refine saturatingConsumeInner_wp hpos (fun v hv hle d hd hw => ?_) fun v c hv hlt hc hck hca => ?_
    · -- The drain got nothing: the rest is borrowed, in two more accesses.
      obtain ⟨g', hm, hdry⟩ := hempty k g v hpos hInv hv hle d hd hw
      refine ⟨g', hm, ?_⟩
      beta_reduce
      rw [if_neg (lt_irrefl _)]
      apply returnTokens_wp
      intro u hu
      have hu' := hborrow k g' u hpos hdry hu
      have hneg : u - -k / limit.rate = u + k / limit.rate := by rw [neg_div, sub_neg_eq_add]
      rw [hneg]
      refine ⟨?_, hu'.2⟩
      obtain ⟨g₁, hm₁, howes⟩ := hu'.1
      refine ⟨g₁, hm₁, timeWhenBucket_wp fun w hw => ?_⟩
      rw [zero_div, add_zero]
      exact hwait g₁ w howes hw
    · obtain ⟨⟨g', hm, hI⟩, hstay⟩ := hdrain k g v c hInv hv hlt hc hck hca
      refine ⟨⟨g', hm, ?_⟩, hstay⟩
      beta_reduce
      rw [if_pos hc]
      exact ⟨by linarith, hI⟩
  · rename_i hnpos
    obtain rfl : k = 0 := le_antisymm (not_lt.1 hnpos) hk
    exact hpaid g hInv

end Gardal
