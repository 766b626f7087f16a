import Gardal.Cell.Retries
import Gardal.Conservation
import Gardal.OwnDebt
/-!
# The borrowing loop ends

`while to_consume > 0.0` drains the bucket until a drain covers the rest or finds nothing. What is left to
take is no measure: a drain may take as little as it likes. But a drain that takes some and not all leaves
the zero time at the borrower's own `now`, and there is nothing to drain for it as long as the zero time
does not go back behind that. Only `add_tokens` puts it back, so each further drain that does not
end the loop needs one of those in between (`borrow_loop_ends`).
-/
namespace Gardal
open Cell TokenBucketStorage RawTokenBucket

/-! ## What is counted -/

/-- `saturating_consume_inner` begins with a load in `consume`, and nothing else a borrower does is one. -/
def isInnerCall {ι : Type} [DecidableEq ι] (i : ι) : Event ι ℚ Site Request Response → Bool
  | .did j _ .consume (.load _) => j = i
  | _ => false

/-- An update committed by an `add_tokens` of another thread than `i`. -/
def isForeignRefund {ι : Type} [DecidableEq ι] (calls : ι → List Request) (i : ι) :
    Event ι ℚ Site Request Response → Bool
  | .did j m .returnTokens (.exchange _ _) =>
    j ≠ i ∧ ((calls j)[m]?).any (·.call.isAddTokens) = true
  | _ => false

/-! ## The protocol -/

/-- Where a call is: between two drains, after `drains` of them that were not enough, or inside one; done
with draining; or it is a call that does not drain in a loop, or one of `add_tokens`. -/
inductive DrainPhase
  | ready (drains : Nat)
  | inside (drains : Nat)
  | finished
  | other
  | refunding

structure Drainer where
  now : ℚ
  phase : DrainPhase

inductive DrainMove (now : ℚ) : DrainPhase → Site → Deed ℚ → DrainPhase → Prop
  | enter {p v} : DrainMove now (.ready p) .consume (.load v) (.inside p)
  | enterEmpty {p v} : DrainMove now (.ready p) .consume (.load v) .finished
  | retry {p cur v} : DrainMove now (.inside p) .consume (.fail cur v) (.inside p)
  | retryEmpty {p cur v} : DrainMove now (.inside p) .consume (.fail cur v) .finished
  | partly {p v} (h : v < now) : DrainMove now (.inside p) .consume (.exchange v now) (.ready (p + 1))
  | fully {p v w} (h : v ≤ w) : DrainMove now (.inside p) .consume (.exchange v w) .finished
  | borrow {site d} (hsite : site ≠ .consume) (h : d.before ≤ d.after) :
    DrainMove now .finished site d .finished
  | other {site d} (h : d.before ≤ d.after) : DrainMove now .other site d .other
  | look {site d} (h : d.writes = false) : DrainMove now .refunding site d .refunding
  | refund {v w} : DrainMove now .refunding .returnTokens (.exchange v w) .refunding

/-- Only an update of `add_tokens` puts the zero time back. -/
theorem DrainMove.le_or_refund {now : ℚ} {p p' : DrainPhase} {site : Site} {d : Deed ℚ}
    (h : DrainMove now p site d p') :
    d.before ≤ d.after ∨ p = .refunding ∧ site = .returnTokens ∧ ∃ v w, d = .exchange v w := by
  cases h with
  | enter | enterEmpty | retry | retryEmpty => exact .inl le_rfl
  | partly h => exact .inl h.le
  | fully h => exact .inl h
  | borrow _ h => exact .inl h
  | other h => exact .inl h
  | look h => exact .inl (Deed.after_eq_before h).ge
  | refund => exact .inr ⟨rfl, rfl, _, _, rfl⟩

/-- A call does not change its kind. -/
theorem DrainMove.refunding_iff {now : ℚ} {p p' : DrainPhase} {site : Site} {d : Deed ℚ}
    (h : DrainMove now p site d p') : p = .refunding ↔ p' = .refunding := by
  cases h <;> simp

def drainProtocol : Protocol ℚ Site Drainer where
  knows _ _ := True
  move g site d g' := g'.now = g.now ∧ DrainMove g.now g.phase site d g'.phase
  learns _ _ := trivial
  stable _ _ _ := trivial

def Request.drainer (req : Request) : Drainer where
  now := req.now
  phase :=
    if req.call.borrows = true then .ready 0
    else if req.call.isAddTokens = true then .refunding else .other

theorem Request.drainer_refunding (req : Request) (h : req.drainer.phase = .refunding) :
    req.call.isAddTokens = true := by
  unfold drainer at h
  simp only at h
  split at h
  · cases h
  · split at h
    · assumption
    · cases h

/-! ## Every call keeps to it -/

section
variable (limit : Limit) (now : ℚ) {k : ℚ}

/-- One drain, of a borrower that has `k` left to take. -/
theorem saturatingConsumeInner_drains (hk : 0 < k) (p : Nat) :
    (saturatingConsumeInner k now limit).wp drainProtocol
      (fun c g => (c = 0 ∧ g = ⟨now, .finished⟩) ∨ (0 < c ∧ c < k ∧ g = ⟨now, .ready (p + 1)⟩) ∨
        (c = k ∧ g = ⟨now, .finished⟩)) ⟨now, .ready p⟩ := by
  -- A read finds nothing, and that is the end of it, or something.
  have hread : ∀ v, (limit.balance now v ≤ 0 ∧ consumeStep limit.rate limit.burst now (upTo k) v = .stop 0) ∨
      (0 < limit.balance now v ∧ consumeStep limit.rate limit.burst now (upTo k) v =
        .write (limit.charged now v (min (limit.balance now v) k)) (min (limit.balance now v) k)) := by
    intro v
    rw [consumeStep_eq]
    rcases le_or_gt (limit.balance now v) 0 with ha | ha
    · exact .inl ⟨ha, by rw [upTo_of_nonpos hk.le ha, if_pos rfl]⟩
    · exact .inr ⟨ha, by rw [upTo_of_pos ha, if_neg (lt_min ha hk).ne']⟩
  refine casLoop_wp_read (fun _ => ⟨now, .inside p⟩) ?_ ?_ ?_
  · intro v _
    rcases hread v with ⟨-, he⟩ | ⟨-, he⟩
    · exact ⟨⟨now, .finished⟩, ⟨rfl, .enterEmpty⟩, by simp [Attempt.Read, he]⟩
    · exact ⟨⟨now, .inside p⟩, ⟨rfl, .enter⟩, by simp [Attempt.Read, he]⟩
  · intro old new a _ v _
    rcases hread v with ⟨-, he⟩ | ⟨-, he⟩
    · exact ⟨⟨now, .finished⟩, ⟨rfl, .retryEmpty⟩, by simp [Attempt.Read, he]⟩
    · exact ⟨⟨now, .inside p⟩, ⟨rfl, .retry⟩, by simp [Attempt.Read, he]⟩
  · intro old new a hwrite _
    rcases hread old with ⟨-, he⟩ | ⟨ha, he⟩
    · rw [he] at hwrite
      cases hwrite
    · rw [he] at hwrite
      cases hwrite
      rcases lt_or_ge (limit.balance now old) k with hlt | hge
      · -- Everything there was: the zero time is `now`.
        have hold : old < now := not_le.1 fun h => not_le.2 ha (limit.balance_nonpos_iff.2 h)
        rw [min_eq_left hlt.le, limit.charged_balance]
        exact ⟨⟨now, .ready (p + 1)⟩, ⟨rfl, .partly hold⟩, .inr (.inl ⟨ha, hlt, rfl⟩)⟩
      · rw [min_eq_right hge]
        exact ⟨⟨now, .finished⟩, ⟨rfl, .fully (limit.le_charged hk.le)⟩, .inr (.inr ⟨rfl, rfl⟩)⟩

theorem borrowLoop_drains {R : Type} {borrowed : ℚ → R} {paid : R} (hk : 0 < k) :
    (Prog.loop (borrowStep now limit borrowed paid) k).wp drainProtocol (fun _ _ => True)
      ⟨now, .ready 0⟩ := by
  refine ⟨borrowStep_nospin, fun k g => (0 < k ∧ ∃ p, g = ⟨now, .ready p⟩) ∨ (k = 0 ∧ g = ⟨now, .finished⟩),
    .inl ⟨hk, 0, rfl⟩, ?_⟩
  rintro k g (⟨hk, p, rfl⟩ | ⟨rfl, rfl⟩)
  · unfold borrowStep
    rw [if_pos hk]
    refine Prog.wp_bind (saturatingConsumeInner_drains limit now hk p) ?_
    rintro c g (⟨rfl, rfl⟩ | ⟨hc, hck, rfl⟩ | ⟨rfl, rfl⟩)
    · rw [if_neg (lt_irrefl _)]
      have hraise : 0 < k / limit.rate := div_pos hk limit.rate_pos
      refine returnTokens_wp fun v _ =>
        ⟨⟨⟨now, .finished⟩, ⟨rfl, .borrow (by decide) ?_⟩, ?_⟩, fun d _ hw => ?_⟩
      · simp only [Deed.before_exchange, Deed.after_exchange, neg_div, sub_neg_eq_add]
        linarith
      · exact timeWhenBucket_wp fun w _ => ⟨⟨now, .finished⟩, ⟨rfl, .borrow (by decide) le_rfl⟩, trivial⟩
      · exact ⟨rfl, .borrow (by decide) (Deed.after_eq_before hw).ge⟩
    · rw [if_pos hc]
      exact .inl ⟨sub_pos.2 hck, p + 1, rfl⟩
    · rw [if_pos hk]
      exact .inr ⟨sub_self _, rfl⟩
  · unfold borrowStep
    rw [if_neg (lt_irrefl _)]
    trivial

theorem drain_other {c v : ℚ} {site : Site} (hc : 0 ≤ c) :
    drainProtocol.move ⟨now, .other⟩ site (.exchange v (limit.charged now v c)) ⟨now, .other⟩ :=
  ⟨rfl, .other (limit.le_charged hc)⟩

theorem drain_other_read {d : Deed ℚ} {site : Site} (hw : d.writes = false) :
    drainProtocol.move ⟨now, .other⟩ site d ⟨now, .other⟩ := ⟨rfl, .other (Deed.after_eq_before hw).ge⟩

theorem code_drains (req : Request) :
    (req.code limit).wp drainProtocol (fun _ _ => True) req.drainer := by
  obtain ⟨call, now⟩ := req
  cases call with
  | consume k =>
    exact consume_exactly_wp k.toRat_pos
      (fun v _ _ d _ hw => ⟨⟨now, .other⟩, drain_other_read now hw, trivial⟩)
      fun v _ _ => ⟨⟨⟨now, .other⟩, drain_other limit now k.toRat_pos.le, trivial⟩,
        fun d _ hw => drain_other_read now hw⟩
  | tryConsume k =>
    exact consume2_exactly_wp k.toRat_pos
      (fun v _ _ d _ hw => ⟨⟨now, .other⟩, drain_other_read now hw, trivial⟩)
      fun v _ _ => ⟨⟨⟨now, .other⟩, drain_other limit now k.toRat_pos.le, trivial⟩,
        fun d _ hw => drain_other_read now hw⟩
  | saturatingConsume k =>
    exact saturatingConsumeInner_wp k.toRat_pos
      (fun v _ _ d _ hw => ⟨⟨now, .other⟩, drain_other_read now hw, trivial⟩)
      fun v c _ _ hc _ _ => ⟨⟨⟨now, .other⟩, drain_other limit now hc.le, trivial⟩,
        fun d _ hw => drain_other_read now hw⟩
  | consumeWithBorrow k =>
    simp only [Request.code, consumeWithBorrow]
    split
    · trivial
    · exact borrowLoop_drains limit now k.toRat_pos
  | saturatingConsumeWithBorrow k =>
    exact borrowLoop_drains limit now (lt_min k.toRat_pos limit.burst_pos)
  | addTokens tokens =>
    exact returnTokens_wp fun v _ => ⟨⟨⟨now, .refunding⟩, ⟨rfl, .refund⟩, trivial⟩,
      fun d _ hw => ⟨rfl, .look hw⟩⟩

end

/-! ## Every run -/

/-- The drains of a borrower that were not enough, against the refunds of others: the first needs none, and
after each the zero time is at `now` or beyond until the next refund. -/
def PaidFor (drains refunds : Nat) (now v : ℚ) : Prop :=
  drains = 0 ∨ (now ≤ v ∧ drains ≤ 1 + refunds) ∨ drains ≤ refunds

/-- What is known of the number of inner calls from the phase of a borrower. -/
def DrainPhase.Bounded (p : DrainPhase) (inner refunds : Nat) (now v : ℚ) : Prop :=
  match p with
  | ready drains => inner = drains ∧ PaidFor drains refunds now v
  | inside drains => inner = drains + 1 ∧ PaidFor drains refunds now v
  | finished => inner ≤ 2 + refunds
  | other | refunding => False

section
variable {p p' : DrainPhase} {inner refunds drains : Nat} {now v w : ℚ}

theorem PaidFor.le (h : PaidFor drains refunds now v) : drains ≤ 1 + refunds := by
  unfold PaidFor at h
  omega

theorem DrainPhase.Bounded.le (h : p.Bounded inner refunds now v) : inner ≤ 2 + refunds := by
  cases p with
  | ready drains =>
    have := h.2.le
    have := h.1
    omega
  | inside drains =>
    have := h.2.le
    have := h.1
    omega
  | finished => exact h
  | other | refunding => exact h.elim

/-- A borrower whose zero time is still there may drain once more, if there is anything. -/
theorem PaidFor.drain (h : PaidFor drains refunds now v) (hv : v < now) :
    PaidFor (drains + 1) refunds now now := by
  refine .inr (.inl ⟨le_rfl, ?_⟩)
  rcases h with h | ⟨hle, -⟩ | h
  · omega
  · exact absurd hv (not_lt.2 hle)
  · omega

/-- Another thread raises the zero time. -/
theorem DrainPhase.Bounded.raise (h : p.Bounded inner refunds now v) (hvw : v ≤ w) :
    p.Bounded inner refunds now w := by
  have hpaid : ∀ {drains}, PaidFor drains refunds now v → PaidFor drains refunds now w := fun hp =>
    hp.imp_right fun hp => hp.imp_left fun hp => ⟨hp.1.trans hvw, hp.2⟩
  cases p with
  | ready drains => exact ⟨h.1, hpaid h.2⟩
  | inside drains => exact ⟨h.1, hpaid h.2⟩
  | finished => exact h
  | other | refunding => exact h.elim

/-- Another thread returns tokens. -/
theorem DrainPhase.Bounded.refund (h : p.Bounded inner refunds now v) :
    p.Bounded inner (refunds + 1) now w := by
  have hpaid : ∀ {drains}, PaidFor drains refunds now v → PaidFor drains (refunds + 1) now w := by
    intro drains hp
    have := hp.le
    exact .inr (.inr (by omega))
  cases p with
  | ready drains => exact ⟨h.1, hpaid h.2⟩
  | inside drains => exact ⟨h.1, hpaid h.2⟩
  | finished => exact Nat.le_succ_of_le h
  | other | refunding => exact h.elim

variable {ι : Type} [DecidableEq ι]

/-- The borrower itself goes on. -/
theorem DrainMove.bounded {site : Site} {d : Deed ℚ} (h : DrainMove now p site d p') (i : ι) (n : Nat)
    (hb : p.Bounded inner refunds now d.before) :
    p'.Bounded (inner + [Event.did i n site d].countP (isInnerCall i)) refunds now d.after := by
  cases h with
  | enter =>
    obtain ⟨rfl, hpaid⟩ := hb
    exact ⟨by simp [isInnerCall], hpaid⟩
  | enterEmpty =>
    obtain ⟨rfl, hpaid⟩ := hb
    have := hpaid.le
    simp [DrainPhase.Bounded, isInnerCall]
    omega
  | retry =>
    obtain ⟨rfl, hpaid⟩ := hb
    exact ⟨by simp [isInnerCall], hpaid⟩
  | retryEmpty => simpa [DrainPhase.Bounded, isInnerCall] using hb.le
  | partly hv =>
    obtain ⟨rfl, hpaid⟩ := hb
    exact ⟨by simp [isInnerCall], hpaid.drain hv⟩
  | fully hv => simpa [DrainPhase.Bounded, isInnerCall] using hb.le
  | borrow hsite hle =>
    have hnone : isInnerCall i (Event.did i n site d) = false := by
      cases site <;> first | rfl | exact absurd rfl hsite
    simpa [DrainPhase.Bounded, hnone] using hb
  | other | look | refund => exact hb.elim

end

section
variable {ι : Type} [DecidableEq ι] {calls : ι → List Request} {i : ι} {tr : Trace ι} {v w : ℚ}
  {e : Event ι ℚ Site Request Response} {s : Option (Request × Drainer)}

/-- A borrower that has not returned is in a phase that bounds its inner calls. -/
def DrainsOf (calls : ι → List Request) (i : ι) (tr : Trace ι) (v : ℚ) (s : Option (Request × Drainer)) :
    Prop :=
  ∀ pre n req mid, tr = pre ++ .call i n req :: mid → NoReturn i mid → req.call.borrows = true →
    ∃ p, s = some (req, ⟨req.now, p⟩) ∧
      p.Bounded (mid.countP (isInnerCall i)) (mid.countP (isForeignRefund calls i)) req.now v

/-- So is the number of inner calls of every borrower, at any point of its call. -/
def InnerCallsBounded (calls : ι → List Request) (tr : Trace ι) : Prop :=
  ∀ pre mid post i n req, tr = pre ++ .call i n req :: (mid ++ post) → NoReturn i mid →
    req.call.borrows = true →
    mid.countP (isInnerCall i) ≤ 2 + mid.countP (isForeignRefund calls i)

theorem InnerCallsBounded.concat (h : InnerCallsBounded calls tr) {γ : ι → Option (Request × Drainer)}
    (hd : ∀ j, DrainsOf calls j (tr ++ [e]) w (γ j)) : InnerCallsBounded calls (tr ++ [e]) := by
  intro pre mid post i n req hsplit hno hborrows
  rcases List.eq_nil_or_concat' post with rfl | ⟨post, e', rfl⟩
  · obtain ⟨p, -, hb⟩ := hd i pre n req mid (by simpa using hsplit) hno hborrows
    exact hb.le
  · have hsplit' : tr ++ [e] = (pre ++ .call i n req :: (mid ++ post)) ++ [e'] := by simpa using hsplit
    exact h pre mid post i n req (List.append_inj' hsplit' rfl).1 hno hborrows

theorem isInnerCall_of_ne (he : e.thread ≠ i) : isInnerCall i e = false := by
  unfold isInnerCall
  split
  · exact decide_eq_false he
  · rfl

theorem isForeignRefund_own {n : Nat} {site : Site} {d : Deed ℚ} :
    isForeignRefund calls i (.did i n site d) = false := by
  unfold isForeignRefund
  split
  · rename_i heq
    cases heq
    simp
  · rfl

theorem DrainsOf.other (h : DrainsOf calls i tr v s) (he : e.thread ≠ i)
    (hstep : v ≤ w ∨ isForeignRefund calls i e = true) : DrainsOf calls i (tr ++ [e]) w s := by
  intro pre n req mid hsplit hno hborrows
  rcases concat_eq_append_cons hsplit with ⟨-, rfl, -⟩ | ⟨mid', rfl, htr⟩
  · exact absurd rfl he
  · obtain ⟨p, hs, hb⟩ := h pre n req mid' htr (noReturn_concat hno).1 hborrows
    refine ⟨p, hs, ?_⟩
    rw [List.countP_append, List.countP_append, List.countP_singleton, isInnerCall_of_ne he,
      List.countP_singleton]
    cases hr : isForeignRefund calls i e with
    | true => exact hb.refund
    | false => exact hb.raise (hstep.resolve_right (by simp [hr]))

theorem DrainsOf.own (h : DrainsOf calls i tr v s) {req : Request} {g g' : Drainer} {n : Nat} {site : Site}
    {d : Deed ℚ} (hs : s = some (req, g)) (hd : d.before = v) (hm : drainProtocol.move g site d g') :
    DrainsOf calls i (tr ++ [.did i n site d]) d.after (some (req, g')) := by
  obtain ⟨now', p'⟩ := g'
  obtain ⟨hnow, hm⟩ := hm
  intro pre m req' mid hsplit hno hborrows
  rcases concat_eq_append_cons hsplit with ⟨-, heq, -⟩ | ⟨mid', rfl, htr⟩
  · cases heq
  · obtain ⟨p, hs', hb⟩ := h pre m req' mid' htr (noReturn_concat hno).1 hborrows
    rw [hs] at hs'
    cases hs'
    subst hd
    obtain rfl : now' = req.now := hnow
    refine ⟨p', rfl, ?_⟩
    rw [List.countP_append, List.countP_append]
    simpa [isForeignRefund_own] using hm.bounded i n hb

theorem drainsOf_call (h : DrainsOf calls i tr v none) (n : Nat) (req : Request) :
    DrainsOf calls i (tr ++ [.call i n req]) v (some (req, req.drainer)) := by
  intro pre m req' mid hsplit hno hborrows
  rcases concat_eq_append_cons hsplit with ⟨-, heq, rfl⟩ | ⟨mid', rfl, htr⟩
  · cases heq
    refine ⟨.ready 0, ?_, rfl, .inl rfl⟩
    simp [Request.drainer, hborrows]
  · obtain ⟨p, hs, -⟩ := h pre m req' mid' htr (noReturn_concat hno).1 hborrows
    cases hs

theorem drainsOf_ret {n : Nat} {req : Request} {r : Response} :
    DrainsOf calls i (tr ++ [.ret i n req r]) w s := by
  intro pre m req' mid hsplit hno _
  rcases concat_eq_append_cons hsplit with ⟨-, heq, -⟩ | ⟨mid', rfl, -⟩
  · cases heq
  · exact absurd ((noReturn_concat hno).2 rfl) (by simp [Event.isRet])

/-- What a ghost run keeps. -/
structure DrainRun (calls : ι → List Request) (tr : Trace ι) (v : ℚ) (γ : ι → Option (Request × Drainer)) :
    Prop where
  kind : ∀ j req g, γ j = some (req, g) → g.phase = .refunding → req.call.isAddTokens = true
  drains : ∀ j, DrainsOf calls j tr v (γ j)
  bounded : InnerCallsBounded calls tr

/-- One more event, of thread `i`. -/
theorem DrainRun.update {γ : ι → Option (Request × Drainer)} (h : DrainRun calls tr v γ)
    (hkind : ∀ req g, s = some (req, g) → g.phase = .refunding → req.call.isAddTokens = true)
    (hown : DrainsOf calls i (tr ++ [e]) w s) (hi : e.thread = i)
    (hstep : ∀ j, j ≠ i → v ≤ w ∨ isForeignRefund calls j e = true) :
    DrainRun calls (tr ++ [e]) w (Function.update γ i s) := by
  have hall : ∀ j, DrainsOf calls j (tr ++ [e]) w (Function.update γ i s j) :=
    (Function.forall_update_iff γ fun j s => DrainsOf calls j (tr ++ [e]) w s).2
      ⟨hown, fun j hji => (h.drains j).other (hi.trans_ne hji.symm) (hstep j hji)⟩
  exact ⟨forall_update i h.kind hkind, hall, h.bounded.concat hall⟩

theorem run_drains {zt : ℚ} {γ : ι → Option (Request × Drainer)}
    (h : drainProtocol.Run (R := Response) Request.drainer (fun _ _ _ => True) zt tr v γ)
    (hlabeled : Labeled calls tr) : DrainRun calls tr v γ := by
  refine h.events_labeled (fun tr v γ => DrainRun calls tr v γ) ?_ ?_ ?_ ?_ hlabeled
  · refine ⟨by rintro j req g ⟨⟩, ?_, ?_⟩
    · intro j pre n req mid hsplit
      simp at hsplit
    · intro pre mid post i n req hsplit
      simp at hsplit
  · intro tr v γ i n req ih hi
    refine ih.update ?_ (drainsOf_call (hi ▸ ih.drains i) n req) rfl fun _ _ => .inl le_rfl
    rintro req' g hg hphase
    cases hg
    exact req.drainer_refunding hphase
  · intro tr v γ i n req g site d g' ih hi hreq hd _ hm
    refine ih.update ?_ ((ih.drains i).own hi hd hm) rfl fun j hji => ?_
    · rintro req' g₁ hg hphase
      cases hg
      exact ih.kind i req g hi (hm.2.refunding_iff.2 hphase)
    · rcases hm.2.le_or_refund with hle | ⟨hphase, rfl, x, y, rfl⟩
      · exact .inl (hd ▸ hle)
      · -- The trace says whose update it is.
        exact .inr (by simp [isForeignRefund, hji.symm, hreq, ih.kind i req g hi hphase])
  · intro tr v γ i n req g r ih hi _
    exact ih.update (by rintro _ _ ⟨⟩) drainsOf_ret rfl fun _ _ => .inl le_rfl

end

/-! ## Retries -/

/-- Every call reads what it then expects. -/
theorem code_reads (limit : Limit) (req : Request) :
    (req.code limit).wp (readProtocol ℚ Site) (fun _ _ => True) none := by
  have hstep : ∀ {R : Type} (now : ℚ) (borrowed : ℚ → R) (paid : R) (k : ℚ) (g : Option ℚ),
      (borrowStep now limit borrowed paid k).wp (readProtocol ℚ Site) (fun _ _ => True) g := by
    intro R now borrowed paid k g
    unfold borrowStep
    split
    · refine Prog.wp_bind (casLoop_reads _ _) fun c g _ => ?_
      split
      · trivial
      · refine Prog.wp_bind (casLoop_reads _ _) fun _ g _ => ?_
        exact Prog.wp_map (Prog.wp_map (load_reads _))
    · trivial
  have hloop : ∀ {R : Type} (now : ℚ) (borrowed : ℚ → R) (paid : R) (k : ℚ),
      (Prog.loop (borrowStep now limit borrowed paid) k).wp (readProtocol ℚ Site)
        (fun _ _ => True) none := by
    intro R now borrowed paid k
    refine ⟨borrowStep_nospin, fun _ _ => True, trivial, fun k g _ => ?_⟩
    refine Prog.wp_mono _ ?_ (hstep now borrowed paid k g)
    rintro (k' | r) _ _ <;> trivial
  obtain ⟨call, now⟩ := req
  cases call with
  | consume k | tryConsume k | saturatingConsume k | addTokens k =>
    exact Prog.wp_map (Prog.wp_map (casLoop_reads _ _))
  | consumeWithBorrow k =>
    simp only [Request.code, consumeWithBorrow]
    split
    · trivial
    · exact Prog.wp_map (hloop _ _ _ _)
  | saturatingConsumeWithBorrow k => exact Prog.wp_map (hloop _ _ _ _)

/-! ## The bound -/

/-- **The borrowing loop ends.** In every run of calls, at any point of any call of thread `i`: a borrower has
called `saturating_consume_inner` at most twice, and once more for each update of an `add_tokens` of
another thread since it began; a call has retried at most as often as other threads have written since it
began, spurious failures apart. Indeed each retry comes after a write of another thread since the
thread's last access. -/
theorem borrow_loop_ends {ι : Type} [DecidableEq ι] (limit : Limit) (zt : ℚ) (calls : ι → List Request)
    (sched : List (ι × Bool)) :
    let trace := (Pool.run (Request.code limit) sched (.init zt calls)).trace
    InnerCallsBounded calls trace ∧ RetriesOvertaken trace ∧
      ∀ pre mid post i n req, trace = pre ++ .call i n req :: (mid ++ post) →
        mid.countP (Event.isRetry i) ≤ mid.countP (Event.isForeignWrite i) := by
  intro trace
  have hretries : RetriesOvertaken trace :=
    retriesOvertaken (fun _ req _ => code_reads limit req) zt sched
  obtain ⟨γ, hrun, -⟩ := adequacy drainProtocol Request.drainer (fun _ _ _ => True)
    (fun _ _ => trivial) (fun _ req _ => code_drains limit req) zt sched
  have hlabeled : Labeled calls trace := run_labeled (Request.code limit) zt calls sched
  refine ⟨(run_drains hrun hlabeled).bounded, hretries, ?_⟩
  intro pre mid post i n req htrace
  exact retries_le hretries rfl mid post htrace

/-- Three tokens asked for and one there, taken; one returned by another thread, taken too; then none. -/
example :
    let limit := Limit.perSecondAndBurst ⟨1, by decide⟩ ⟨5, by decide⟩
    let calls : Bool → List Request := fun borrower =>
      if borrower then [⟨.consumeWithBorrow ⟨3, by decide⟩, 1⟩] else [⟨.addTokens ⟨1, by decide⟩, 1⟩]
    let sched := (List.replicate 3 true ++ List.replicate 3 false ++ List.replicate 3 true).map (·, false)
    let trace := (Pool.run (Request.code limit) sched (.init 0 calls)).trace
    trace.countP (isInnerCall true) = 3 ∧ trace.countP (isForeignRefund calls true) = 1 := by
  decide +kernel

end Gardal
