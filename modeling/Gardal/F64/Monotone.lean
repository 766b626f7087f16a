import Gardal.F64.Rules
/-!
# Rounding never takes the zero time back

Without refunds the zero time of the exact code only goes forward. So does the rounded one, whatever the
interleaving: a request for whole tokens lifts it by more than rounding may lose, a drain takes it to the clock,
and a debt is added to it. What is left of a request after a drain may be less than rounding loses, but by then
the zero time is past the clock of that call, so that the rest is borrowed.
-/
namespace Gardal.F64
open Cell Ieee

/-- How far a call has come. -/
inductive Taking
  | first
  /-- It has taken the zero time to its reading of the clock. -/
  | drained (now : ℚ)

def monotoneProtocol : Protocol Float Site Taking where
  knows g v := InRange v ∧ ∀ n, g = .drained n → n ≤ toRat v
  move g _ d g' := toRat d.before ≤ toRat d.after ∧ InRange d.after ∧
    ∀ n, g' = .drained n → g = .drained n ∨ n ≤ toRat d.after
  learns := by
    rintro g n d g' ⟨hle, hin, hdr⟩ ⟨-, hk⟩
    refine ⟨hin, fun n hn => ?_⟩
    rcases hdr n hn with h | h
    · exact (hk n h).trans hle
    · exact h
  stable := by
    rintro g n d g' h ⟨hle, hin, -⟩ - ⟨-, hk⟩
    exact ⟨hin, fun n hn => (hk n hn).trans hle⟩

section
variable {limit : Limit} {now v w x : Float} {g : Taking} {site : Site} {k : ℚ}

theorem monotone_range {g : Taking} {v : Float} (h : monotoneProtocol.knows g v) : InRange v := h.1

theorem monotone_stay (hv : monotoneProtocol.knows g v) {d : Deed Float} (hd : d.before = v)
    (hw : d.writes = false) : monotoneProtocol.move g site d g := by
  subst hd
  rw [← d.after_eq_before hw] at hv
  exact ⟨(congrArg toRat (d.after_eq_before hw)).ge, hv.1, fun n hn => .inl hn⟩

theorem monotone_lift (hin : InRange w) (hle : toRat v ≤ toRat w) :
    monotoneProtocol.move g site (.exchange v w) g :=
  ⟨hle, hin, fun _ hn => .inl hn⟩

/-- Whole tokens. -/
theorem monotone_charged (hv : InRange v) (hk1 : 1 ≤ k) (hk : k ≤ limit.balance now v)
    (hw : Is w (limit.charged now v k)) (hin : InRange w) :
    monotoneProtocol.move g site (.exchange v w) g :=
  monotone_lift hin (le_charged_of_one_le limit hv hk1 hk hw)

/-- All there is. -/
theorem monotone_drained (hnow : Reading (2 ^ 100) now) {c : ℚ} (hc : c = limit.balance now v) (hpos : 0 < c)
    (hw : Is w (limit.charged now v c)) (hin : InRange w) :
    monotoneProtocol.move g site (.exchange v w) (.drained (toRat now)) := by
  obtain ⟨hlt, hself⟩ := charged_all limit hnow hpos hc hw
  refine ⟨?_, hin, ?_⟩
  · show toRat v ≤ toRat w
    linarith
  · rintro n ⟨⟩
    exact .inr hself.ge

/-- What is left of a request: nothing, or whole tokens, or what could not be drained. -/
def Whole (now : Float) (k : ℚ) (g : Taking) : Prop := k = 0 ∨ 1 ≤ k ∨ g = .drained (toRat now)

variable (hnow : Reading (2 ^ 100) now)
include hnow

theorem drain_monotone (site : Site) (hk : Whole now k g) (hv : monotoneProtocol.knows g v) {c : ℚ}
    (hc0 : 0 < c)
    (hc : c ≤ limit.balance now v) (hcase : c = k ∨ c < k ∧ c = limit.balance now v)
    (hw : Is w (limit.charged now v c)) (hin : InRange w) :
    ∃ g', monotoneProtocol.move g site (.exchange v w) g' ∧ Whole now (fl (k - c)) g' := by
  have hfirst : 1 ≤ k := by
    rcases hk with rfl | h | rfl
    · rcases hcase with rfl | ⟨h, -⟩
      · exact absurd hc0 (lt_irrefl _)
      · exact absurd hc0 (not_lt.2 h.le)
    · exact h
    · -- The bucket has been empty for this call since it was drained.
      have hle := roundedBalance_nonpos (b := toRat limit.burst) limit.rate_pos.le (hv.2 _ rfl)
      exact absurd hc0 (not_lt.2 (hc.trans hle))
  rcases hcase with rfl | ⟨-, hall⟩
  · refine ⟨g, monotone_charged hv.1 hfirst hc hw hin, .inl ?_⟩
    rw [sub_self]
    exact fl_of_double .zero
  · exact ⟨_, monotone_drained hnow hall hc0 hw hin, .inr (.inr rfl)⟩

theorem saturatingConsumeInner_monotone (hx : Is x k) (hk1 : 1 ≤ k) :
    (RawTokenBucket.saturatingConsumeInner x now limit).wp monotoneProtocol (fun _ _ => True) g := by
  refine saturatingConsumeInner_wp monotone_range hnow hx (by linarith) ?_ ?_
  · exact fun v hv _ d hd hw => ⟨g, monotone_stay hv hd hw, trivial⟩
  · intro v w y c hv _ hc0 hc hcase hw hin
    obtain ⟨g', hm, -⟩ := drain_monotone hnow .consume (.inr (.inl hk1)) hv hc0 hc hcase hw hin
    exact ⟨⟨g', hm, trivial⟩, fun d hd hw => monotone_stay hv hd hw⟩

theorem borrowLoop_monotone {R : Type} {borrowed : Float → R} {paid : R} (hx : Is x k) (hk1 : 1 ≤ k)
    (hb : k ≤ toRat limit.burst) :
    (Prog.loop (RawTokenBucket.borrowStep now limit borrowed paid) x).wp monotoneProtocol (fun _ _ => True)
      g := by
  refine borrowLoop_wp monotone_range hnow (Whole now) (fun _ _ => True) (fun _ => True) ?_ ?_ ?_ ?_ ?_ hx
    (by linarith) hb (.inr (.inl hk1))
  · exact fun k g v _ _ hv _ d hd hw => ⟨g, monotone_stay hv hd hw, trivial⟩
  · intro k g v w c _ _ hwhole hv hc0 hc hcase hw hin
    exact ⟨drain_monotone hnow .consume hwhole hv hc0 hc hcase hw hin, fun d hd hw => monotone_stay hv hd hw⟩
  · intro k g v w hk _ _ hv hw hin
    refine ⟨⟨g, monotone_lift hin ?_, trivial⟩, fun d hd hw => monotone_stay hv hd hw⟩
    rw [hw.toRat]
    exact le_roundedDebt limit.rate_pos.le hk.le hv.1.double
  · exact fun g v y _ hv _ => ⟨g, monotone_stay hv rfl rfl, trivial⟩
  · exact fun _ _ => trivial

end

/-! ## Every call -/

namespace HandleCall

/-- A call that puts nothing back, at a reading of the clock that is not absurd. -/
structure TakesOnly (c : HandleCall) : Prop where
  reading : Reading (2 ^ 100) c.now
  takes : c.call.isAddTokens = false

instance (c : HandleCall) : Decidable c.TakesOnly :=
  decidable_of_iff (Reading (2 ^ 100) c.now ∧ c.call.isAddTokens = false)
    ⟨fun h => ⟨h.1, h.2⟩, fun h => ⟨h.reading, h.takes⟩⟩

theorem code_monotone (c : HandleCall) (h : c.TakesOnly) :
    c.code.wp monotoneProtocol (fun _ _ => True) .first := by
  obtain ⟨limit, call, now⟩ := c
  obtain ⟨hnow, hadd⟩ := h
  have hone : ∀ k : NonZeroU32, 1 ≤ toRat k.toF64 := fun k => (within_toF64 k).le
  have his : ∀ k : NonZeroU32, Is k.toF64 (toRat k.toF64) := fun k => (within_toF64 k).is
  cases call with
  | consume k =>
    refine Prog.wp_map (Prog.wp_map ?_)
    refine consume_exactly_wp monotone_range hnow (his k) (by linarith [hone k]) ?_ ?_
    · exact fun v hv _ d hd hw => ⟨_, monotone_stay hv hd hw, trivial⟩
    · exact fun v w hv hk hw hin =>
        ⟨⟨_, monotone_charged hv.1 (hone k) hk hw hin, trivial⟩, fun d hd hw => monotone_stay hv hd hw⟩
  | tryConsume k =>
    refine Prog.wp_map (Prog.wp_map ?_)
    refine consume2_exactly_wp monotone_range hnow (his k) (by linarith [hone k]) ?_ ?_
    · exact fun v hv _ d hd hw => ⟨_, monotone_stay hv hd hw, trivial⟩
    · exact fun v w hv hk hw hin =>
        ⟨⟨_, monotone_charged hv.1 (hone k) hk hw hin, trivial⟩, fun d hd hw => monotone_stay hv hd hw⟩
  | saturatingConsume k =>
    exact Prog.wp_map (Prog.wp_map (saturatingConsumeInner_monotone hnow (his k) (hone k)))
  | consumeWithBorrow k =>
    refine Prog.wp_map ?_
    unfold RawTokenBucket.consumeWithBorrow
    split
    · exact trivial
    · rename_i hb
      have hle := not_lt.1 fun h => hb ((limit.burst_within.is.lt_iff (his k)).2 h)
      exact borrowLoop_monotone hnow (his k) (hone k) hle
  | saturatingConsumeWithBorrow k =>
    exact Prog.wp_map (borrowLoop_monotone hnow ((his k).minNum limit.burst_within.is)
      (le_min (hone k) limit.burst_within.le) (min_le_right _ _))
  | addTokens tokens => cases hadd
  | balance => exact Prog.wp_map (Prog.wp_map (Prog.wp_load fun v hv => ⟨_, monotone_stay hv rfl rfl, trivial⟩))
  | available =>
    refine Prog.wp_map (Prog.wp_map (Prog.wp_map (Prog.wp_load fun v hv => ?_)))
    exact ⟨_, monotone_stay hv rfl rfl, trivial⟩

end HandleCall

/-! ## Every run -/

/-- What an event shows of the zero time. -/
def seen {ι Req R : Type} : Event ι Float Site Req R → List Float
  | .did _ _ _ d => [d.before, d.after]
  | _ => []

section
variable {ι Req R : Type}

/-- Zero times in range that never go back, up to `v`. -/
def Rising (l : List Float) (v : Float) : Prop :=
  l.Pairwise (fun x y => toRat x ≤ toRat y) ∧ ∀ x ∈ l, InRange x ∧ toRat x ≤ toRat v

theorem Rising.concat {l : List Float} {v w : Float} (h : Rising l v) (hv : InRange w)
    (hle : toRat v ≤ toRat w) :
    Rising (l ++ [w]) w := by
  obtain ⟨hl, hv'⟩ := h
  refine ⟨List.pairwise_append.2 ⟨hl, List.pairwise_singleton _ _, fun x hx y hy => ?_⟩, fun x hx => ?_⟩
  · rw [List.mem_singleton.1 hy]
    exact (hv' x hx).2.trans hle
  · rcases List.mem_append.1 hx with hx | hx
    · exact ⟨(hv' x hx).1, (hv' x hx).2.trans hle⟩
    · rw [List.mem_singleton.1 hx]
      exact ⟨hv, le_rfl⟩

/-- **The zero time in `f64` only goes forward.** Any number of threads make any calls but `add_tokens` on
handles with limits of their own, at any readings of the clock, and their accesses interleave as they like: what
the accesses see and leave behind, one after another, never goes back. -/
theorem zeroTime_monotone [DecidableEq ι] {calls : ι → List HandleCall}
    (hcalls : ∀ i, ∀ c ∈ calls i, c.TakesOnly) {zt : Float} (hzt : InRange zt) (sched : List (ι × Bool)) :
    (zt :: (Pool.run HandleCall.code sched (.init zt calls)).trace.flatMap seen).Pairwise (· ≤ ·) := by
  obtain ⟨γ, hrun, -⟩ := adequacy_of_inv (I := InRange) monotoneProtocol (fun _ : HandleCall => Taking.first)
    (fun _ _ _ => True) (fun hm _ => hm.2.1) (fun _ v hv => ⟨hv, nofun⟩)
    (fun i c hc => c.code_monotone (hcalls i c hc)) hzt sched
  have hrising := hrun.events (fun tr v _ => Rising (zt :: tr.flatMap seen) v) ?_ ?_ ?_ ?_
  · refine hrising.1.imp_of_mem fun {x y} hx hy hle => ?_
    exact ((hrising.2 x hx).1.is.le_iff (hrising.2 y hy).1.is).2 hle
  · exact ⟨List.pairwise_singleton _ _, by simpa using hzt⟩
  · intro tr v γ i n c h _
    simpa [seen] using h
  · rintro tr v γ i n c g site d g' h - rfl hk ⟨hle, hin, -⟩
    simpa [seen] using (h.concat hk.1 le_rfl).concat hin hle
  · intro tr v γ i n c g r h _ _
    simpa [seen] using h

end

/-- Three handles, two of them with a rate that is not a double, race and borrow. -/
theorem zeroTime_monotone_three :
    let calls : Fin 3 → List HandleCall := fun i =>
      if i = 0 then [⟨.perMinute ⟨7, by decide⟩, .saturatingConsumeWithBorrow ⟨9, by decide⟩, 1.1⟩]
      else if i = 1 then [⟨.perHour ⟨5, by decide⟩, .consumeWithBorrow ⟨3, by decide⟩, 60.3⟩]
      else [⟨.perSecond ⟨3, by decide⟩, .tryConsume ⟨1, by decide⟩, 0.7⟩]
    let sched := (List.range 24).map fun n => ((Fin.ofNat 3 n : Fin 3), n % 5 == 3)
    let trace := (Pool.run HandleCall.code sched (.init 0.1 calls)).trace
    (returns trace).length = 3 ∧ (((0.1 : Float) :: trace.flatMap seen).Pairwise (· ≤ ·)) := by
  intro calls sched trace
  exact ⟨by decide +kernel, zeroTime_monotone (by decide +kernel) (by decide +kernel) sched⟩

end Gardal.F64
