import Gardal.F64.Rate
import Gardal.Work
/-!
# Every call returns, with rounding

`Gardal.AllReturn` for the code in `f64`. What a drain leaves of a request may be less than a token, and taking
it may lower the zero time by what rounding loses, so that the other borrowers find something again. But such a
drain is the last one of its call: a borrowing call lowers the zero time at most once, as `add_tokens` does.
-/
namespace Gardal.F64
open Cell Ieee F64.TokenBucketStorage F64.RawTokenBucket

abbrev roundedWork : Protocol Float Site Worker := workProtocol Site toRat InRange

section
variable {limit : Limit} {now v x : Float} {k : ℚ} {g : Worker}

/-! ## What an iteration does to the zero time -/

section
variable (hnow : Reading (2 ^ 100) now) (hv : InRange v)
include hnow hv

theorem consumeStep_exactly_up (hx : Is x k) (hk1 : 1 ≤ k) (new a : Float)
    (h : consumeStep limit.rate limit.burst now (exactly x) v = .write new a) :
    InRange new ∧ toRat v ≤ toRat new := by
  rcases consumeStep_exactly hnow hv hx (one_pos.trans_le hk1) with ⟨-, he⟩ | ⟨w, he, hle, hw, hin⟩ <;>
    rw [he] at h <;> cases h
  exact ⟨hin, le_charged_of_one_le limit hv hk1 hle hw⟩

theorem consume2Step_exactly_up (hx : Is x k) (hk1 : 1 ≤ k) (new : Float) (a : TokenAcquisition)
    (h : consume2Step limit.rate limit.burst now (exactly x) v = .write new a) :
    InRange new ∧ toRat v ≤ toRat new := by
  rcases consume2Step_exactly hnow hv hx (one_pos.trans_le hk1) with ⟨-, he⟩ | ⟨w, he, hle, hw, hin⟩ <;>
    rw [he] at h <;> cases h
  exact ⟨hin, le_charged_of_one_le limit hv hk1 hle hw⟩

theorem consumeStep_upTo_up (hx : Is x k) (hk1 : 1 ≤ k) (new a : Float)
    (h : consumeStep limit.rate limit.burst now (upTo x) v = .write new a) :
    InRange new ∧ toRat v ≤ toRat new := by
  rcases consumeStep_upTo hnow hv hx (one_pos.trans_le hk1) with
    ⟨-, he⟩ | ⟨w, y, c, he, -, hc0, hc, hcase, hw, hin⟩ <;> rw [he] at h <;> cases h
  refine ⟨hin, ?_⟩
  rcases hcase with rfl | ⟨-, hall⟩
  · exact le_charged_of_one_le limit hv hk1 hc hw
  · obtain ⟨hlt, heq⟩ := charged_all limit hnow hc0 hall hw
    exact (hlt.trans_eq heq.symm).le

end

/-! ## The borrowing loop -/

/-- What a drain of `k` leaves, begun by a load that gets inside or finds nothing. -/
def Drained (now : Float) (k : ℚ) (y : Float) (g : Worker) : Prop :=
  (y = 0.0 ∧ HasLeft 3 1 g) ∨
    ∃ c, Is y c ∧ 0 < c ∧ ((c < k ∧ g = ⟨.drain (toRat now) 0, 1⟩) ∨ c = k)

variable (hnow : Reading (2 ^ 100) now)
include hnow

theorem saturatingConsumeInner_works (hx : Is x k) (hk : 0 < k)
    (henter : ∀ v, WorkMove toRat g (.load v) ⟨.inside (toRat now) 0, 1⟩)
    (hempty : ∀ v, ∃ g', WorkMove toRat g (.load v) g' ∧ HasLeft 3 1 g') :
    (saturatingConsumeInner x now limit).wp roundedWork (Drained now k) g := by
  refine drain_works Site.consume (fun v hv => ?_) henter hempty
  rcases consumeStep_upTo hnow hv hx hk with ⟨-, he⟩ | ⟨w, y, c, he, hy, hc0, hc, hcase, hw, hin⟩
  · exact .inl ⟨0.0, he, fun g' hg' => .inl ⟨rfl, hg'⟩⟩
  · refine .inr ⟨w, y, he, hin, ?_⟩
    rcases hcase with rfl | ⟨hlt, hall⟩
    · -- The last drain: it may be of less than a token.
      exact .inr ⟨0, .roughly, .inr ⟨c, hy, hc0, .inr rfl⟩⟩
    · obtain ⟨hbefore, hafter⟩ := charged_all limit hnow hc0 hall hw
      exact .inl ⟨hbefore, hafter, .inr ⟨c, hy, hc0, .inl ⟨hlt, rfl⟩⟩⟩

/-- A call that is not done has not drained for the last time. -/
theorem borrowLoop_works {R : Type} {borrowed : Float → R} {paid : R} (hx : Is x k) (hk : 0 ≤ k)
    (hb : k ≤ toRat limit.burst) :
    (Prog.loop (borrowStep now limit borrowed paid) x).wp roundedWork (fun _ _ => True) ⟨.steps 6, 1⟩ := by
  refine ⟨borrowStep_nospin, fun x g => ∃ k, Is x k ∧ 0 ≤ k ∧ k ≤ toRat limit.burst ∧
    (k = 0 ∨ g = ⟨.steps 6, 1⟩ ∨ g = ⟨.drain (toRat now) 0, 1⟩), ⟨k, hx, hk, hb, .inr (.inl rfl)⟩, ?_⟩
  rintro x g ⟨k, hx, hk, hb, hg⟩
  unfold borrowStep
  split
  · rename_i hlt
    have hpos : 0 < k := (is_zero.lt_iff hx).1 hlt
    have hdrain : (∀ v, WorkMove toRat g (.load v) ⟨.inside (toRat now) 0, 1⟩) ∧
        ∀ v, ∃ g', WorkMove toRat g (.load v) g' ∧ HasLeft 3 1 g' := by
      rcases hg with rfl | rfl | rfl
      · exact absurd hpos (lt_irrefl _)
      · exact ⟨fun v => .enter, fun v => ⟨⟨.steps 5, 1⟩, .step (by omega) le_rfl, 5, by omega, rfl⟩⟩
      · exact ⟨fun v => .again, fun v => ⟨_, .dry, 3, le_rfl, rfl⟩⟩
    obtain ⟨henter, hempty⟩ := hdrain
    refine Prog.wp_bind (saturatingConsumeInner_works hnow hx hpos henter hempty) ?_
    rintro y g (⟨rfl, hleft⟩ | ⟨c, hy, hc0, hcase⟩)
    · rw [if_neg fun h => lt_irrefl _ ((is_zero.lt_iff is_zero).1 h)]
      refine Prog.wp_bind (casLoop_works (m := 1) Site.returnTokens ?_ hleft) ?_
      · rintro v new a hv hwrite
        cases hwrite
        obtain ⟨his, hin⟩ := is_indebted limit hv hx hk (hb.trans limit.burst_within.ge)
        refine ⟨hin, ?_⟩
        rw [his.toRat]
        exact le_roundedDebt limit.rate_pos.le hk hv.double
      · rintro _ g hleft
        exact Prog.wp_bind (Prog.wp_map (done_works (load_works (m := 0) Site.timeWhenBucket hleft)))
          fun _ _ _ => trivial
    · rw [if_pos ((is_zero.lt_iff hy).2 hc0)]
      obtain ⟨hrest, hrest0, hrestb⟩ := is_rest limit hx hy hc0.le (hcase.elim (fun h => h.1.le) Eq.le) hb
      refine ⟨_, hrest, hrest0, hrestb, ?_⟩
      rcases hcase with ⟨-, rfl⟩ | rfl
      · exact .inr (.inr rfl)
      · left
        rw [sub_self]
        exact fl_of_double .zero
  · trivial

end

/-! ## Every call -/

namespace HandleCall

/-- The accesses of a call that get through if nobody lowers the zero time. -/
def work (c : HandleCall) : ℕ :=
  match c.call with
  | .consumeWithBorrow _ | .saturatingConsumeWithBorrow _ => 6
  | .balance | .available => 1
  | _ => 2

/-- How often a call may lower the zero time: what is left of a request may be less than rounding loses. -/
def lowers (c : HandleCall) : ℕ :=
  match c.call with
  | .consumeWithBorrow _ | .saturatingConsumeWithBorrow _ | .addTokens _ => 1
  | _ => 0

theorem code_works (c : HandleCall) (hc : c.Within (2 ^ 100)) :
    c.code.wp roundedWork (fun _ _ => True) ⟨.steps c.work, c.lowers⟩ := by
  obtain ⟨limit, call, now⟩ := c
  obtain ⟨hnow, htokens⟩ := hc
  have hone : ∀ k : NonZeroU32, 1 ≤ toRat k.toF64 := fun k => (within_toF64 k).le
  have his : ∀ k : NonZeroU32, Is k.toF64 (toRat k.toF64) := fun k => (within_toF64 k).is
  have hleft : ∀ {k l}, HasLeft k l ⟨.steps k, l⟩ := fun {k l} => ⟨k, le_rfl, rfl⟩
  cases call with
  | consume k =>
    refine Prog.wp_map (Prog.wp_map (done_works (casLoop_works Site.consume ?_ hleft)))
    exact fun v new a hv => consumeStep_exactly_up hnow hv (his k) (hone k) new a
  | tryConsume k =>
    refine Prog.wp_map (Prog.wp_map (done_works (casLoop_works Site.consume2 ?_ hleft)))
    exact fun v new a hv => consume2Step_exactly_up hnow hv (his k) (hone k) new a
  | saturatingConsume k =>
    refine Prog.wp_map (Prog.wp_map (done_works (casLoop_works Site.consume ?_ hleft)))
    exact fun v new a hv => consumeStep_upTo_up hnow hv (his k) (hone k) new a
  | consumeWithBorrow k =>
    refine Prog.wp_map ?_
    unfold RawTokenBucket.consumeWithBorrow
    split
    · trivial
    · rename_i hb
      have hle := not_lt.1 fun h => hb ((limit.burst_within.is.lt_iff (his k)).2 h)
      exact borrowLoop_works hnow (his k) (by linarith [hone k]) hle
  | saturatingConsumeWithBorrow k =>
    refine Prog.wp_map (borrowLoop_works hnow ((his k).minNum limit.burst_within.is) ?_ (min_le_right _ _))
    exact le_min (by linarith [hone k]) limit.burst_pos.le
  | addTokens tokens =>
    refine Prog.wp_map (Prog.wp_map (done_works (casLoop_lowers Site.returnTokens ?_ ?_ hleft)))
    · exact fun v => ⟨_, _, rfl⟩
    · rintro v new a hv hwrite
      cases hwrite
      have htok := htokens tokens rfl
      exact (is_returned limit hv htok.is htok.abs_toRat_le).2
  | balance => exact Prog.wp_map (Prog.wp_map (done_works (load_works (m := 0) Site.balance hleft)))
  | available =>
    exact Prog.wp_map (Prog.wp_map (Prog.wp_map (done_works (load_works (m := 0) Site.balance hleft))))

/-! ## Every call reads what it then expects -/

theorem borrowLoop_reads {R : Type} (now x : Float) (limit : Limit) (borrowed : Float → R) (paid : R)
    (g : Option Float) :
    (Prog.loop (borrowStep now limit borrowed paid) x).wp (readProtocol Float Site) (fun _ _ => True) g := by
  refine ⟨borrowStep_nospin, fun _ _ => True, trivial, fun x g _ => ?_⟩
  unfold borrowStep
  split
  · refine Prog.wp_bind (casLoop_reads _ _) fun y g _ => ?_
    split
    · trivial
    · refine Prog.wp_bind (casLoop_reads _ _) fun _ g _ => ?_
      exact Prog.wp_bind (Prog.wp_map (load_reads _)) fun _ _ _ => trivial
  · trivial

theorem code_reads (c : HandleCall) : c.code.wp (readProtocol Float Site) (fun _ _ => True) none := by
  obtain ⟨limit, call, now⟩ := c
  cases call with
  | consume | tryConsume | saturatingConsume | addTokens =>
    exact Prog.wp_map (Prog.wp_map (casLoop_reads _ _))
  | consumeWithBorrow k =>
    refine Prog.wp_map ?_
    unfold RawTokenBucket.consumeWithBorrow
    split
    · trivial
    · exact borrowLoop_reads _ _ _ _ _ _
  | saturatingConsumeWithBorrow k => exact Prog.wp_map (borrowLoop_reads _ _ _ _ _ _)
  | balance => exact Prog.wp_map (Prog.wp_map (load_reads _))
  | available => exact Prog.wp_map (Prog.wp_map (Prog.wp_map (load_reads _)))

end HandleCall

/-! ## Every run -/

/-- **Every call returns, in `f64`.** Any number of threads make any calls on handles with limits of their own.
A thread that has had more turns than it has calls and accesses to make, and all threads together accesses, and
exchanges failed spuriously, has made all its calls, whatever the others have done in the meantime. -/
theorem calls_return {ι : Type} [Fintype ι] [DecidableEq ι] {zt : Float} (hzt : InRange zt)
    {calls : ι → List HandleCall} (hcalls : ∀ i, ∀ c ∈ calls i, c.Within (2 ^ 100)) (sched : List (ι × Bool))
    (i : ι)
    (hturns : (calls i).length + accessBound HandleCall.work HandleCall.lowers calls i +
      ∑ j, accessBound HandleCall.work HandleCall.lowers calls j + (sched.countP fun t => t.2) <
        sched.countP fun t => t.1 = i) :
    (Pool.run HandleCall.code sched (.init zt calls)).Idle i :=
  idle_of_works (fun j c hc => c.code_works (hcalls j c hc)) (fun _ c _ => c.code_reads) hzt sched i hturns

/-- A borrower finds `6.999999999999999` tokens of the seven it asks for. Then tokens are added, and it takes
the `8.9e-16` it lacks: the zero time goes down by an `f64`. The other thread has stopped in its next call. -/
theorem calls_return_lowered :
    let limit := Limit.perMinute ⟨70, by decide⟩
    let calls : Bool → List HandleCall := fun i =>
      if i then [⟨limit, .saturatingConsumeWithBorrow ⟨7, by decide⟩, 12.2⟩]
      else [⟨limit, .addTokens 69.4, 12.2⟩, ⟨limit, .consume ⟨1, by decide⟩, 12.2⟩]
    let sched := [(true, false), (true, false), (true, false)] ++ List.replicate 5 (false, false) ++
      List.replicate 27 (true, false)
    let pool := Pool.run HandleCall.code sched (.init 6.2 calls)
    pool.Idle true ∧ ¬ pool.Idle false ∧ pool.trace.countP (Event.doneBy true (lowering toRat)) = 1 := by
  intro limit calls sched pool
  have hcalls : ∀ i, ∀ c ∈ calls i, c.Within (2 ^ 100) := by
    have hreading : Reading (2 ^ 100) (12.2 : Float) := by decide +kernel
    intro i c hc
    cases i
    · rcases List.mem_pair.1 hc with rfl | rfl <;> refine ⟨hreading, fun t ht => ?_⟩ <;> cases ht
      decide +kernel
    · obtain rfl := List.mem_singleton.1 hc
      exact ⟨hreading, nofun⟩
  refine ⟨calls_return (by decide +kernel) hcalls sched true (by decide +kernel), ?_, by decide +kernel⟩
  intro h
  exact absurd h.1 (by decide +kernel)

end Gardal.F64
