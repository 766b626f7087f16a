import Gardal.Conformance
import Gardal.Conservation
import Gardal.Refund
/-!
# The clocks, and a bucket built from one

| here | there |
| --- | --- |
| `Sources` | what `SystemTime`, the three kinds of `Instant` and a `ManualClock` give at one moment |
| `Datum`, `clockOrigin` | `Datum` and `CLOCK_ORIGIN` (`clock.rs:6`), fixed once for the process |
| `Clock.datum`, `Clock.now` | `Clock::datum` and `Clock::now` of each implementation |

`with_clock` and `with_datum` make the clock's datum the zero time, so that "the bucket will be considered
empty initially" (`bucket.rs:104`). It is empty at the datum. By the time it is built the clock has moved
on, and two clocks, `QuantaClock` and `ManualClock`, have the datum of the trait, zero, while the reading
of the first is a time since 1970: `starts_empty_iff`.
-/
namespace Gardal
open Cell Ledger

/-- Readings of the sources of time at one moment, in seconds. An `Instant` counts from where it likes. -/
structure Sources where
  sinceEpoch : ℚ
  stdInstant : ℚ
  tokioInstant : ℚ
  quantaInstant : ℚ
  quantaRecent : ℚ
  manual : ℚ

/-- `Datum` (`clock.rs:6`). -/
structure Datum where
  durSinceEpoch : ℚ
  stdInstant : ℚ
  tokioInstant : ℚ
  quantaInstant : ℚ

/-- `CLOCK_ORIGIN` (`clock.rs:15`), when it is first used. -/
def clockOrigin (s : Sources) : Datum := ⟨s.sinceEpoch, s.stdInstant, s.tokioInstant, s.quantaInstant⟩

/-- `Instant::duration_since`: zero if the other instant is later. -/
def durationSince (instant earlier : ℚ) : ℚ := max (instant - earlier) 0

inductive Clock
  | stdClock | quantaClock | tokioClock | fastClock | manualClock
  deriving DecidableEq, Repr

namespace Clock

/-- `Clock::datum`: zero (`clock.rs:73`) where the implementation does not say. -/
def datum (origin : Datum) : Clock → ℚ
  | stdClock => origin.durSinceEpoch
  | quantaClock => 0
  | tokioClock => origin.durSinceEpoch
  | fastClock => origin.durSinceEpoch
  | manualClock => 0

/-- `Clock::now`. -/
def now (origin : Datum) (s : Sources) : Clock → ℚ
  | stdClock => durationSince s.stdInstant origin.stdInstant + origin.durSinceEpoch
  | quantaClock => durationSince s.quantaInstant origin.quantaInstant + origin.durSinceEpoch
  | tokioClock => durationSince s.tokioInstant origin.tokioInstant + origin.durSinceEpoch
  | fastClock => durationSince s.quantaRecent origin.quantaInstant + origin.durSinceEpoch
  | manualClock => s.manual

/-- When the sources read `s`, the clock has not passed its datum: no time has gone by since the origin was
fixed; for a `QuantaClock`, none since 1970 either; a manual clock has not been set past zero. -/
def AtDatum (origin : Datum) (s : Sources) : Clock → Prop
  | stdClock => s.stdInstant ≤ origin.stdInstant
  | quantaClock => s.quantaInstant + origin.durSinceEpoch ≤ origin.quantaInstant ∧ origin.durSinceEpoch ≤ 0
  | tokioClock => s.tokioInstant ≤ origin.tokioInstant
  | fastClock => s.quantaRecent ≤ origin.quantaInstant
  | manualClock => s.manual ≤ 0

theorem now_le_datum_iff (origin : Datum) (s : Sources) (clock : Clock) :
    clock.now origin s ≤ clock.datum origin ↔ clock.AtDatum origin s := by
  have hsince : ∀ a b d : ℚ, durationSince a b + d ≤ d ↔ a ≤ b := by
    intro a b d
    rw [durationSince, add_le_iff_nonpos_left, max_le_iff, and_iff_left le_rfl, sub_nonpos]
  cases clock with
  | stdClock | tokioClock | fastClock => exact hsince _ _ _
  | quantaClock =>
    simp only [now, datum, AtDatum, durationSince, ← max_add_add_right, max_le_iff, zero_add]
    refine and_congr_left fun _ => ?_
    constructor <;> intro h <;> linarith
  | manualClock => rfl

end Clock

/-- `RawTokenBucket::new` (`raw_bucket.rs:27`): the zero time of the new storage. -/
def RawTokenBucket.new (clock : Clock) (origin : Datum) : ℚ := clock.datum origin

/-- `TokenBucket::with_datum` (`bucket.rs:106`) and, over the default storage, `with_clock`
(`bucket.rs:68`). -/
def TokenBucket.withDatum (limit : Limit) (clock : Clock) (origin : Datum) : TokenBucket :=
  ⟨limit, RawTokenBucket.new clock origin⟩

/-! ## What such a bucket grants -/

/-- A call that takes tokens, made when the sources of time read `at`. -/
structure TimedCall where
  way : Taking
  k : NonZeroU32
  sources : Sources

def TimedCall.request (clock : Clock) (origin : Datum) (c : TimedCall) : Request :=
  ⟨c.way.call c.k, clock.now origin c.sources⟩

/-- In every run of calls at readings that do not go back, on a bucket built when the sources read `s₀`,
what is granted up to any time is at most what comes in from then on. -/
def GrantsSinceBuilt (fuel : Nat) (clock : Clock) (origin : Datum) (limit : Limit) (s₀ : Sources) : Prop :=
  ∀ calls : List TimedCall,
    (clock.now origin s₀ :: calls.map fun c => clock.now origin c.sources).Pairwise (· ≤ ·) →
    ∃ rs zt, runCalls limit fuel (calls.map (TimedCall.request clock origin))
        (TokenBucket.withDatum limit clock origin).zeroTime = some (rs, zt) ∧
      ∀ t, clock.now origin s₀ ≤ t →
        granted (clock.now origin s₀) t
            (admissions limit (calls.map (TimedCall.request clock origin)) rs) ≤
          limit.rate * (t - clock.now origin s₀)

/-! ## Grants only -/

theorem entry_refunded {req : Request} (h : req.call.isAddTokens = false) {r : Response} {e : Entry ℚ}
    (he : req.entry r = some e) : e.refunded = 0 := by
  unfold Request.entry at he
  split at he
  · cases he
    rfl
  · cases he
    rfl
  · cases he
    rfl
  · split at he
    · rename_i tokens hcall
      rw [hcall] at h
      cases h
    · cases he
  · cases he

theorem admission_refunded {limit : Limit} {req : Request} (h : req.call.isAddTokens = false) {r : Response}
    {e : Entry ℚ} (he : req.admission limit r = some e) : e.refunded = 0 := by
  unfold Request.admission at he
  split at he
  · cases he
    rfl
  · cases he
    rfl
  · cases he
    rfl
  · exact entry_refunded h he

theorem TimedCall.isAddTokens (clock : Clock) (origin : Datum) (c : TimedCall) :
    (c.request clock origin).call.isAddTokens = false := by
  obtain ⟨way, k, sources⟩ := c
  cases way <;> rfl

/-- No admission of calls that take tokens is a refund. -/
theorem admissions_refunded (limit : Limit) {reqs : List Request}
    (h : ∀ req ∈ reqs, req.call.isAddTokens = false) (rs : List Response) :
    ∀ e ∈ admissions limit reqs rs, e.refunded = 0 := by
  intro e he
  obtain ⟨⟨req, r⟩, hmem, hadm⟩ := List.mem_filterMap.1 he
  exact admission_refunded (h req (List.of_mem_zip hmem).1) hadm

/-! ## The bound -/

section
variable {clock : Clock} {origin : Datum} {limit : Limit} {s₀ : Sources} {fuel : Nat}

theorem grantsSinceBuilt_of_le (hf : 2 ≤ fuel) (h : clock.now origin s₀ ≤ clock.datum origin) :
    GrantsSinceBuilt fuel clock origin limit s₀ := by
  intro calls _
  refine ⟨_, _, runCalls_eq limit hf _ _, fun t ht => ?_⟩
  have hreqs : ∀ req ∈ calls.map (TimedCall.request clock origin), req.call.isAddTokens = false := by
    intro req hreq
    obtain ⟨c, -, rfl⟩ := List.mem_map.1 hreq
    exact c.isAddTokens clock origin
  have hstart : History limit.rate limit.burst (clock.datum origin) [] (clock.datum origin) := .start
  have hist := replay_history hstart (calls.map (TimedCall.request clock origin))
  rw [List.nil_append] at hist
  have hr := limit.rate_pos
  rcases hist.granted_le_since hr (admissions_refunded limit hreqs _) with hnone | hsince
  · exact hnone.trans (mul_nonneg hr.le (sub_nonneg.2 ht))
  · exact hsince.trans (mul_le_mul_of_nonneg_left (sub_le_sub_left h t) hr.le)

/-- If the clock is past its datum, the first call can take something at once. -/
theorem le_of_grantsSinceBuilt (hf : 2 ≤ fuel) (h : GrantsSinceBuilt fuel clock origin limit s₀) :
    clock.now origin s₀ ≤ clock.datum origin := by
  by_contra hlt
  have hpos : 0 < limit.balance (clock.now origin s₀) (clock.datum origin) := by
    rw [← not_le, limit.balance_nonpos_iff]
    exact hlt
  let one : NonZeroU32 := ⟨1, by decide⟩
  let amount := min (limit.balance (clock.now origin s₀) (clock.datum origin)) one.toRat
  have hamount : 0 < amount := lt_min hpos one.toRat_pos
  have hout : Request.outcome limit ⟨.saturatingConsume one, clock.now origin s₀⟩ (clock.datum origin) =
      (.saturatingConsume (some ⟨amount⟩),
        limit.charged (clock.now origin s₀) (clock.datum origin) amount) := by
    simp only [Request.outcome, if_neg (not_le.2 hpos), amount]
  obtain ⟨rs, zt, hrun, hall⟩ := h [⟨.saturatingConsume, one, s₀⟩] (by simp)
  have hrs : rs = [.saturatingConsume (some ⟨amount⟩)] := by
    rw [runCalls_eq limit hf, Option.some.injEq] at hrun
    refine (congrArg Prod.fst hrun).symm.trans ?_
    show [(Request.outcome limit ⟨.saturatingConsume one, clock.now origin s₀⟩ (clock.datum origin)).1] = _
    rw [hout]
  subst hrs
  have hnow := hall _ le_rfl
  have hadm : admissions limit [⟨.saturatingConsume one, clock.now origin s₀⟩]
      [.saturatingConsume (some ⟨amount⟩)] = [.grant (clock.now origin s₀) amount] := rfl
  have hgranted : granted (clock.now origin s₀) (clock.now origin s₀)
      [.grant (clock.now origin s₀) amount] = amount := by simp [Entry.grantedIn]
  rw [sub_self, mul_zero] at hnow
  exact absurd (hgranted.symm.trans_le (hadm ▸ hnow)) (not_le.2 hamount)

end

/-- **When a bucket built from its clock's datum starts empty.** If the clock has not passed its datum
when the bucket is built, nothing is there then and the bucket grants only what comes in from then on;
otherwise neither is so. -/
theorem starts_empty_iff (clock : Clock) (origin : Datum) (limit : Limit) (s₀ : Sources) {fuel : Nat}
    (hf : 2 ≤ fuel) :
    ((TokenBucket.withDatum limit clock origin).balance (clock.now origin s₀) ≤ 0 ↔
      clock.AtDatum origin s₀) ∧
    (GrantsSinceBuilt fuel clock origin limit s₀ ↔ clock.AtDatum origin s₀) := by
  rw [← clock.now_le_datum_iff]
  exact ⟨limit.balance_nonpos_iff, le_of_grantsSinceBuilt hf, grantsSinceBuilt_of_le hf⟩

/-- A `StdClock` whose origin is being fixed. -/
theorem starts_empty_at_origin :
    let s₀ : Sources := ⟨1700000000, 5, 6, 7, 7, 0⟩
    let limit := Limit.perSecond ⟨10, by decide⟩
    ((TokenBucket.withDatum limit .stdClock (clockOrigin s₀)).balance
        (Clock.now (clockOrigin s₀) s₀ .stdClock) ≤ 0 ↔ Clock.stdClock.AtDatum (clockOrigin s₀) s₀) ∧
    (GrantsSinceBuilt 2 .stdClock (clockOrigin s₀) limit s₀ ↔ Clock.stdClock.AtDatum (clockOrigin s₀) s₀) :=
  starts_empty_iff _ _ _ _ le_rfl

/-- Ten tokens a second; the bucket is built three seconds after the origin was fixed. With a `StdClock`
it is full, with a `QuantaClock` it would be at the origin too. -/
theorem built_full :
    let s₀ : Sources := ⟨1700000000, 5, 6, 7, 7, 0⟩
    let s₁ : Sources := ⟨1700000003, 8, 9, 10, 10, 3⟩
    let limit := Limit.perSecond ⟨10, by decide⟩
    (TokenBucket.withDatum limit .stdClock (clockOrigin s₀)).balance
        (Clock.now (clockOrigin s₀) s₁ .stdClock) = 10 ∧
      (TokenBucket.withDatum limit .quantaClock (clockOrigin s₀)).balance
        (Clock.now (clockOrigin s₀) s₀ .quantaClock) = 10 ∧
      ¬ GrantsSinceBuilt 2 .stdClock (clockOrigin s₀) limit s₁ := by
  intro s₀ s₁ limit
  refine ⟨by decide +kernel, by decide +kernel, fun h => ?_⟩
  have hle := le_of_grantsSinceBuilt le_rfl h
  revert hle
  decide +kernel

end Gardal
