import Mathlib.Algebra.Order.Field.Rat
import Mathlib.Tactic.Positivity
import Mathlib.Tactic.FieldSimp
import Mathlib.Tactic.Linarith
/-!
# The values the bucket works with

| here | there |
| --- | --- |
| `ℚ` | `f64`, read as the exact number it stands for: sums, products and quotients do not round |
| `NonZeroU32` | `std::num::NonZeroU32`; `as f64` is exact on it |
| `Limit` | `Limit` (`limit.rs`); both fields are private there and positive in every constructor |
| `Tokens` | `Tokens` (`tokens.rs`), which stores the bits of an `f64` |
| `Nanos` | `Nanos` (`clock.rs:29`), which stores the bits of an `f64` number of seconds |
| `Duration` | `std::time::Duration`, an exact number of seconds |

`Tokens` and `Nanos` wrap a `NonZeroU64` made by an unchecked constructor, so that nothing in
the types keeps the number in them from being zero; here they do not promise it either.
-/
namespace Gardal

abbrev NonZeroU32 := {n : UInt32 // n ≠ 0}

namespace NonZeroU32

/-- `to_consume.get() as f64`. -/
def toRat (k : NonZeroU32) : ℚ := k.val.toNat

theorem one_le_toRat (k : NonZeroU32) : 1 ≤ k.toRat := by
  have h : k.val.toNat ≠ 0 := fun h => k.property (UInt32.toNat_inj.1 (by simpa using h))
  unfold toRat
  exact_mod_cast Nat.one_le_iff_ne_zero.2 h

theorem toRat_pos (k : NonZeroU32) : 0 < k.toRat := lt_of_lt_of_le one_pos k.one_le_toRat

theorem toRat_ne_zero (k : NonZeroU32) : k.toRat ≠ 0 := k.toRat_pos.ne'

end NonZeroU32

structure Limit where
  rate : ℚ
  burst : ℚ
  rate_pos : 0 < rate
  burst_pos : 0 < burst
  deriving DecidableEq

namespace Limit

/-- `Limit::per_second` (`limit.rs:63`). -/
def perSecond (rate : NonZeroU32) : Limit := ⟨rate.toRat, rate.toRat, rate.toRat_pos, rate.toRat_pos⟩

/-- `Limit::per_second_and_burst` (`limit.rs:90`). -/
def perSecondAndBurst (rate burst : NonZeroU32) : Limit :=
  ⟨rate.toRat, burst.toRat, rate.toRat_pos, burst.toRat_pos⟩

/-- `Limit::per_minute` (`limit.rs:115`). -/
def perMinute (rate : NonZeroU32) : Limit where
  rate := rate.toRat / 60
  burst := max rate.toRat 1
  rate_pos := by have := rate.toRat_pos; positivity
  burst_pos := lt_max_of_lt_left rate.toRat_pos

/-- `Limit::per_hour` (`limit.rs:140`). -/
def perHour (rate : NonZeroU32) : Limit where
  rate := rate.toRat / 3600
  burst := max rate.toRat 1
  rate_pos := by have := rate.toRat_pos; positivity
  burst_pos := lt_max_of_lt_left rate.toRat_pos

/-- `Limit::with_burst` (`limit.rs:164`). -/
def withBurst (limit : Limit) (burst : NonZeroU32) : Limit :=
  { limit with burst := burst.toRat, burst_pos := burst.toRat_pos }

end Limit

structure Tokens where
  value : ℚ
  deriving DecidableEq, Repr

namespace Tokens

/-- `Tokens::new_unchecked` (`tokens.rs:54`). -/
def newUnchecked (value : ℚ) : Tokens := ⟨value⟩

/-- `Tokens::new_checked` (`tokens.rs:46`): the doc promises `None` for `value <= 0`, the code
tests `value == 0.0`. -/
def newChecked (value : ℚ) : Option Tokens := if value = 0 then none else some (newUnchecked value)

/-- `Tokens::as_u64` (`tokens.rs:64`): `as u64` cuts the fraction off and is clamped at both ends. -/
def asU64 (tokens : Tokens) : UInt64 := UInt64.ofNatClamp tokens.value.floor.toNat

/-- `impl From<Tokens> for f64` (`tokens.rs:69`). -/
def toF64 (tokens : Tokens) : ℚ := tokens.asU64.toNat

end Tokens

structure Nanos where
  secs : ℚ
  deriving DecidableEq, Repr

namespace Nanos

/-- `Nanos::from_secs_f64_unchecked` (`clock.rs:44`). -/
def fromSecsF64Unchecked (secs : ℚ) : Nanos := ⟨secs⟩

/-- `Nanos::new_checked` (`clock.rs:32`). -/
def newChecked (secs : ℚ) : Option Nanos :=
  if secs ≤ 0 then none else some (fromSecsF64Unchecked secs)

end Nanos

structure Duration where
  secs : ℚ
  deriving DecidableEq, Repr

/-- `Duration::from_secs_f64`, for seconds it takes. -/
def Duration.fromSecsF64 (secs : ℚ) : Duration := ⟨secs⟩

/-- The seconds that `Duration::from_secs_f64` takes; on any others it panics. -/
def Duration.InRange (secs : ℚ) : Prop := 0 ≤ secs ∧ secs < 2 ^ 64

instance : DecidablePred Duration.InRange := fun _ => inferInstanceAs (Decidable (_ ∧ _))

/-- `impl From<Nanos> for Duration` (`clock.rs:49`); `none` where it panics. -/
def Nanos.toDuration (nanos : Nanos) : Option Duration :=
  if Duration.InRange nanos.secs then some (.fromSecsF64 nanos.secs) else none

/-- `RateLimited` (`error.rs:27`). -/
structure RateLimited where
  earliestRetryTime : Nanos
  deriving DecidableEq, Repr

/-- `ExceededBurstCapacity` (`error.rs:54`). -/
inductive ExceededBurstCapacity
  | exceededBurstCapacity
  deriving DecidableEq, Repr

end Gardal
