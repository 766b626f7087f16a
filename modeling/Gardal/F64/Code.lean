import Gardal.Ieee.Binary64
import Gardal.RawBucket
/-!
# The bucket in `f64`

The code of `storage.rs` and `raw_bucket.rs` with `Float` for `f64`: the accesses are those of `Gardal.Storage`
and `Gardal.RawBucket`, and every operation on numbers rounds as `Gardal.Ieee.Binary64` says.

| here | there |
| --- | --- |
| a cell with a `Float` | `AtomicF64` (`atomic.rs:9`): it keeps the bits, and exchanges if they are the same |
| `minNum`, `maxNum` | `f64::min`, `f64::max` |
| `NonZeroU32.toF64` | `to_consume.get() as f64` |
| `Option` around a response | `none`: the call panicked |

Only here a handle's `balance` and `available` are calls of their own, so that a `Call` is any method that takes
the bucket by `&self`.
-/
namespace Gardal
open Ieee

/-- `to_consume.get() as f64`. -/
def NonZeroU32.toF64 (k : NonZeroU32) : Float := k.val.toFloat

namespace F64
open Cell

/-- A number in `[lo, hi]`. -/
structure Within (lo hi : ℚ) (x : Float) : Prop where
  finite : x.isFinite = true
  le : lo ≤ toRat x
  ge : toRat x ≤ hi

instance (lo hi : ℚ) : DecidablePred (Within lo hi) := fun x =>
  decidable_of_iff (x.isFinite = true ∧ lo ≤ toRat x ∧ toRat x ≤ hi)
    ⟨fun h => ⟨h.1, h.2.1, h.2.2⟩, fun h => ⟨h.finite, h.le, h.ge⟩⟩

theorem Within.of_is {lo hi q : ℚ} {x : Float} (h : Is x q) (hlo : lo ≤ q) (hhi : q ≤ hi) : Within lo hi x :=
  ⟨h.finite, h.toRat.symm ▸ hlo, h.toRat.symm ▸ hhi⟩

theorem within_toF64 (k : NonZeroU32) : Within 1 (2 ^ 32) k.toF64 := by
  refine .of_is (is_toFloat k.val) k.one_le_toRat ?_
  exact_mod_cast k.val.toNat_lt.le

/-- `Limit` (`limit.rs`). The bounds are what the constructors promise of the two private fields. -/
structure Limit where
  rate : Float
  burst : Float
  rate_within : Within (1 / 2 ^ 12) (2 ^ 32) rate
  burst_within : Within 1 (2 ^ 32) burst

namespace Limit

/-- A rate given for a longer time than a second, up to an hour and a bit. -/
theorem within_div {x d : Float} {n : ℕ} (hx : Within 1 (2 ^ 32) x) (hd : Is d n) (h0 : 1 ≤ n)
    (hn : n ≤ 2 ^ 12) :
    Within (1 / 2 ^ 12) (2 ^ 32) (x / d) := by
  have hpos : (0 : ℚ) < n := by exact_mod_cast h0
  have hn' : (n : ℚ) ≤ 2 ^ 12 := by exact_mod_cast hn
  have hone : (1 : ℚ) ≤ n := by exact_mod_cast h0
  have hlo : (1 / 2 ^ 12 : ℚ) ≤ toRat x / n := by
    rw [div_le_div_iff₀ (by norm_num) hpos]
    nlinarith [hx.le]
  have hhi : toRat x / n ≤ 2 ^ 32 := (div_le_self (by linarith [hx.le]) hone).trans hx.ge
  have hflo : (1 / 2 ^ 12 : ℚ) ≤ fl (toRat x / n) := le_rnd (double_inv_two_pow (by norm_num)) hlo
  have hfhi : fl (toRat x / n) ≤ 2 ^ 32 := rnd_le (double_two_pow 32) hhi
  have habs : |toRat x / n| ≤ 2 ^ 32 := by rwa [abs_of_nonneg (le_trans (by norm_num) hlo)]
  exact .of_is ((is_toRat hx.finite).div hd hpos.ne' (abs_fl_lt (by norm_num) habs)) hflo hfhi

/-- `SECONDS_PER_MINUTE` (`limit.rs:3`). -/
def secondsPerMinute : Float := 60.0

/-- `SECONDS_PER_HOUR` (`limit.rs:4`). -/
def secondsPerHour : Float := 3600.0

theorem is_secondsPerMinute : Is secondsPerMinute 60 := ⟨by decide +kernel, by decide +kernel⟩

theorem is_secondsPerHour : Is secondsPerHour 3600 := ⟨by decide +kernel, by decide +kernel⟩

theorem is_one : Is 1.0 1 := ⟨by decide +kernel, by decide +kernel⟩

theorem within_max {x : Float} (hx : Within 1 (2 ^ 32) x) : Within 1 (2 ^ 32) (maxNum x 1.0) :=
  .of_is ((is_toRat hx.finite).maxNum is_one) (le_max_right _ _) (max_le hx.ge (by norm_num))

/-- `Limit::per_second` (`limit.rs:63`). -/
def perSecond (rate : NonZeroU32) : Limit where
  rate := rate.toF64
  burst := rate.toF64
  rate_within := ⟨(within_toF64 rate).finite, by linarith [(within_toF64 rate).le], (within_toF64 rate).ge⟩
  burst_within := within_toF64 rate

/-- `Limit::per_second_and_burst` (`limit.rs:90`). -/
def perSecondAndBurst (rate burst : NonZeroU32) : Limit :=
  { perSecond rate with burst := burst.toF64, burst_within := within_toF64 burst }

/-- `Limit::per_minute` (`limit.rs:115`). -/
def perMinute (rate : NonZeroU32) : Limit where
  rate := rate.toF64 / secondsPerMinute
  burst := maxNum rate.toF64 1.0
  rate_within := within_div (n := 60) (within_toF64 rate) is_secondsPerMinute (by norm_num) (by norm_num)
  burst_within := within_max (within_toF64 rate)

/-- `Limit::per_hour` (`limit.rs:140`). -/
def perHour (rate : NonZeroU32) : Limit where
  rate := rate.toF64 / secondsPerHour
  burst := maxNum rate.toF64 1.0
  rate_within := within_div (n := 3600) (within_toF64 rate) is_secondsPerHour (by norm_num) (by norm_num)
  burst_within := within_max (within_toF64 rate)

/-- `Limit::with_burst` (`limit.rs:164`). -/
def withBurst (limit : Limit) (burst : NonZeroU32) : Limit :=
  { limit with burst := burst.toF64, burst_within := within_toF64 burst }

end Limit

/-- `Tokens` (`tokens.rs`), which stores the bits. -/
structure Tokens where
  value : Float
  deriving DecidableEq

namespace Tokens

/-- `Tokens::new_unchecked` (`tokens.rs:54`). -/
def newUnchecked (value : Float) : Tokens := ⟨value⟩

/-- `Tokens::new_checked` (`tokens.rs:46`). -/
def newChecked (value : Float) : Option Tokens := if value == 0.0 then none else some (newUnchecked value)

end Tokens

/-- `Nanos` (`clock.rs:29`), which stores the bits of a number of seconds. -/
structure Nanos where
  secs : Float
  deriving DecidableEq

namespace Nanos

/-- `Nanos::from_secs_f64_unchecked` (`clock.rs:44`). -/
def fromSecsF64Unchecked (secs : Float) : Nanos := ⟨secs⟩

/-- `Nanos::new_checked` (`clock.rs:32`). -/
def newChecked (secs : Float) : Option Nanos := if secs ≤ 0.0 then none else some (fromSecsF64Unchecked secs)

end Nanos

/-- `std::time::Duration`, in nanoseconds. -/
structure Duration where
  nanos : ℕ
  deriving DecidableEq

/-- `Duration::from_secs_f64`, which rounds to the nearest nanosecond, the even one of two, and panics on what
is negative, not finite or not below `2 ^ 64`. -/
def Duration.fromSecsF64 (secs : Float) : Option Duration :=
  if secs.isFinite = true ∧ 0 ≤ toRat secs ∧ toRat secs < 2 ^ 64 then
    some ⟨(nearest (toRat secs * 10 ^ 9)).toNat⟩
  else none

structure RateLimited where
  earliestRetryTime : Nanos
  deriving DecidableEq

abbrev Code (α : Type) := Prog Float Site α

/-! ## `storage.rs` -/

inductive TokenAcquisition
  | acquired (consumed : Float)
  | zeroedAt (zeroTime : Float)
  deriving DecidableEq

namespace TokenBucketStorage

/-- The balance at `now` when the zero time is `zt`. -/
def balanceOf (rate burstSize now zt : Float) : Float := minNum ((now - zt) * rate) burstSize

/-- `TokenBucketStorage::balance` (`storage.rs:51`). -/
def balance (rate burstSize now : Float) : Code Float := do
  let zt ← Prog.access .balance .load
  return balanceOf rate burstSize now zt

/-- The new zero time of the loops of `consume` and `consume2` (`storage.rs:75`, `:105`). -/
def zeroTimeNew (rate now available consumed : Float) : Float :=
  let tokensNew := available - consumed
  now - tokensNew / rate

/-- One iteration of the loop of `consume` (`storage.rs:69-84`). -/
def consumeStep (rate burstSize now : Float) (f : Float → Float) (zeroTimeOld : Float) : Attempt Float Float :=
  let available := balanceOf rate burstSize now zeroTimeOld
  let consumed := f available
  if consumed == 0.0 then .stop 0.0
  else .write (zeroTimeNew rate now available consumed) consumed

/-- `TokenBucketStorage::consume` (`storage.rs:61`). -/
def consume (rate burstSize now : Float) (f : Float → Float) : Code Float :=
  casLoop .consume (consumeStep rate burstSize now f)

/-- One iteration of the loop of `consume2` (`storage.rs:98-115`). -/
def consume2Step (rate burstSize now : Float) (f : Float → Float) (zeroTimeOld : Float) :
    Attempt Float TokenAcquisition :=
  let available := balanceOf rate burstSize now zeroTimeOld
  let consumed := f available
  if consumed == 0.0 then .stop (.zeroedAt zeroTimeOld)
  else .write (zeroTimeNew rate now available consumed) (.acquired consumed)

/-- `TokenBucketStorage::consume2` (`storage.rs:91`). -/
def consume2 (rate burstSize now : Float) (f : Float → Float) : Code TokenAcquisition :=
  casLoop .consume2 (consume2Step rate burstSize now f)

/-- `TokenBucketStorage::return_tokens` (`storage.rs:120`). -/
def returnTokens (tokens rate : Float) : Code Float :=
  casLoop .returnTokens fun zeroTimeOld =>
    let zeroTimeNew := zeroTimeOld - tokens / rate
    .write zeroTimeNew zeroTimeNew

/-- `TokenBucketStorage::time_when_bucket` (`storage.rs:139`). -/
def timeWhenBucket (rate target : Float) : Code Float := do
  let zt ← Prog.access .timeWhenBucket .load
  return zt + target / rate

end TokenBucketStorage

/-! ## `raw_bucket.rs` -/

namespace RawTokenBucket

/-- `|avail| if avail < to_consume { 0.0 } else { to_consume }`. -/
def exactly (toConsume avail : Float) : Float := if avail < toConsume then 0.0 else toConsume

/-- `|avail| avail.max(0.0).min(to_consume)`. -/
def upTo (toConsume avail : Float) : Float := minNum (maxNum avail 0.0) toConsume

/-- `RawTokenBucket::consume` (`raw_bucket.rs:88`). -/
def consume (toConsume : NonZeroU32) (now : Float) (limit : Limit) : Code (Option Tokens) := do
  let consumed ← TokenBucketStorage.consume limit.rate limit.burst now (exactly toConsume.toF64)
  return Tokens.newChecked consumed

/-- The `match consumed` of `try_consume` (`raw_bucket.rs:155-164`). -/
def acquisitionResult (toConsume now : Float) (limit : Limit) : TokenAcquisition → Except RateLimited Tokens
  | .acquired consumed => .ok (Tokens.newUnchecked consumed)
  | .zeroedAt zeroTime =>
    let estTime := zeroTime - now + toConsume / limit.rate
    .error ⟨Nanos.fromSecsF64Unchecked estTime⟩

/-- `RawTokenBucket::try_consume` (`raw_bucket.rs:143`). -/
def tryConsume (toConsume : NonZeroU32) (now : Float) (limit : Limit) : Code (Except RateLimited Tokens) := do
  let consumed ← TokenBucketStorage.consume2 limit.rate limit.burst now (exactly toConsume.toF64)
  return acquisitionResult toConsume.toF64 now limit consumed

/-- `RawTokenBucket::saturating_consume_inner` (`raw_bucket.rs:325`). -/
def saturatingConsumeInner (toConsume now : Float) (limit : Limit) : Code Float :=
  TokenBucketStorage.consume limit.rate limit.burst now (upTo toConsume)

/-- `RawTokenBucket::saturating_consume` (`raw_bucket.rs:183`). -/
def saturatingConsume (toConsume : NonZeroU32) (now : Float) (limit : Limit) : Code (Option Tokens) := do
  let consumed ← saturatingConsumeInner toConsume.toF64 now limit
  return Tokens.newChecked consumed

/-- `RawTokenBucket::add_tokens` (`raw_bucket.rs:204`). -/
def addTokens (tokens : Float) (limit : Limit) : Code Unit := do
  let _ ← TokenBucketStorage.returnTokens tokens limit.rate
  return ()

/-- One iteration of `while to_consume > 0.0` (`raw_bucket.rs:238-249`, `:279-293`). `borrowed` makes the
answer from the wait, `paid` is the answer when nothing is left to take. -/
def borrowStep {R : Type} (now : Float) (limit : Limit) (borrowed : Float → R) (paid : R)
    (toConsume : Float) : Code (Float ⊕ R) :=
  if 0.0 < toConsume then do
    let consumed ← saturatingConsumeInner toConsume now limit
    if 0.0 < consumed then
      return .inl (toConsume - consumed)
    else do
      let _ ← TokenBucketStorage.returnTokens (-toConsume) limit.rate
      let debtPaid ← TokenBucketStorage.timeWhenBucket limit.rate 0.0
      let napTime := maxNum (debtPaid - now) 0.0
      return .inr (borrowed napTime)
  else return .inr paid

/-- `RawTokenBucket::consume_with_borrow` (`raw_bucket.rs:226`). -/
def consumeWithBorrow (toConsume : NonZeroU32) (now : Float) (limit : Limit) :
    Code (Except ExceededBurstCapacity (Option Nanos)) :=
  if limit.burst < toConsume.toF64 then return .error .exceededBurstCapacity
  else
    .loop (borrowStep now limit (fun napTime => .ok (Nanos.newChecked napTime)) (.ok none))
      toConsume.toF64

/-- `RawTokenBucket::saturating_consume_with_borrow` (`raw_bucket.rs:268`). -/
def saturatingConsumeWithBorrow (toConsume : NonZeroU32) (now : Float) (limit : Limit) :
    Code (Option (Option Tokens × Duration)) :=
  let actualToBeConsumed := minNum toConsume.toF64 limit.burst
  .loop
    (borrowStep now limit
      (fun napTime => do return (Tokens.newChecked actualToBeConsumed, ← Duration.fromSecsF64 napTime))
      (some (none, ⟨0⟩)))
    actualToBeConsumed

/-- `RawTokenBucket::balance` (`raw_bucket.rs:316`). -/
def balance (now : Float) (limit : Limit) : Code Float :=
  TokenBucketStorage.balance limit.rate limit.burst now

/-- `RawTokenBucket::available` (`raw_bucket.rs:304`). -/
def available (now : Float) (limit : Limit) : Code Float := do
  let balance ← balance now limit
  return maxNum balance 0.0

end RawTokenBucket

/-! ## Calls -/

inductive Call
  | consume (k : NonZeroU32)
  | tryConsume (k : NonZeroU32)
  | saturatingConsume (k : NonZeroU32)
  | consumeWithBorrow (k : NonZeroU32)
  | saturatingConsumeWithBorrow (k : NonZeroU32)
  | addTokens (tokens : Float)
  | balance
  | available
  deriving DecidableEq

def Call.isAddTokens : Call → Bool
  | addTokens _ => true
  | _ => false

inductive Response
  | consume (r : Option Tokens)
  | tryConsume (r : Except RateLimited Tokens)
  | saturatingConsume (r : Option Tokens)
  | consumeWithBorrow (r : Except ExceededBurstCapacity (Option Nanos))
  | saturatingConsumeWithBorrow (r : Option (Option Tokens × Duration))
  | addTokens
  | balance (r : Float)
  | available (r : Float)

/-- A call on a handle with the limit `limit`, and the reading of the clock it starts with. -/
structure HandleCall where
  limit : Limit
  call : Call
  now : Float

def HandleCall.code (c : HandleCall) : Code Response :=
  match c.call with
  | .consume k => do return .consume (← RawTokenBucket.consume k c.now c.limit)
  | .tryConsume k => do return .tryConsume (← RawTokenBucket.tryConsume k c.now c.limit)
  | .saturatingConsume k => do return .saturatingConsume (← RawTokenBucket.saturatingConsume k c.now c.limit)
  | .consumeWithBorrow k => do return .consumeWithBorrow (← RawTokenBucket.consumeWithBorrow k c.now c.limit)
  | .saturatingConsumeWithBorrow k => do
    return .saturatingConsumeWithBorrow (← RawTokenBucket.saturatingConsumeWithBorrow k c.now c.limit)
  | .addTokens tokens => do
    RawTokenBucket.addTokens tokens c.limit
    return .addTokens
  | .balance => do return .balance (← RawTokenBucket.balance c.now c.limit)
  | .available => do return .available (← RawTokenBucket.available c.now c.limit)

end F64
end Gardal
