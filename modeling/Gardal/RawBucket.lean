import Gardal.Storage
/-!
# `RawTokenBucket` (`raw_bucket.rs`)

Each operation reads the clock once, first; `now` is that reading. The two borrowing operations share
their loop, which drains what is there and, once a drain gives nothing, takes the rest as debt with
`return_tokens(-rest)` and then reads the cell again for the wait.
-/
namespace Gardal
open Cell

namespace RawTokenBucket

/-- `|avail| if avail < to_consume { 0.0 } else { to_consume }`. -/
def exactly (toConsume avail : ℚ) : ℚ := if avail < toConsume then 0 else toConsume

/-- `|avail| avail.max(0.0).min(to_consume)`. -/
def upTo (toConsume avail : ℚ) : ℚ := min (max avail 0) toConsume

/-- `RawTokenBucket::consume` (`raw_bucket.rs:88`). -/
def consume (toConsume : NonZeroU32) (now : ℚ) (limit : Limit) : Code (Option Tokens) := do
  let consumed ← TokenBucketStorage.consume limit.rate limit.burst now (exactly toConsume.toRat)
  return Tokens.newChecked consumed

/-- The `match consumed` of `try_consume` (`raw_bucket.rs:155-164`). -/
def acquisitionResult (toConsume now : ℚ) (limit : Limit) :
    TokenAcquisition → Except RateLimited Tokens
  | .acquired consumed => .ok (Tokens.newUnchecked consumed)
  | .zeroedAt zeroTime =>
    let estTime := zeroTime - now + toConsume / limit.rate
    .error ⟨Nanos.fromSecsF64Unchecked estTime⟩

/-- `RawTokenBucket::try_consume` (`raw_bucket.rs:143`). -/
def tryConsume (toConsume : NonZeroU32) (now : ℚ) (limit : Limit) :
    Code (Except RateLimited Tokens) := do
  let consumed ← TokenBucketStorage.consume2 limit.rate limit.burst now (exactly toConsume.toRat)
  return acquisitionResult toConsume.toRat now limit consumed

/-- `RawTokenBucket::saturating_consume_inner` (`raw_bucket.rs:325`). -/
def saturatingConsumeInner (toConsume now : ℚ) (limit : Limit) : Code ℚ :=
  TokenBucketStorage.consume limit.rate limit.burst now (upTo toConsume)

/-- `RawTokenBucket::saturating_consume` (`raw_bucket.rs:183`). -/
def saturatingConsume (toConsume : NonZeroU32) (now : ℚ) (limit : Limit) : Code (Option Tokens) := do
  let consumed ← saturatingConsumeInner toConsume.toRat now limit
  return Tokens.newChecked consumed

/-- `RawTokenBucket::add_tokens` (`raw_bucket.rs:204`). -/
def addTokens (tokens : ℚ) (limit : Limit) : Code Unit := do
  let _ ← TokenBucketStorage.returnTokens tokens limit.rate
  return ()

/-- One iteration of `while to_consume > 0.0` (`raw_bucket.rs:238-249`, `:279-293`). `borrowed` makes the
answer from the wait, `paid` is the answer when nothing is left to take. -/
def borrowStep {R : Type} (now : ℚ) (limit : Limit) (borrowed : ℚ → R) (paid : R)
    (toConsume : ℚ) : Code (ℚ ⊕ R) :=
  if 0 < toConsume then do
    let consumed ← saturatingConsumeInner toConsume now limit
    if 0 < consumed then
      return .inl (toConsume - consumed)
    else do
      -- The zero time `return_tokens` returns is dropped here.
      let _ ← TokenBucketStorage.returnTokens (-toConsume) limit.rate
      let debtPaid ← TokenBucketStorage.timeWhenBucket limit.rate 0
      let napTime := max (debtPaid - now) 0
      return .inr (borrowed napTime)
  else return .inr paid

/-- `RawTokenBucket::consume_with_borrow` (`raw_bucket.rs:226`). -/
def consumeWithBorrow (toConsume : NonZeroU32) (now : ℚ) (limit : Limit) :
    Code (Except ExceededBurstCapacity (Option Nanos)) :=
  if limit.burst < toConsume.toRat then return .error .exceededBurstCapacity
  else
    .loop (borrowStep now limit (fun napTime => .ok (Nanos.newChecked napTime)) (.ok none))
      toConsume.toRat

/-- `RawTokenBucket::saturating_consume_with_borrow` (`raw_bucket.rs:268`). -/
def saturatingConsumeWithBorrow (toConsume : NonZeroU32) (now : ℚ) (limit : Limit) :
    Code (Option Tokens × Duration) :=
  let actualToBeConsumed := min toConsume.toRat limit.burst
  .loop
    (borrowStep now limit
      (fun napTime => (Tokens.newChecked actualToBeConsumed, Duration.fromSecsF64 napTime))
      (none, ⟨0⟩))
    actualToBeConsumed

/-- `RawTokenBucket::balance_at` (`raw_bucket.rs:320`). -/
def balanceAt (time : ℚ) (limit : Limit) : Code ℚ :=
  TokenBucketStorage.balance limit.rate limit.burst time

/-- `RawTokenBucket::set_capacity` (`raw_bucket.rs:67`). -/
def setCapacity (tokens now rate : ℚ) : Code Unit := TokenBucketStorage.reset (now - tokens / rate)

/-- `RawTokenBucket::reset` (`raw_bucket.rs:60`): the limit is the new one throughout. -/
def reset (limit : Limit) (now : ℚ) : Code Unit := do
  let balance ← TokenBucketStorage.balance limit.rate limit.burst now
  let available := max balance 0
  setCapacity available now limit.rate

end RawTokenBucket

/-! ## `TokenBucket` (`bucket.rs`)

A handle holds the storage, the clock and its own copy of the limit; clones over a shared storage
share the zero time only. -/

namespace TokenBucket

/-- `TokenBucket::reset` (`bucket.rs:133`) on a handle whose limit is `old`; the handle's limit is
`limit` afterwards. -/
def reset (old limit : Limit) (now : ℚ) : Code Unit := do
  let available ← RawTokenBucket.balanceAt now old
  RawTokenBucket.setCapacity available now limit.rate

/-- `TokenBucket::update_limit` (`bucket.rs:151`): the same accesses, on a handle that is consumed;
the result is the new handle's limit. -/
def updateLimit (old limit : Limit) (now : ℚ) : Code Limit := do
  let available ← RawTokenBucket.balanceAt now old
  RawTokenBucket.setCapacity available now limit.rate
  return limit

end TokenBucket

/-! ## Calls -/

/-- The calls of a handle that leave its limit alone. `add_tokens` is called with a positive amount
(`debug_assert!(tokens > 0.0)`). -/
inductive Call
  | consume (k : NonZeroU32)
  | tryConsume (k : NonZeroU32)
  | saturatingConsume (k : NonZeroU32)
  | consumeWithBorrow (k : NonZeroU32)
  | saturatingConsumeWithBorrow (k : NonZeroU32)
  | addTokens (tokens : {t : ℚ // 0 < t})
  deriving DecidableEq

/-- A call and the reading of the clock it starts with. -/
structure Request where
  call : Call
  now : ℚ
  deriving DecidableEq

inductive Response
  | consume (r : Option Tokens)
  | tryConsume (r : Except RateLimited Tokens)
  | saturatingConsume (r : Option Tokens)
  | consumeWithBorrow (r : Except ExceededBurstCapacity (Option Nanos))
  | saturatingConsumeWithBorrow (r : Option Tokens × Duration)
  | addTokens
  deriving DecidableEq, Repr

def Request.code (limit : Limit) (req : Request) : Code Response :=
  match req.call with
  | .consume k => do return .consume (← RawTokenBucket.consume k req.now limit)
  | .tryConsume k => do return .tryConsume (← RawTokenBucket.tryConsume k req.now limit)
  | .saturatingConsume k => do
    return .saturatingConsume (← RawTokenBucket.saturatingConsume k req.now limit)
  | .consumeWithBorrow k => do
    return .consumeWithBorrow (← RawTokenBucket.consumeWithBorrow k req.now limit)
  | .saturatingConsumeWithBorrow k => do
    return .saturatingConsumeWithBorrow (← RawTokenBucket.saturatingConsumeWithBorrow k req.now limit)
  | .addTokens tokens => do
    RawTokenBucket.addTokens tokens limit
    return .addTokens

end Gardal
