import Gardal.Cell.Linearize
import Gardal.Values
/-!
# `TokenBucketStorage` (`storage.rs`)

The bucket is one number, the zero time: the time at which it had, or will have, no tokens. At time
`now` the balance is `(now - zt) * rate`, capped at the burst when it is read; the cell itself is
never capped.

The storages differ in what a `compare_exchange_weak` does. The atomic ones (`AtomicStorage`,
`AtomicSharedStorage` and their padded forms, all one `AtomicF64`) are a `Cell.Pool`, or `Prog.runAlone` for
what runs undisturbed; `LocalStorage` (`storage/local.rs`), which stores the new value whatever the
expected one, is `Prog.runLocal`.
-/
namespace Gardal
open Cell

/-- The routine an access to the zero time is made in. -/
inductive Site
  | consume | consume2 | returnTokens | timeWhenBucket | balance | reset
  deriving DecidableEq, Repr

abbrev Code (α : Type) := Prog ℚ Site α

/-- `TokenAcquisition` (`storage.rs:21`). -/
inductive TokenAcquisition
  | acquired (consumed : ℚ)
  | zeroedAt (zeroTime : ℚ)
  deriving DecidableEq, Repr

namespace TokenBucketStorage

/-- `TokenBucketStorage::reset` (`storage.rs:46`). -/
def reset (zeroTime : ℚ) : Code Unit := .access .reset (.store zeroTime)

/-- The balance at `now` when the zero time is `zt`. -/
def balanceOf (rate burstSize now zt : ℚ) : ℚ := min ((now - zt) * rate) burstSize

/-- `TokenBucketStorage::balance` (`storage.rs:51`). -/
def balance (rate burstSize now : ℚ) : Code ℚ := do
  let zt ← Prog.access .balance .load
  return balanceOf rate burstSize now zt

/-- One iteration of the loop of `consume` (`storage.rs:69-84`). -/
def consumeStep (rate burstSize now : ℚ) (f : ℚ → ℚ) (zeroTimeOld : ℚ) : Attempt ℚ ℚ :=
  let available := balanceOf rate burstSize now zeroTimeOld
  let consumed := f available
  if consumed = 0 then .stop 0
  else
    let tokensNew := available - consumed
    let zeroTimeNew := now - tokensNew / rate
    .write zeroTimeNew consumed

/-- `TokenBucketStorage::consume` (`storage.rs:61`). -/
def consume (rate burstSize now : ℚ) (f : ℚ → ℚ) : Code ℚ :=
  casLoop .consume (consumeStep rate burstSize now f)

/-- One iteration of the loop of `consume2` (`storage.rs:98-115`). -/
def consume2Step (rate burstSize now : ℚ) (f : ℚ → ℚ) (zeroTimeOld : ℚ) :
    Attempt ℚ TokenAcquisition :=
  let available := balanceOf rate burstSize now zeroTimeOld
  let consumed := f available
  if consumed = 0 then .stop (.zeroedAt zeroTimeOld)
  else
    let tokensNew := available - consumed
    let zeroTimeNew := now - tokensNew / rate
    .write zeroTimeNew (.acquired consumed)

/-- `TokenBucketStorage::consume2` (`storage.rs:91`). -/
def consume2 (rate burstSize now : ℚ) (f : ℚ → ℚ) : Code TokenAcquisition :=
  casLoop .consume2 (consume2Step rate burstSize now f)

/-- `TokenBucketStorage::return_tokens` (`storage.rs:120`): the result is the new zero time. -/
def returnTokens (tokens rate : ℚ) : Code ℚ :=
  casLoop .returnTokens fun zeroTimeOld =>
    let zeroTimeNew := zeroTimeOld - tokens / rate
    .write zeroTimeNew zeroTimeNew

/-- `TokenBucketStorage::time_when_bucket` (`storage.rs:139`): a second access to the cell. -/
def timeWhenBucket (rate target : ℚ) : Code ℚ := do
  let zt ← Prog.access .timeWhenBucket .load
  return zt + target / rate

end TokenBucketStorage
end Gardal
