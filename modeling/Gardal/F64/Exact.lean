import Gardal.Cell.Simulate
import Gardal.F64.Rules
import Gardal.Ieee.Exact
import Gardal.SharedRate
/-!
# Where the `f64` code is the exact code

`Gardal.RawBucket` computes with exact numbers, `Gardal.F64.Code` with the doubles of the source. Where the
rates are powers of two, the bursts integers, and all times multiples of some `2 ^ e` not too far from the
clock's origin, nothing rounds, and the two make the same accesses with the same values.
-/
namespace Gardal.F64
open Cell Ieee

/-- A time of a clock that ticks every `2 ^ e` seconds. -/
structure Ticks (e : ℤ) (q : ℚ) : Prop where
  grid : Grid e q
  abs_lt : |q| < 2 ^ 51 * 2 ^ e

/-- Tokens that are refilled in a number of ticks. -/
structure Worth (e : ℤ) (limit : Limit) (c : ℚ) : Prop where
  grid : Grid e (c / toRat limit.rate)
  abs_lt : |c / toRat limit.rate| < 2 ^ 52 * 2 ^ e

/-- A limit that counts tokens and ticks without rounding. -/
structure Limit.Dyadic (e : ℤ) (limit : Limit) : Prop where
  fine : -900 ≤ e
  rate : ∃ a : ℤ, a ≤ -e ∧ toRat limit.rate = 2 ^ a
  burst : ∃ n : ℕ, toRat limit.burst = n
  burst_lt : toRat limit.burst / toRat limit.rate < 2 ^ 52 * 2 ^ e

section
variable {e : ℤ} {limit : Limit} (hd : limit.Dyadic e) {now v x avail : Float} {n w k a c : ℚ}
include hd

omit hd in
/-- Less than is there is worth less. -/
theorem Worth.of_le (ha : Worth e limit a) (hg : Grid e (c / toRat limit.rate)) (h0 : 0 ≤ c) (h : c ≤ a) :
    Worth e limit c := by
  have hr := limit.rate_pos
  refine ⟨hg, lt_of_le_of_lt ?_ ha.abs_lt⟩
  rw [abs_of_nonneg (div_nonneg h0 hr.le), abs_of_nonneg (div_nonneg (h0.trans h) hr.le)]
  exact div_le_div_of_nonneg_right h hr.le

omit hd in
theorem Worth.sub (ha : Worth e limit a) (hg : Grid e (c / toRat limit.rate)) (h0 : 0 ≤ c) (h : c ≤ a) :
    Worth e limit (a - c) :=
  ha.of_le (by rw [sub_div]; exact ha.grid.sub hg) (sub_nonneg.2 h) (sub_le_self a h0)

end

/-! ## The loops -/

/-- Results of `consume2` that say the same. -/
inductive TokenAcquisition.Same (e : ℤ) : TokenAcquisition → Gardal.TokenAcquisition → Prop
  | acquired {y c} (h : Is y c) : Same e (.acquired y) (.acquired c)
  | zeroedAt {v w} (h : Is v w) (hw : Ticks e w) : Same e (.zeroedAt v) (.zeroedAt w)

section
variable {e : ℤ} {limit : Limit} {now v x : Float} {n w k : ℚ}

variable (hd : limit.Dyadic e) (hnow : Holds now n) (hn : Ticks e n)
include hd hnow hn

end

/-! ## The calls -/

def Tokens.Same (t : Tokens) (t' : Gardal.Tokens) : Prop := Is t.value t'.value

def Nanos.Same (t : Nanos) (t' : Gardal.Nanos) : Prop := Is t.secs t'.secs

/-- The nearest nanosecond. -/
def Duration.Same (d : Duration) (d' : Gardal.Duration) : Prop := (d.nanos : ℤ) = nearest (d'.secs * 10 ^ 9)

/-- Responses that say the same. -/
inductive Response.Same : Response → Gardal.Response → Prop
  | consume {r r'} (h : Option.Rel Tokens.Same r r') : Same (.consume r) (.consume r')
  | acquired {t t'} (h : Tokens.Same t t') : Same (.tryConsume (.ok t)) (.tryConsume (.ok t'))
  | limited {t t'} (h : Nanos.Same t t') : Same (.tryConsume (.error ⟨t⟩)) (.tryConsume (.error ⟨t'⟩))
  | saturatingConsume {r r'} (h : Option.Rel Tokens.Same r r') :
      Same (.saturatingConsume r) (.saturatingConsume r')
  | exceeded (err) : Same (.consumeWithBorrow (.error err)) (.consumeWithBorrow (.error err))
  | borrowed {r r'} (h : Option.Rel Nanos.Same r r') :
      Same (.consumeWithBorrow (.ok r)) (.consumeWithBorrow (.ok r'))
  | saturatingBorrowed {t t' d d'} (h : Option.Rel Tokens.Same t t') (hd : Duration.Same d d') :
      Same (.saturatingConsumeWithBorrow (some (t, d))) (.saturatingConsumeWithBorrow (t', d'))
  | addTokens : Same .addTokens .addTokens

/-- Calls that ask for the same, of which some have to be worth a number of ticks. -/
inductive Call.Same (e : ℤ) (limit : Limit) : Call → Gardal.Call → Prop
  | consume (k) : Same e limit (.consume k) (.consume k)
  | tryConsume (k) (h : Worth e limit k.toRat) : Same e limit (.tryConsume k) (.tryConsume k)
  | saturatingConsume (k) : Same e limit (.saturatingConsume k) (.saturatingConsume k)
  | consumeWithBorrow (k) : Same e limit (.consumeWithBorrow k) (.consumeWithBorrow k)
  | saturatingConsumeWithBorrow (k) :
      Same e limit (.saturatingConsumeWithBorrow k) (.saturatingConsumeWithBorrow k)
  | addTokens {x t} (hx : Is x t.val) (h : Worth e limit t.val) : Same e limit (.addTokens x) (.addTokens t)

/-- The same call at the same reading of a clock that ticks every `2 ^ e` seconds. -/
structure HandleCall.Same (e : ℤ) (c : HandleCall) (c' : Gardal.HandleCall) : Prop where
  dyadic : c.limit.Dyadic e
  limit : c'.limit = c.limit.exact
  call : c.call.Same e c.limit c'.req.call
  now : Holds c.now c'.req.now
  ticks : Ticks e c'.req.now

section
variable {e : ℤ} {x : Float} {q : ℚ}

end

namespace HandleCall

end HandleCall

end Gardal.F64
