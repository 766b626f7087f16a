import Gardal.Cell.Fuse
import Gardal.ZeroTime
import Gardal.Sequential
import Gardal.Rules
import Gardal.RateSafety
import Gardal.Conformance
import Gardal.Reference
import Gardal.Linearizability
import Gardal.Conservation
import Gardal.OwnDebt
import Gardal.Reset
import Gardal.Stream
import Gardal.StreamItems
import Gardal.StreamRate
import Gardal.Refund
import Gardal.RetryTime
import Gardal.LimitChange
import Gardal.Backlog
import Gardal.BorrowWait
import Gardal.Clock
import Gardal.Cell.Retries
import Gardal.StreamWake
import Gardal.BorrowLoop
import Gardal.SharedRate
import Gardal.StreamThreads
import Gardal.AllReturn
import Gardal.Ieee.Round
import Gardal.Ieee.Unpacked
import Gardal.Ieee.Binary64
import Gardal.F64.Code
import Gardal.F64.Arith
import Gardal.F64.Rules
import Gardal.F64.Monotone
import Gardal.F64.Rate
import Gardal.F64.FreeTokens
import Gardal.Cell.Simulate
import Gardal.Ieee.Exact
import Gardal.F64.Exact
import Gardal.F64.AllReturn
