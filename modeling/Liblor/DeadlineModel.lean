import Liblor.ChannelModel

/-!
# The deadlines of `concurrency.c`

Deadlines are milliseconds of a monotonic clock, but a wait ends by the realtime clock. What the
system answers is given by the number of the call: a clock is read at that moment, and a wait
returns at it. Values of the types `int64_t` and `time_t` are integers: no sum below comes near
their limits, except at a clock that has run for longer than `lor_time_now_ms` can tell.
-/

namespace Liblor.Deadline

open Channel

structure Timespec where
  sec : ℤ
  nsec : ℤ
  deriving DecidableEq, Repr

/-- How a wait ends: with the result zero, with `ETIMEDOUT` or with another error. -/
inductive Wait where
  | woken
  | timedOut
  | error
  deriving DecidableEq, Repr

structure Os where
  mutexInit : Bool
  condInit : Bool
  monotonic : ℕ → Option Timespec
  realtime : ℕ → Timespec
  condWait : ℕ → Wait
  condTimedwait : ℕ → Timespec → Wait

/-- `lor_time_now_ms` on what `clock_gettime` has answered. -/
def timeNowMs : Option Timespec → ℤ
  | none => 0
  | some value =>
    if value.sec > Int.tdiv deadlineInfinite 1000 then deadlineInfinite
    else value.sec * 1000 + Int.tdiv value.nsec 1000000

def deadlineAfterMs (now milliseconds : ℤ) : ℤ :=
  if milliseconds ≤ 0 then now
  else if now ≥ deadlineInfinite - milliseconds then deadlineInfinite
  else now + milliseconds

def realtimeAfterMs (value : Timespec) (milliseconds : ℤ) : Timespec :=
  let sec := value.sec + Int.tdiv milliseconds 1000
  let nsec := value.nsec + Int.tmod milliseconds 1000 * 1000000
  if nsec ≥ 1000000000 then ⟨sec + 1, nsec - 1000000000⟩ else ⟨sec, nsec⟩

section Waits

variable (os : Os)

/-- The time that a wait is given which begins with reading the clock at the moment `k`. -/
def wake (deadline : ℤ) (k : ℕ) : Timespec :=
  realtimeAfterMs (os.realtime (k + 1)) (deadline - timeNowMs (os.monotonic k))

inductive Exit where
  | passed
  | failed
  deriving DecidableEq, Repr

/-- The loop of `lor_sleep_until` from the moment `k` on: why it ends and when. `none` means that it
has not ended after so many rounds. -/
def sleepLoop (deadline : ℤ) : ℕ → ℕ → Option (Exit × ℕ)
  | 0, _ => none
  | fuel + 1, k =>
    if deadline = deadlineInfinite then
      if os.condWait k ≠ .woken then some (.failed, k) else sleepLoop deadline fuel (k + 1)
    else if timeNowMs (os.monotonic k) ≥ deadline then some (.passed, k)
    else if os.condTimedwait (k + 2) (wake os deadline k) = .error then some (.failed, k + 2)
    else sleepLoop deadline fuel (k + 3)

def sleepUntil (deadline : ℤ) (fuel k : ℕ) : Option (Exit × ℕ) :=
  if os.mutexInit = false ∨ os.condInit = false then some (.failed, k)
  else sleepLoop os deadline fuel k

def sleepMs (milliseconds : ℤ) (fuel k : ℕ) : Option (Exit × ℕ) :=
  if milliseconds ≤ 0 then some (.passed, k)
  else sleepUntil os (deadlineAfterMs (timeNowMs (os.monotonic k)) milliseconds) fuel (k + 1)

/-- `lor_concurrency__status_from_wait_error`, or the status of a wait that was woken. -/
def waitStatus : Wait → Status
  | .woken => .ok
  | .timedOut => .timedOut
  | .error => .systemError

/-- `lor_cond_wait_until`: the status and the moment at which it returns. -/
def condWaitUntil (deadline : ℤ) (k : ℕ) : Status × ℕ :=
  if deadline = deadlineInfinite then (waitStatus (os.condWait k), k)
  else if timeNowMs (os.monotonic k) ≥ deadline then (.timedOut, k)
  else (waitStatus (os.condTimedwait (k + 2) (wake os deadline k)), k + 2)

end Waits

end Liblor.Deadline
