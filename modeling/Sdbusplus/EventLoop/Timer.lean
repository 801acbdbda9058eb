import Mathlib.Algebra.Group.Int.Defs
import Mathlib.Algebra.Group.Nat.Defs
import Sdbusplus.Base.Machine

namespace Sdbusplus.EventLoop

/-- SD_EVENT_OFF, SD_EVENT_ON and SD_EVENT_ONESHOT. -/
inductive Enabled
  | off
  | on
  | oneshot
  deriving DecidableEq, Repr

/-- The time event source. Its calls succeed. -/
structure Source where
  enabled : Enabled
  /-- In microseconds, unsigned with 64 bits. -/
  time : Nat
  deriving DecidableEq, Repr

structure Timer where
  eventSource : Source
  expired : Bool
  duration : Int
  /-- Not set before the first start(). -/
  runType : Option Enabled
  deriving DecidableEq, Repr

namespace Timer

/-- The constructor: an infinite expiration time, and disabled. -/
def initial : Timer where
  eventSource := ⟨.off, 2 ^ 64 - 1⟩
  expired := false
  duration := 0
  runType := none

def isExpired (t : Timer) : Bool := t.expired

def isRunning (t : Timer) : Bool := t.eventSource.enabled ≠ .off

def setEnabled (t : Timer) (action : Enabled) : Timer :=
  { t with eventSource := { t.eventSource with enabled := action } }

/-- sd_event_source_set_time takes an unsigned time. -/
def setTime (t : Timer) (expireTime : Int) : Timer :=
  { t with eventSource := { t.eventSource with time := (expireTime % 2 ^ 64).toNat } }

def stop (t : Timer) : Timer := t.setEnabled .off

/-- `now` is what getTime() returns. -/
def start (t : Timer) (now usec : Int) (periodic : Bool) : Timer :=
  let runType := if periodic then .on else .oneshot
  let t := { t.stop with expired := false, duration := usec, runType := some runType }
  (t.setTime (now + usec)).setEnabled runType

/-- What a user of the timer does with it. -/
inductive Command
  | start (now usec : Int) (periodic : Bool)
  | stop
  deriving DecidableEq, Repr

def perform (t : Timer) : Command → Timer
  | .start now usec periodic => t.start now usec periodic
  | .stop => t.stop

/-- Timer::timeoutHandler. The user callback does these commands, none if there is
no callback. -/
def timeoutHandler (t : Timer) (now : Int) (callback : List Command) : Timer :=
  let t := if t.runType = some .on then t.setTime (now + t.duration) else t
  let t := callback.foldl perform { t with expired := true }
  if t.eventSource.enabled = .oneshot then t.stop else t

/-- sd-event turns a oneshot source off before it calls the handler. -/
def dispatch (t : Timer) (now : Int) (callback : List Command) : Timer :=
  (if t.eventSource.enabled = .oneshot then t.setEnabled .off else t).timeoutHandler now callback

inductive Event
  | command (c : Command)
  /-- The source is due at `clock`; the handler reads the time as `now`. -/
  | expiration (clock : Nat) (now : Int) (callback : List Command)
  deriving DecidableEq, Repr

def step (t : Timer) : Event → Option Timer
  | .command c => some (t.perform c)
  | .expiration clock now callback =>
    if t.eventSource.enabled ≠ .off ∧ t.eventSource.time ≤ clock then
      some (t.dispatch now callback)
    else none

def machine : Machine Timer Event := ⟨initial, step⟩

end Timer

end Sdbusplus.EventLoop
