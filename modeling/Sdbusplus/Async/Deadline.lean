import Mathlib.Data.ENat.Basic
import Sdbusplus.Async.WaitProcess

namespace Sdbusplus.Async.Deadline

/-! The handshake of WaitProcess with the deadlines of sd-bus. Times are microseconds
of CLOCK_MONOTONIC. -/

/-- UINT64_MAX, for sd_bus_get_timeout and sd_event_run alike. -/
def uint64Max : UInt64 := -1

/-- How sd_event_run comes back: it dispatched the bus source, it dispatched another one
(that of break_run is one), its time was up, or it failed. -/
inductive RunEnd
  | busEvent
  | otherSource
  | timeout
  | throws
  deriving DecidableEq, Repr

/-- What wait_once sees of it. -/
def RunEnd.runOne : RunEnd → WaitProcess.RunOne
  | .busEvent => .busEvent
  | .otherSource | .timeout => .noBusEvent
  | .throws => .throws

structure State where
  context : WaitProcess.State
  /-- What sd_bus_get_timeout reported to the start() of each operation. -/
  deadline : Nat → UInt64
  /-- wait_process_completion::timeout of each operation. -/
  timeout : Nat → Int64

def initial : State := ⟨WaitProcess.initial, fun _ => uint64Max, fun _ => 0⟩

/-- The conversion to std::chrono::microseconds in start(). -/
def chronoTimeout (toUsec : UInt64) : Int64 :=
  if toUsec = uint64Max then -1 else toUsec.toInt64

/-- What event::run_one passes to sd_event_run. -/
def sdEventTimeout (timeout : Int64) : UInt64 := timeout.toUInt64

/-- How long sd_event_run waits at most: its argument counts from the call on. -/
def longestWait (timeout : UInt64) : ℕ∞ := if timeout = uint64Max then ⊤ else timeout.toNat

inductive Event
  | context (e : WaitProcess.Event)
  /-- start() after process_discard handled nothing. -/
  | stage (toUsec : UInt64)
  | runOne (r : RunEnd)
  deriving DecidableEq, Repr

def stage (toUsec : UInt64) (s : State) : Option State :=
  match s.context.worker with
  | .starting op =>
    (WaitProcess.step s.context (.worker false)).map (fun c =>
      { context := c
        deadline := fun o => if o = op then toUsec else s.deadline o
        timeout := fun o => if o = op then chronoTimeout toUsec else s.timeout o })
  | _ => none

/-- The wait of wait_once. Without a limit its time is never up. -/
def runOne (r : RunEnd) (s : State) : Option State :=
  match s.context.pending with
  | some op =>
    if r = .timeout ∧ longestWait (sdEventTimeout (s.timeout op)) = ⊤ then none
    else (WaitProcess.step s.context (.runOne r.runOne)).map (fun c => { s with context := c })
  | none => none

def step (s : State) : Event → Option State
  | .stage toUsec => stage toUsec s
  | .runOne r => runOne r s
  | .context e =>
    match e, s.context.worker with
    | .runOne _, _ | .worker false, .starting _ => none
    | e, _ => (WaitProcess.step s.context e).map (fun c => { s with context := c })

def machine : Machine State Event := ⟨initial, step⟩

end Sdbusplus.Async.Deadline
