import Sdbusplus.Base.Machine

namespace Sdbusplus.Async.WaitProcess

/-! An operation is one wait_process_completion. Every co_await of the loop makes
a fresh one, so operations are numbered in the order of their start(). -/

inductive Signal
  | complete
  | stop
  deriving DecidableEq, Repr

/-- Where the thread that calls run() stands. `deciding` is the only point at
which it keeps context::lock between two steps: the predicate of
caller_wait.wait was false and the thread is not blocked yet. -/
inductive Caller
  | outside
  | callerRun
  | keepRunning
  | waitOnce
  | deciding
  | blocked
  | afterWait
  | runOne
  | delivering (op : Nat)
  | takePending
  | takeStaged
  | stopping (op : Nat)
  | markStopped
  | returned
  deriving DecidableEq, Repr

/-- Where wait_process_completion::loop stands on the worker thread. -/
inductive Worker
  | unborn
  | loopHead
  | starting (op : Nat)
  | completing (op : Nat)
  | staging (op : Nat)
  | suspended (op : Nat)
  | resumed (op : Nat)
  | loopEnd
  | exited
  deriving DecidableEq, Repr

/-- Where a thread stands inside context::spawn_complete. -/
inductive SpawnComplete
  | idle
  | clearing
  | testing
  | requesting
  | notifying
  | breaking
  deriving DecidableEq, Repr

/-- How event_loop.run_one comes back: it dispatched the bus source, it came
back without it (timeout, break_run or another source), or it threw. -/
inductive RunOne
  | busEvent
  | noBusEvent
  | throws
  deriving DecidableEq, Repr

structure State where
  finalStop : Bool
  staged : Option Nat
  pending : Option Nat
  waitProcessStopped : Bool
  caller : Caller
  worker : Worker
  spawnComplete : Nat → SpawnComplete
  /-- Number of operations on which start() was called. -/
  started : Nat
  /-- Every signal sent to an operation, the latest first. -/
  signals : List (Nat × Signal)

def initial : State where
  finalStop := false
  staged := none
  pending := none
  waitProcessStopped := false
  caller := .outside
  worker := .unborn
  spawnComplete := fun _ => .idle
  started := 0
  signals := []

/-- The predicate that wait_once gives to caller_wait.wait. -/
def State.wakeUp (s : State) : Bool :=
  s.pending.isSome || s.staged.isSome || s.finalStop

/-- Blocks under context::lock are one step each, so the lock is held between
two steps only by a caller about to block. -/
def State.lockFree (s : State) : Bool := s.caller ≠ .deciding

def State.notifyOne (s : State) : State :=
  { s with caller := if s.caller = .blocked then .waitOnce else s.caller }

/-- set_value on the receiver queues the suspended loop on the run_loop. -/
def State.signal (s : State) (op : Nat) (sig : Signal) : State :=
  { s with
    signals := (op, sig) :: s.signals
    worker := if s.worker = .suspended op then .resumed op else s.worker }

def Worker.launch : Worker → Worker
  | .unborn => .loopHead
  | w => w

/-- caller_run, wait_once and wait_for_wait_process_stopped, one step a block. -/
def callerStep (s : State) : Option State :=
  match s.caller with
  | .outside | .blocked | .runOne | .returned => none
  | .callerRun =>
    if s.finalStop then some { s with caller := .takePending }
    else some { s with caller := .keepRunning, worker := s.worker.launch }
  | .keepRunning =>
    some { s with caller := if s.finalStop then .takePending else .waitOnce }
  | .waitOnce =>
    if s.wakeUp then
      -- Still under the lock: a pending operation is kept, else staged is taken.
      match s.pending with
      | some _ => some { s with caller := .afterWait }
      | none => some { s with caller := .afterWait, pending := s.staged, staged := none }
    else some { s with caller := .deciding }
  | .deciding => some { s with caller := .blocked }
  | .afterWait =>
    some { s with caller := if !s.finalStop && s.pending.isSome then .runOne else .keepRunning }
  | .delivering op => some { s.signal op .complete with caller := .keepRunning }
  | .takePending =>
    match s.pending with
    | some op => some { s with pending := none, caller := .stopping op }
    | none => some { s with caller := .takeStaged }
  | .takeStaged =>
    if s.waitProcessStopped then some { s with caller := .returned }
    else
      match s.staged with
      | some op => some { s with staged := none, caller := .stopping op }
      | none => some s
  | .stopping op => some { s.signal op .stop with caller := .markStopped }
  | .markStopped => some { s with waitProcessStopped := true, caller := .returned }

def runOneStep (r : RunOne) (s : State) : Option State :=
  if s.caller = .runOne then
    match r with
    | .throws => some { s with caller := .outside }
    | .noBusEvent => some { s with caller := .keepRunning }
    | .busEvent =>
      -- dbus_event_handle: the exchange is one step, complete() the next.
      match s.pending with
      | some op => some { s with pending := none, caller := .delivering op }
      | none => some { s with caller := .keepRunning }
  else none

/-- wait_process_completion::loop and start. `handled` is what process_discard
returns. -/
def workerStep (handled : Bool) (s : State) : Option State :=
  match s.worker with
  | .unborn | .suspended _ | .exited => none
  | .loopHead =>
    if s.finalStop then some { s with worker := .loopEnd }
    else some { s with worker := .starting s.started, started := s.started + 1 }
  | .starting op => some { s with worker := if handled then .completing op else .staging op }
  | .completing op =>
    some { s with signals := (op, .complete) :: s.signals, worker := .resumed op }
  | .staging op =>
    if s.lockFree then
      some { s with staged := some op, worker := .suspended op }.notifyOne
    else none
  | .resumed _ => some { s with worker := .loopHead }
  | .loopEnd =>
    if s.lockFree then some { s with waitProcessStopped := true, worker := .exited } else none

/-- spawn_complete on thread `t`. `stop` is what stop_requested() returns. -/
def spawnCompleteStep (t : Nat) (stop : Bool) (s : State) : Option State :=
  let goto (p : SpawnComplete) (s : State) : State :=
    { s with spawnComplete := fun u => if u = t then p else s.spawnComplete u }
  match s.spawnComplete t with
  | .idle => some (goto .clearing s)
  | .clearing => if s.lockFree then some (goto .testing s) else none
  | .testing => some (goto (if stop then .requesting else .notifying) s)
  | .requesting => some (goto .notifying { s with finalStop := true })
  | .notifying => some (goto .breaking s.notifyOne)
  | .breaking => some (goto .idle s)

inductive Event
  | run
  | caller
  | runOne (r : RunOne)
  | spurious
  | worker (handled : Bool)
  | spawnComplete (t : Nat) (stop : Bool)
  deriving DecidableEq, Repr

/-- run() may be called again after it returned or threw. A condition variable
may also wake without a notification. -/
def step (s : State) : Event → Option State
  | .run => if s.caller = .outside ∨ s.caller = .returned then
      some { s with caller := .callerRun } else none
  | .caller => callerStep s
  | .runOne r => runOneStep r s
  | .spurious => if s.caller = .blocked then some { s with caller := .waitOnce } else none
  | .worker handled => workerStep handled s
  | .spawnComplete t stop => spawnCompleteStep t stop s

def machine : Machine State Event := ⟨initial, step⟩

end Sdbusplus.Async.WaitProcess
