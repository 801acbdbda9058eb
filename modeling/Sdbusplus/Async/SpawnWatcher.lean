import Sdbusplus.Base.Machine

namespace Sdbusplus.Async.SpawnWatcher

/-- Where the thread that calls run() stands. `leaving` is the rest of run()
after caller_run. -/
inductive Caller
  | outside
  | callerRun
  | looping
  | leaving
  deriving DecidableEq, Repr

/-- The threads inside spawn(), spawn_watcher() and spawn_complete() differ only
in how far they are, so each point of these functions has the number of calls
that have reached it and not the next one. -/
structure State where
  initialStop : Bool
  finalStop : Bool
  spawnWatcherRunning : Bool
  /-- Tasks in the pending_tasks scope. -/
  pendingTasks : Nat
  /-- spawn() past check_stop_requested, not yet at pending_tasks.spawn. -/
  checked : Nat
  /-- spawn_watcher() called, the flag not yet looked at. -/
  watching : Nat
  /-- spawn_watcher() has set the flag, on_empty is not registered yet. -/
  flagged : Nat
  /-- on_empty registered, emptiness not observed yet. -/
  armed : Nat
  /-- on_empty has completed, spawn_complete has not cleared the flag yet. -/
  fired : Nat
  /-- spawn_complete has cleared the flag, stop_requested() comes next. -/
  cleared : Nat
  /-- spawn_complete has seen the stop, final_stop.request_stop() comes next. -/
  requesting : Nat
  /-- spawn_complete is about to notify caller_wait. -/
  notifying : Nat
  /-- spawn_complete is about to break the event loop. -/
  breaking : Nat
  caller : Caller
  /-- worker_thread.joinable(). -/
  workerThread : Bool
  deriving DecidableEq, Repr

def initial : State where
  initialStop := false
  finalStop := false
  spawnWatcherRunning := false
  pendingTasks := 0
  checked := 0
  watching := 0
  flagged := 0
  armed := 0
  fired := 0
  cleared := 0
  requesting := 0
  notifying := 0
  breaking := 0
  caller := .outside
  workerThread := false

inductive Event
  | checkStopRequested
  | insert
  | taskDone
  | watch
  | register
  | onEmpty
  | clear
  | testStop
  | requestFinal
  | notify
  | breakRun
  | requestStop
  | run
  | callerRun
  | leave
  | joined
  | throws
  deriving DecidableEq, Repr

/-- Watchers registered, and callbacks of on_empty that have not returned. -/
def State.outstanding (s : State) : Nat :=
  s.armed + s.fired + s.cleared + s.requesting + s.notifying + s.breaking

/-- caller_run up to its loop. A call of spawn_watcher() made here is counted
with the others and may overlap with the loop. -/
def callerRun (s : State) : State :=
  if s.finalStop then { s with watching := s.watching + 1, caller := .leaving }
  else if s.workerThread then { s with watching := s.watching + 1, caller := .looping }
  else { s with workerThread := true, caller := .looping }

/-- One block of one thread. A guard that fails means that no thread stands there. -/
def step (s : State) : Event → Option State
  | .checkStopRequested =>
    -- With the stop requested spawn() throws and nothing changes.
    if s.initialStop then none else some { s with checked := s.checked + 1 }
  | .insert =>
    if 0 < s.checked then
      some { s with
        checked := s.checked - 1, pendingTasks := s.pendingTasks + 1, watching := s.watching + 1 }
    else none
  | .taskDone =>
    if 0 < s.pendingTasks then some { s with pendingTasks := s.pendingTasks - 1 } else none
  | .watch =>
    if 0 < s.watching then
      if s.spawnWatcherRunning then some { s with watching := s.watching - 1 }
      else some { s with
        watching := s.watching - 1, spawnWatcherRunning := true, flagged := s.flagged + 1 }
    else none
  | .register =>
    if 0 < s.flagged then some { s with flagged := s.flagged - 1, armed := s.armed + 1 }
    else none
  | .onEmpty =>
    if 0 < s.armed ∧ s.pendingTasks = 0 then
      some { s with armed := s.armed - 1, fired := s.fired + 1 }
    else none
  | .clear =>
    if 0 < s.fired then
      some { s with fired := s.fired - 1, cleared := s.cleared + 1, spawnWatcherRunning := false }
    else none
  | .testStop =>
    if 0 < s.cleared then
      if s.initialStop then
        some { s with cleared := s.cleared - 1, requesting := s.requesting + 1 }
      else some { s with cleared := s.cleared - 1, notifying := s.notifying + 1 }
    else none
  | .requestFinal =>
    if 0 < s.requesting then
      some { s with
        requesting := s.requesting - 1, finalStop := true, notifying := s.notifying + 1 }
    else none
  | .notify =>
    if 0 < s.notifying then
      some { s with notifying := s.notifying - 1, breaking := s.breaking + 1 }
    else none
  | .breakRun => if 0 < s.breaking then some { s with breaking := s.breaking - 1 } else none
  | .requestStop => some { s with initialStop := true }
  | .run => if s.caller = .outside then some { s with caller := .callerRun } else none
  | .callerRun => if s.caller = .callerRun then some (callerRun s) else none
  | .leave =>
    if s.caller = .looping ∧ s.finalStop then some { s with caller := .leaving } else none
  | .joined =>
    -- run() waits for internal_tasks, which the watchers belong to.
    if s.caller = .leaving ∧ s.outstanding = 0 ∧ s.flagged = 0 then
      some { s with caller := .outside, workerThread := false }
    else none
  | .throws => if s.caller = .looping then some { s with caller := .outside } else none

def machine : Machine State Event := ⟨initial, step⟩

end Sdbusplus.Async.SpawnWatcher
