import Sdbusplus.Base.Machine

namespace Sdbusplus.EventLoop.Locking

/-- Where a call that takes its lock by obtain_lock stands. -/
inductive Point
  | outside
  /-- Blocked on obtain_lock_stage. -/
  | stageWait
  /-- Holds the stage; trying the lock comes next. -/
  | staged
  /-- try_lock has failed; run_condition is to be signalled. -/
  | signalling
  /-- In lock.lock(), with the stage. -/
  | lockWait
  /-- Has the lock; obtain_lock is about to give the stage back. -/
  | unstaging
  /-- obtain_lock has returned. In run_one this is sd_event_run with its callbacks. -/
  | inside
  deriving DecidableEq, Repr

def Point.holdsStage : Point → Bool
  | .staged | .signalling | .lockWait | .unstaging => true
  | .outside | .stageWait | .inside => false

def Point.holdsLock : Point → Bool
  | .unstaging | .inside => true
  | .outside | .stageWait | .staged | .signalling | .lockWait => false

/-- The calls that take locks. The last two are those of a source that is not null. -/
inductive Call
  | runOne
  | addIo
  | addOneshotTimer
  | assignSource
  | destroySource
  deriving DecidableEq, Repr

structure State where
  /-- Holder of obtain_lock_stage. -/
  stage : Option Nat
  /-- Owner of the recursive lock, and how often it has taken it. -/
  owner : Option Nat
  depth : Nat
  /-- The eventfd of run_condition. -/
  wakeUps : Nat
  /-- The run_one call of a thread. -/
  runOne : Nat → Point
  /-- Any other call of a thread. In the run_one thread a callback makes it. -/
  operation : Nat → Point

def initial : State where
  stage := none
  owner := none
  depth := 0
  wakeUps := 0
  runOne := fun _ => .outside
  operation := fun _ => .outside

/-- The innermost call of a thread is the one that moves. -/
def State.point (s : State) (t : Nat) : Point :=
  if s.operation t = .outside then s.runOne t else s.operation t

def State.goto (s : State) (t : Nat) (p : Point) : State :=
  if s.operation t = .outside then
    { s with runOne := fun u => if u = t then p else s.runOne u }
  else { s with operation := fun u => if u = t then p else s.operation u }

/-- A thread that runs its own code, or the code of a callback of run_one. -/
def State.free (s : State) (t : Nat) : Prop :=
  s.operation t = .outside ∧ (s.runOne t = .outside ∨ s.runOne t = .inside)

instance (s : State) (t : Nat) : Decidable (s.free t) := inferInstanceAs (Decidable (_ ∧ _))

def State.lockAvailable (s : State) (t : Nat) : Prop := s.owner = none ∨ s.owner = some t

instance (s : State) (t : Nat) : Decidable (s.lockAvailable t) :=
  inferInstanceAs (Decidable (_ ∨ _))

/-- `stage{obtain_lock_stage}`, which blocks when another thread holds it. -/
def State.entry (s : State) : Point := if s.stage = none then .staged else .stageWait

def State.takeStage (s : State) (t : Nat) : State :=
  { s with stage := if s.stage = none then some t else s.stage }

def State.takeLock (s : State) (t : Nat) : State :=
  { s with owner := some t, depth := s.depth + 1 }

def State.giveLock (s : State) : State :=
  { s with owner := if s.depth = 1 then none else s.owner, depth := s.depth - 1 }

/-- run_one belongs to one thread, and is not called from its own callbacks. -/
def call (runner t : Nat) (c : Call) (s : State) : Option State :=
  if c = .runOne then
    if t = runner ∧ s.operation t = .outside ∧ s.runOne t = .outside then
      some { s.takeStage t with runOne := fun u => if u = t then s.entry else s.runOne u }
    else none
  else if s.free t then
    some { s.takeStage t with operation := fun u => if u = t then s.entry else s.operation u }
  else none

/-- The next block of obtain_lock, or the end of the body and of its lock. -/
def advance (t : Nat) (s : State) : Option State :=
  match s.point t with
  | .outside => none
  | .stageWait => if s.stage = none then some ((s.takeStage t).goto t .staged) else none
  | .staged =>
    if s.lockAvailable t then some ((s.takeLock t).goto t .unstaging)
    -- run_one is the instance without Signal: it locks without trying first.
    else if s.operation t = .outside then some (s.goto t .lockWait)
    else some (s.goto t .signalling)
  | .signalling => some ({ s with wakeUps := s.wakeUps + 1 }.goto t .lockWait)
  | .lockWait => if s.lockAvailable t then some ((s.takeLock t).goto t .unstaging) else none
  | .unstaging => some ({ s with stage := none }.goto t .inside)
  | .inside => some (s.giveLock.goto t .outside)

inductive Event
  | call (t : Nat) (c : Call)
  | advance (t : Nat)
  | breakRun
  /-- The run_wakeup callback, dispatched while the eventfd is readable. -/
  | runWakeup
  deriving DecidableEq, Repr

def step (runner : Nat) (s : State) : Event → Option State
  | .call t c => call runner t c s
  | .advance t => advance t s
  | .breakRun => some { s with wakeUps := s.wakeUps + 1 }
  | .runWakeup =>
    if s.runOne runner = .inside ∧ s.operation runner = .outside ∧ 0 < s.wakeUps then
      some { s with wakeUps := 0 }
    else none

def machine (runner : Nat) : Machine State Event := ⟨initial, step runner⟩

/-- Thread `t` is blocked on a mutex that `u` holds. -/
def WaitsFor (s : State) (t u : Nat) : Prop :=
  (s.point t = .stageWait ∧ s.stage = some u) ∨
  (s.point t = .lockWait ∧ s.owner = some u ∧ u ≠ t)

end Sdbusplus.EventLoop.Locking
