import Sdbusplus.Base.Machine

namespace Sdbusplus.Async

/-- async::mutex. Both functions below run under mutex::lock, and the queue holds
what completions are known by. -/
structure Mutex (α : Type) where
  locked : Bool
  waitingTasks : List α
  deriving DecidableEq, Repr

variable {α : Type}

def Mutex.unlocked : Mutex α := ⟨false, []⟩

/-- mutex_completion::start. With `true` its complete() comes next. -/
def Mutex.start (m : Mutex α) (completion : α) : Bool × Mutex α :=
  if m.locked then (false, { m with waitingTasks := m.waitingTasks ++ [completion] })
  else (true, { m with locked := true })

/-- What mutex::unlock does once its block is over. -/
inductive Unlock (α : Type)
  | terminates
  | returns (m : Mutex α)
  | completes (completion : α) (m : Mutex α)

def Mutex.unlock (m : Mutex α) : Unlock α :=
  match m.waitingTasks with
  | [] => if m.locked then .returns { m with locked := false } else .terminates
  | completion :: rest => .completes completion { m with waitingTasks := rest }

namespace MutexTasks

/-- A started lock sender: its task and its number among all start() calls. -/
structure Op where
  task : Nat
  ticket : Nat
  deriving DecidableEq, Repr

/-- A task takes and releases the mutex with a lock_guard of its own. -/
inductive Task
  | idle
  /-- lock_guard::lock has returned the sender. -/
  | called
  /-- start() has taken the mutex; its complete() comes next. -/
  | starting (ticket : Nat)
  | waiting (ticket : Nat)
  /-- Resumed by its completion. -/
  | critical (ticket : Nat)
  /-- mutex::unlock has popped a completion, whose complete() comes next. -/
  | handing (op : Op)
  /-- Past mutex::unlock; `owned = false` comes next. -/
  | returning
  deriving DecidableEq, Repr

/-- The task has the mutex, or it carries a completion. -/
def Task.holds : Task → Bool
  | .starting _ | .critical _ | .handing _ => true
  | .idle | .called | .waiting _ | .returning => false

structure State where
  mutex : Mutex Op
  terminated : Bool
  task : Nat → Task
  /-- The flag of the task's lock_guard. -/
  owned : Nat → Bool
  /-- The senders in the order of their start() calls. -/
  started : List Op
  /-- The senders in the order of their complete() calls. -/
  completed : List Op

def initial : State where
  mutex := .unlocked
  terminated := false
  task := fun _ => .idle
  owned := fun _ => false
  started := []
  completed := []

def State.goto (s : State) (t : Nat) (p : Task) : State :=
  { s with task := fun u => if u = t then p else s.task u }

def State.setOwned (s : State) (t : Nat) (b : Bool) : State :=
  { s with owned := fun u => if u = t then b else s.owned u }

/-- set_value resumes the task that awaits the sender. -/
def State.complete (s : State) (op : Op) : State :=
  { s with completed := s.completed ++ [op] }.goto op.task (.critical op.ticket)

inductive Event
  /-- lock_guard::lock. -/
  | lock (t : Nat)
  | start (t : Nat)
  | complete (t : Nat)
  /-- lock_guard::unlock or the destructor, up to the end of mutex::unlock's block. -/
  | unlock (t : Nat)
  | disown (t : Nat)
  deriving DecidableEq, Repr

def start (t : Nat) (s : State) : State :=
  let op : Op := ⟨t, s.started.length⟩
  let (taken, m) := s.mutex.start op
  { s with mutex := m, started := s.started ++ [op] }.goto t
    (if taken then .starting op.ticket else .waiting op.ticket)

def unlock (t : Nat) (s : State) : State :=
  if s.owned t then
    match s.mutex.unlock with
    | .terminates => { s with terminated := true }
    | .returns m => { s with mutex := m }.goto t .returning
    | .completes op m => { s with mutex := m }.goto t (.handing op)
  else s.goto t .idle

def step (s : State) : Event → Option State
  | .lock t => if s.task t = .idle then some ((s.setOwned t true).goto t .called) else none
  | .start t => if s.task t = .called then some (start t s) else none
  | .complete t =>
    match s.task t with
    | .starting n => some (s.complete ⟨t, n⟩)
    | .handing op => some ((s.complete op).goto t .returning)
    | .idle | .called | .waiting _ | .critical _ | .returning => none
  | .unlock t =>
    match s.task t with
    | .critical _ => some (unlock t s)
    | .idle | .called | .starting _ | .waiting _ | .handing _ | .returning => none
  | .disown t =>
    if s.task t = .returning then some ((s.setOwned t false).goto t .idle) else none

def machine : Machine State Event := ⟨initial, step⟩

end MutexTasks

end Sdbusplus.Async
