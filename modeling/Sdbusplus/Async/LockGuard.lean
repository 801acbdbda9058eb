import Sdbusplus.Async.Mutex

namespace Sdbusplus.Async.LockGuard

inductive Life
  | unborn
  | alive
  | destroyed
  deriving DecidableEq, Repr

/-- A lock_guard with the calls that are inside its unlock() or destructor. -/
structure Guard where
  life : Life
  owned : Bool
  /-- The sender that the latest lock() returned. -/
  latest : Option Nat
  /-- Calls that have found `owned` set; the block of mutex::unlock comes next. -/
  unlocking : Nat
  /-- Completions popped by such calls; complete() comes next. -/
  completing : List Nat
  /-- Calls past mutex::unlock; `owned = false` comes next. -/
  disowning : Nat
  /-- Completions of the guard's lock senders. -/
  completions : Nat
  /-- Invocations of mutex::unlock through the guard. -/
  releases : Nat
  deriving DecidableEq, Repr

inductive Status
  | unstarted
  | dropped
  /-- start() has taken the mutex; its complete() comes next. -/
  | starting
  /-- In waitingTasks, or popped from it. -/
  | waiting
  | completed
  deriving DecidableEq, Repr

/-- A sender returned by lock(). It knows the mutex only; the guard is recorded
to say whose acquisition it is. -/
structure Sender where
  guard : Nat
  status : Status
  deriving DecidableEq, Repr

structure State where
  mutex : Mutex Nat
  terminated : Bool
  guard : Nat → Guard
  sender : Nat → Sender
  /-- Number of senders returned so far. -/
  senders : Nat

def unborn : Guard := ⟨.unborn, false, none, 0, [], 0, 0, 0⟩

def initial : State where
  mutex := .unlocked
  terminated := false
  guard := fun _ => unborn
  sender := fun _ => ⟨0, .dropped⟩
  senders := 0

def State.setGuard (s : State) (g : Nat) (f : Guard → Guard) : State :=
  { s with guard := fun h => if h = g then f (s.guard h) else s.guard h }

def State.setStatus (s : State) (x : Nat) (p : Status) : State :=
  { s with sender := fun y => if y = x then { s.sender y with status := p } else s.sender y }

/-- Calls inside unlock() or the destructor of a guard. -/
def Guard.inside (g : Guard) : Nat := g.unlocking + g.completing.length + g.disowning

/-- lock_guard::lock. -/
def lock (g : Nat) (s : State) : State :=
  { s with
    sender := fun y => if y = s.senders then ⟨g, .unstarted⟩ else s.sender y
    senders := s.senders + 1 }.setGuard g
      (fun p => { p with owned := true, latest := some s.senders })

def start (x : Nat) (s : State) : State :=
  let (taken, m) := s.mutex.start x
  { s with mutex := m }.setStatus x (if taken then .starting else .waiting)

def complete (x : Nat) (s : State) : State :=
  (s.setStatus x .completed).setGuard (s.sender x).guard
    (fun p => { p with completions := p.completions + 1 })

/-- The test of `owned` at the head of unlock() and of the destructor. -/
def testOwned (g : Nat) (s : State) : State :=
  if (s.guard g).owned then s.setGuard g (fun p => { p with unlocking := p.unlocking + 1 }) else s

/-- The block of mutex::unlock, invoked through a guard. -/
def unlock (g : Nat) (s : State) : State :=
  let s := s.setGuard g (fun p =>
    { p with unlocking := p.unlocking - 1, releases := p.releases + 1 })
  match s.mutex.unlock with
  | .terminates => { s with terminated := true }
  | .returns m =>
    { s with mutex := m }.setGuard g (fun p => { p with disowning := p.disowning + 1 })
  | .completes x m =>
    { s with mutex := m }.setGuard g (fun p => { p with completing := x :: p.completing })

inductive Event
  | construct (g : Nat)
  | lock (g : Nat)
  | start (x : Nat)
  | drop (x : Nat)
  /-- complete() from the start() that took the mutex. -/
  | complete (x : Nat)
  | unlockGuard (g : Nat)
  | destroy (g : Nat)
  | unlock (g : Nat)
  /-- complete() from mutex::unlock. -/
  | completeNext (g x : Nat)
  | disown (g : Nat)
  deriving DecidableEq, Repr

def step (s : State) : Event → Option State
  | .construct g =>
    if (s.guard g).life = .unborn then
      some (s.setGuard g (fun p => { p with life := .alive, owned := false }))
    else none
  | .lock g => if (s.guard g).life = .alive then some (lock g s) else none
  | .start x => if (s.sender x).status = .unstarted then some (start x s) else none
  | .drop x =>
    if (s.sender x).status = .unstarted then some (s.setStatus x .dropped) else none
  | .complete x => if (s.sender x).status = .starting then some (complete x s) else none
  | .unlockGuard g => if (s.guard g).life = .alive then some (testOwned g s) else none
  | .destroy g =>
    if (s.guard g).life = .alive then
      some (testOwned g (s.setGuard g (fun p => { p with life := .destroyed })))
    else none
  | .unlock g => if 0 < (s.guard g).unlocking then some (unlock g s) else none
  | .completeNext g x =>
    if x ∈ (s.guard g).completing then
      some ((complete x s).setGuard g (fun p =>
        { p with completing := p.completing.erase x, disowning := p.disowning + 1 }))
    else none
  | .disown g =>
    if 0 < (s.guard g).disowning then
      some (s.setGuard g (fun p => { p with disowning := p.disowning - 1, owned := false }))
    else none

def machine : Machine State Event := ⟨initial, step⟩

end Sdbusplus.Async.LockGuard
