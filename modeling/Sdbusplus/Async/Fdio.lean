import Sdbusplus.Base.Machine

namespace Sdbusplus.Async.Fdio

/-- Where fdio_completion::start stands, for the operation it was called on. -/
inductive Start
  | outside
  /-- Registered; reading fdioInstance.timeout comes next. -/
  | registered (op : Nat)
  /-- In add_oneshot_timer. -/
  | arming (op : Nat)
  /-- The timer is armed; storing its source in the operation comes next. -/
  | storing (op : Nat)
  /-- add_oneshot_timer has thrown; error() comes next. -/
  | throwing (op : Nat)
  deriving DecidableEq, Repr

/-- The operation start() works on. -/
def Start.op : Start → Option Nat
  | .outside => none
  | .registered op | .arming op | .storing op | .throwing op => some op

inductive Signal
  | complete
  | error
  deriving DecidableEq, Repr

/-- Where the event-loop thread stands: a handler that has taken the registered
operation signals it next. -/
inductive Loop
  | idle
  | signalling (op : Nat) (sig : Signal)
  deriving DecidableEq, Repr

structure State where
  /-- fdio::complete. -/
  complete : Option Nat
  start : Start
  loop : Loop
  /-- The operation state in existence. -/
  operation : Option Nat
  /-- Its one-shot timer. -/
  timer : Bool
  /-- Arming its timer has thrown. -/
  armFailed : Bool
  /-- Number of operations started. -/
  started : Nat
  /-- Every signal delivered, the latest first. -/
  signals : List (Nat × Signal)
  /-- start() has accessed an operation after a signal to it. -/
  touched : Bool
  terminated : Bool
  deriving DecidableEq, Repr

def initial : State where
  complete := none
  start := .outside
  loop := .idle
  operation := none
  timer := false
  armFailed := false
  started := 0
  signals := []
  touched := false
  terminated := false

/-- Number of signals to an operation. -/
def delivered (signals : List (Nat × Signal)) (op : Nat) : Nat :=
  signals.countP (fun d => d.1 = op)

def State.access (s : State) (op : Nat) : State :=
  { s with touched := s.touched || 0 < delivered s.signals op }

def State.signal (s : State) (op : Nat) (sig : Signal) : State :=
  { s with signals := (op, sig) :: s.signals }

inductive Event
  /-- start() on a new operation, up to l.unlock(). -/
  | start
  | readTimeout
  | armed
  | armThrows
  | store
  | error
  | handleEvent
  /-- The argument is whether poll reports data. -/
  | handleTimeout (data : Bool)
  | deliver
  /-- The operation state is destroyed, after a signal. -/
  | destroy
  deriving DecidableEq, Repr

/-- The steps in which the event-loop thread enters a handler. -/
def Event.handles : Event → Bool
  | .handleEvent | .handleTimeout _ => true
  | .start | .readTimeout | .armed | .armThrows | .store | .error | .deliver | .destroy => false

/-- The block of fdio_completion::start under fdio::lock. -/
def register (s : State) : State :=
  { s with
    complete := some s.started
    terminated := s.terminated || s.complete.isSome
    start := .registered s.started
    operation := some s.started
    timer := false
    armFailed := false
    started := s.started + 1 }

/-- The block of a handler under fdio::lock. -/
def take (sig : Signal) (s : State) : State :=
  match s.complete with
  | none => s
  | some op => { s with complete := none, loop := .signalling op sig }

/-- `timed` is whether the timeout differs from zero. -/
def step (timed : Bool) (s : State) : Event → Option State
  | .start => if s.start = .outside ∧ s.operation = none then some (register s) else none
  | .readTimeout =>
    match s.start with
    | .registered op => some { s.access op with start := if timed then .arming op else .outside }
    | _ => none
  | .armed =>
    match s.start with
    | .arming op => some { s with start := .storing op, timer := true }
    | _ => none
  | .armThrows =>
    match s.start with
    | .arming op => some { s with start := .throwing op, armFailed := true }
    | _ => none
  | .store =>
    match s.start with
    | .storing op => some { s.access op with start := .outside }
    | _ => none
  | .error =>
    match s.start with
    | .throwing op => some { (s.access op).signal op .error with start := .outside }
    | _ => none
  | .handleEvent => if s.loop = .idle then some (take .complete s) else none
  | .handleTimeout data =>
    if s.loop = .idle ∧ s.timer then
      some (take (if data then .complete else .error) { s with timer := false })
    else none
  | .deliver =>
    match s.loop with
    | .signalling op sig => some { s.signal op sig with loop := .idle }
    | .idle => none
  | .destroy =>
    match s.operation with
    | some op =>
      if 0 < delivered s.signals op then
        some { s with
          complete := if s.complete = some op then none else s.complete
          operation := none
          timer := false }
      else none
    | none => none

def machine (timed : Bool) : Machine State Event := ⟨initial, step timed⟩

end Sdbusplus.Async.Fdio
