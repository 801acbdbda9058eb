import Sdbusplus.Base.Machine

namespace Sdbusplus.Async.Match

variable {Msg : Type}

structure State (Msg : Type) where
  /-- The match is registered with the bus. -/
  slot : Bool
  /-- The destructor has not begun. -/
  alive : Bool
  queue : List Msg
  /-- The match_completion that awaits a message. Completions are known by the
  order of their start() calls. -/
  complete : Option Nat
  /-- Popped by handle_completion; `c->complete(msg)` comes next. -/
  transit : List (Nat × Msg)
  /-- Taken out by the destructor; `c->stop()` comes next. -/
  stopping : Option Nat
  terminated : Bool
  received : List Msg
  started : Nat
  /-- The calls of complete(), with the message that each handed to the receiver. -/
  delivered : List (Nat × Msg)
  /-- The calls of stop(). -/
  stopped : List Nat

def initial : State Msg where
  slot := true
  alive := true
  queue := []
  complete := none
  transit := []
  stopping := none
  terminated := false
  received := []
  started := 0
  delivered := []
  stopped := []

/-- match::handle_completion up to the unlock. -/
def handleCompletion (s : State Msg) : State Msg :=
  match s.complete, s.queue with
  | some c, msg :: queue =>
    { s with complete := none, queue := queue, transit := s.transit ++ [(c, msg)] }
  | _, _ => s

/-- match::handle_match. -/
def handleMatch (msg : Msg) (s : State Msg) : State Msg :=
  handleCompletion { s with queue := s.queue ++ [msg], received := s.received ++ [msg] }

/-- match_completion::start. The process ends after the exchange when there was
another await pending. -/
def start (s : State Msg) : State Msg :=
  let pending := s.complete
  let s := { s with complete := some s.started, started := s.started + 1 }
  if pending.isSome then { s with terminated := true } else handleCompletion s

/-- The block of the destructor. -/
def destroy (s : State Msg) : State Msg :=
  { s with alive := false, complete := none, stopping := s.complete }

inductive Event (Msg : Type)
  | handleMatch (msg : Msg)
  | start
  /-- The i-th completion in transit. A task that it resumes may start again. -/
  | complete (i : Nat)
  | destroy
  | stop
  /-- The end of the destructor, which gives up the slot. -/
  | unref
  deriving DecidableEq, Repr

def stepAlive (s : State Msg) : Event Msg → Option (State Msg)
  | .handleMatch msg => if s.slot then some (handleMatch msg s) else none
  | .start => if s.alive then some (start s) else none
  | .complete i =>
    match s.transit[i]? with
    | none => none
    | some d => some { s with
        transit := s.transit.eraseIdx i, delivered := s.delivered ++ [d] }
  | .destroy => if s.alive then some (destroy s) else none
  | .stop =>
    match s.stopping with
    | none => none
    | some c => some { s with stopping := none, stopped := s.stopped ++ [c] }
  | .unref =>
    if s.alive = false ∧ s.stopping = none ∧ s.slot then some { s with slot := false } else none

def step (s : State Msg) (e : Event Msg) : Option (State Msg) :=
  if s.terminated then none else stepAlive s e

def machine (Msg : Type) : Machine (State Msg) (Event Msg) := ⟨initial, step⟩

end Sdbusplus.Async.Match
