import Mathlib.Algebra.Group.Nat.Defs
import Sdbusplus.Base.Machine

namespace Sdbusplus.Asio

/-- boost::system::error_code, as far as the handlers look at it. -/
inductive ErrorCode
  | success
  | operationAborted
  | failed
  deriving DecidableEq, Repr

/-- wait_read, wait_write and wait_error of the socket, and the wait of the timer. -/
inductive WaitKind
  | read
  | write
  | error
  | timer
  deriving DecidableEq, Repr

/-- A completed wait has its handler queued. -/
inductive WaitStatus
  | outstanding
  | completed (ec : ErrorCode)
  deriving DecidableEq, Repr

structure Wait where
  kind : WaitKind
  /-- The call of read_wait that registered it. -/
  round : Nat
  status : WaitStatus
  deriving DecidableEq, Repr

/-- What a run of process() gets from sd-bus. -/
structure Answers where
  processDiscard : Bool
  fd : Int
  events : Int
  timeret : Int
  /-- An uint64_t. -/
  timeout : Nat
  deriving DecidableEq, Repr

structure Connection where
  /-- How many calls of process() are posted. -/
  posted : Nat
  waits : List Wait
  rounds : Nat
  nativeHandle : Int
  deriving DecidableEq, Repr

def pollin : Nat := 0x1
def pollout : Nat := 0x4
def pollerr : Nat := 0x8

/-- `events & bit` of an int that is not negative. -/
def Answers.has (a : Answers) (bit : Nat) : Bool := a.events.toNat &&& bit ≠ 0

/-- Whether the timeout fits the clock: both sides are compared as unsigned
nanoseconds of 64 bits. -/
def Answers.timed (a : Answers) : Bool := a.timeout * 1000 % 2 ^ 64 ≤ 2 ^ 63 - 1

/-- Only a wait that has not completed can be aborted. -/
def Wait.cancel (w : Wait) : Wait :=
  if w.status = .outstanding then { w with status := .completed .operationAborted } else w

namespace Connection

def timerCancel (c : Connection) : Connection :=
  { c with waits := c.waits.map (fun w => if w.kind = .timer then w.cancel else w) }

def socketCancel (c : Connection) : Connection :=
  { c with waits := c.waits.map (fun w => if w.kind = .timer then w else w.cancel) }

def asyncWait (c : Connection) (kind : WaitKind) : Connection :=
  { c with waits := c.waits ++ [⟨kind, c.rounds, .outstanding⟩] }

/-- socket.release(), which cancels what is outstanding, and socket.assign(fd). -/
def follow (c : Connection) (fd : Int) : Connection :=
  if fd ≠ c.nativeHandle then { c.socketCancel with nativeHandle := fd } else c

def waitIf (c : Connection) (registers : Bool) (kind : WaitKind) : Connection :=
  if registers then c.asyncWait kind else c

/-- expires_at() cancels the wait on the timer that is outstanding. -/
def waitTimer (c : Connection) (a : Answers) : Connection :=
  if a.timeret < 0 then c
  else if !a.timed then c
  else c.timerCancel.asyncWait .timer

def readWait (c : Connection) (a : Answers) : Connection :=
  let c := { c with rounds := c.rounds + 1 }
  if a.fd < 0 then c
  else
    let c := c.follow a.fd
    if a.events < 0 then c
    else
      let c := c.waitIf (a.has pollin) .read
      let c := c.waitIf (a.has pollout) .write
      let c := c.waitIf (a.has pollerr) .error
      c.waitTimer a

def readImmediate (c : Connection) : Connection := { c with posted := c.posted + 1 }

def process (c : Connection) (a : Answers) : Connection :=
  if a.processDiscard then c.readImmediate else c.readWait a

def onFdEvent (c : Connection) (ec : ErrorCode) (a : Answers) : Connection :=
  if ec = .operationAborted then c
  else
    let c := c.timerCancel
    if ec ≠ .success then c else c.process a

def onTimerEvent (c : Connection) (ec : ErrorCode) (a : Answers) : Connection :=
  if ec = .operationAborted then c
  else if ec ≠ .success then c
  else c.socketCancel.process a

inductive Event
  /-- A posted process() runs. -/
  | process (a : Answers)
  /-- The wait at a place completes by itself. -/
  | completes (place : Nat) (ec : ErrorCode)
  /-- The handler of the wait at a place runs. -/
  | handler (place : Nat) (a : Answers)
  deriving DecidableEq, Repr

def step (c : Connection) : Event → Option Connection
  | .process a =>
    if c.posted = 0 then none else some ({ c with posted := c.posted - 1 }.process a)
  | .completes place ec =>
    match c.waits[place]? with
    | none => none
    | some w =>
      if w.status = .outstanding ∧ ec ≠ .operationAborted then
        some { c with waits := c.waits.set place { w with status := .completed ec } }
      else none
  | .handler place a =>
    match c.waits[place]? with
    | none => none
    | some w =>
      let c := { c with waits := c.waits.eraseIdx place }
      match w.status with
      | .outstanding => none
      | .completed ec =>
        some (if w.kind = .timer then c.onTimerEvent ec a else c.onFdEvent ec a)

/-- The constructor calls read_immediate(). -/
def initial (fd : Int) : Connection := readImmediate ⟨0, [], 0, fd⟩

def machine (fd : Int) : Machine Connection Event := ⟨initial fd, step⟩

end Connection

end Sdbusplus.Asio
