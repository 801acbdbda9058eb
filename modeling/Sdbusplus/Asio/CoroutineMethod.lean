import Sdbusplus.Base.Throwing
import Sdbusplus.Message.Read
import Sdbusplus.Message.Append

namespace Sdbusplus.Asio
open Message

/-- An sd_bus_error that is set. -/
structure BusError where
  name : String
  message : String
  deriving DecidableEq, Repr

/-- What C++ code throws: a SdBusError with its sd_bus_error, another
sdbusplus::exception_t with its name() and description(), or anything else. -/
inductive Thrown
  | sdBusError (error : Option BusError)
  | exception (name description : String)
  | other
  deriving DecidableEq, Repr

/-- How code ends that does not return. -/
inductive Abort
  | threw (e : Thrown)
  | diverged
  deriving DecidableEq, Repr

/-- The errors of libsystemd: sd_bus_error_set_errno and sd_bus_error_get_errno. -/
structure ErrnoTable where
  setErrno : Int → BusError
  getErrno : Option BusError → Int

inductive Reply
  | methodReturn (items : List Wire)
  | methodError (error : BusError)

/-- A handler that takes a yield_context. What it takes of D-Bus is `args`; what it
returns is appended to the reply, nothing if it is void. -/
structure CoroutineMethod where
  args : List Ty
  result : List Ty
  /-- callbackWantsMessage. -/
  wantsMessage : Bool
  func : TupleVal args → Except Thrown (TupleVal result)

/-- The variables of after_spawn that outlive a throw: the message `b`, null when it
was moved from, and what was sent. -/
structure Frame where
  b : Option Cursor
  sent : List Reply

abbrev Coroutine (α : Type) := Throwing Abort Frame α

namespace CoroutineMethod

def eio : Int := 5

/-- exception::InvalidEnumString. -/
def invalidEnumString : Thrown :=
  .exception "xyz.openbmc_project.sdbusplus.Error.InvalidEnumString"
    "An enumeration mapping was attempted for which no valid enumeration value exists."

variable (h : HashOrder) (lib : LibSystemd) (errnos : ErrnoTable)

/-- SdBusError(error, what). -/
def sdBusError (error : Int) : Abort := .threw (.sdBusError (some (errnos.setErrno error)))

/-- The exceptions of message::read. -/
def ofRead : Exception → Abort
  | .sdBusError error _ => sdBusError errnos error
  | .invalidEnumString => .threw invalidEnumString
  | .nullString => .threw .other
  | .diverges => .diverged

/-- b.read(x...) of a message at this position. -/
def readFrom (ts : List Ty) (c : Cursor) : Coroutine (TupleVal ts) :=
  match readTuple h ts (tupleDefault ts) c with
  | .ok (args, c) => do
    modify (fun frame => { frame with b := some c })
    pure args
  | .error e => throw (ofRead errnos e)

/-- Every call into libsystemd refuses a null message. -/
def readArgs (ts : List Ty) : Coroutine (TupleVal ts) := do
  let frame ← get
  match frame.b with
  | none => throw (sdBusError errnos einval)
  | some c => readFrom h errnos ts c

/-- A reply is made from a message unless it is null. -/
def newReply {α : Type} (reply : α) : Coroutine α := do
  let frame ← get
  match frame.b with
  | none => throw (sdBusError errnos einval)
  | some _ => pure reply

def newMethodReturn : Coroutine Writer := newReply errnos .empty

def newMethodError (name description : String) : Coroutine Reply :=
  newReply errnos (.methodError ⟨name, description⟩)

/-- The error number counts if the error is not set. -/
def newMethodErrno (error : Int) (e : Option BusError) : Coroutine Reply :=
  newReply errnos (.methodError (e.getD (errnos.setErrno error)))

/-- message::method_return. -/
def methodReturn (reply : Reply) : Coroutine Unit :=
  modify (fun frame => { frame with sent := frame.sent ++ [reply] })

/-- The tuple of the handler's arguments takes `std::move(b)` if it wants a message. -/
def moveMessage (m : CoroutineMethod) : Coroutine Unit :=
  modify (fun frame => { frame with b := if m.wantsMessage then none else frame.b })

def callFunction (m : CoroutineMethod) (ret : Writer) (args : TupleVal m.args) :
    Coroutine Writer :=
  match m.func args with
  | .ok r => pure (lib.performAll ret (appendTuple m.result r))
  | .error e => throw (.threw e)

/-- The first try block; no arguments when the error was sent. -/
def decode (m : CoroutineMethod) : Coroutine (Option (TupleVal m.args)) :=
  tryCatch (some <$> readArgs h errnos m.args) (fun
    | .threw (.sdBusError e) => do
      let ret ← newMethodErrno errnos (errnos.getErrno e) e
      methodReturn ret
      pure none
    | e => throw e)

/-- The second try block. -/
def invoke (m : CoroutineMethod) (dbusArgs : TupleVal m.args) : Coroutine Unit :=
  tryCatch (do
    let ret ← newMethodReturn errnos
    moveMessage m
    let ret ← callFunction lib m ret dbusArgs
    methodReturn (.methodReturn ret.items)) (fun
    | .threw (.sdBusError e) => do
      let err ← newMethodErrno errnos (errnos.getErrno e) e
      methodReturn err
    | .threw (.exception name description) => do
      let err ← newMethodError errnos name description
      methodReturn err
    | .threw .other => do
      let err ← newMethodErrno errnos (-eio) none
      methodReturn err
    | .diverged => throw .diverged)

def afterSpawn (m : CoroutineMethod) : Coroutine Unit := do
  let dbusArgs ← decode h errnos m
  match dbusArgs with
  | none => pure ()
  | some dbusArgs => invoke lib errnos m dbusArgs

/-- after_spawn of a call message at this read position. -/
def spawned (m : CoroutineMethod) (call : Cursor) : Except Abort Unit × Frame :=
  (afterSpawn h lib errnos m).exec ⟨some call, []⟩

end CoroutineMethod

end Sdbusplus.Asio
