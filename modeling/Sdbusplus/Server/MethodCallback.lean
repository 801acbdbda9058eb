import Sdbusplus.Asio.CoroutineMethod
import Sdbusplus.Base.Throwing
import Sdbusplus.Server.Transaction

namespace Sdbusplus.Server.MethodCallback
open Message
open Asio (BusError ErrnoTable Reply)

/-- An exception by the base class it has: internal_exception_t with what its name() and
description() are, generated_exception with its own, another std::exception, or a type
that has nothing to do with these. -/
inductive Thrown
  | internal (error : Option BusError)
  | generated (error : BusError)
  | standard
  | foreign
  deriving DecidableEq, Repr

inductive Abort
  | threw (e : Thrown)
  | diverged
  deriving DecidableEq, Repr

/-- A method of an interface definition, with the names of the errors it declares, and
how an object of the class implements it. -/
structure Method (σ : Type) where
  args : List Ty
  returns : List Ty
  errors : List String
  func : TupleVal args → σ → Except Thrown (TupleVal returns) × σ

/-- A method call as it comes in. -/
structure Call where
  header : Transaction.Header
  items : List Wire

/-- What the calls into libsystemd use and return while one call is handled. -/
structure Bus where
  lib : LibSystemd
  order : HashOrder
  errnos : ErrnoTable
  surroundings : Transaction.Surroundings
  newMethodReturn : Int
  send : Int

/-- The object, the id of the thread, the error that sd-bus takes from the callback, the
replies that went out, and the exception that bus_t keeps. -/
structure Frame (σ : Type) where
  object : σ
  id : UInt64
  error : Option BusError
  sent : List Reply
  currentException : Option Thrown

abbrev Callback (σ : Type) := Throwing Abort (Frame σ)

variable {σ : Type} (bus : Bus)

def invalidEnumString : BusError :=
  ⟨"xyz.openbmc_project.sdbusplus.Error.InvalidEnumString",
    "An enumeration mapping was attempted for which no valid enumeration value exists."⟩

/-- SdBusError(error, what). -/
def sdBusError (error : Int) : Abort := .threw (.internal (some (bus.errnos.setErrno error)))

/-- The exceptions of message::read. -/
def ofRead : Exception → Abort
  | .sdBusError error _ => sdBusError bus error
  | .invalidEnumString => .threw (.internal (some invalidEnumString))
  | .nullString => .threw .standard
  | .diverges => .diverged

/-- exception::set_error. sd_bus_error_set does nothing without a name. -/
def setError : Option BusError → Callback σ Int
  | none => pure 0
  | some e => do
    modify (fun s => { s with error := some e })
    pure (-bus.errnos.getErrno (some e))

/-- transaction::set_id. -/
def setId (msg : Call) : Callback σ Unit := do
  let s ← get
  let (r, id) := Transaction.setId s.id bus.surroundings msg.header
  modify (fun s => { s with id := id })
  match r with
  | .ok () => pure ()
  | .error (.sdBusError e _) => throw (sdBusError bus e)
  | .error (.runtimeError _) => throw (.threw .standard)

/-- The arguments from the message. -/
def readArgs (ts : List Ty) (items : List Wire) : Callback σ (TupleVal ts) :=
  match readTuple bus.order ts (tupleDefault ts) (.start items) with
  | .ok (args, _) => pure args
  | .error e => throw (ofRead bus e)

/-- A call into libsystemd whose negative results are thrown. -/
def orThrow (r : Int) : Callback σ Unit := if r < 0 then throw (sdBusError bus (-r)) else pure ()

def callFunction (m : Method σ) (args : TupleVal m.args) : Callback σ (TupleVal m.returns) := do
  let s ← get
  let (r, object) := m.func args s.object
  modify (fun s => { s with object := object })
  match r with
  | .ok r => pure r
  | .error e => throw (.threw e)

/-- message::method_return. -/
def methodReturn (reply : Reply) : Callback σ Unit := do
  orThrow bus bus.send
  modify (fun s => { s with sent := s.sent ++ [reply] })

/-- What was appended to a reply. -/
def returned (lib : LibSystemd) (ts : List Ty) (r : TupleVal ts) : Reply :=
  .methodReturn (lib.performAll .empty (appendTuple ts r)).items

/-- The try block of method_callback until the function has returned. -/
def results (m : Method σ) (msg : Call) : Callback σ (TupleVal m.returns) := do
  setId bus msg
  let args ← readArgs bus m.args msg.items
  orThrow bus bus.newMethodReturn
  callFunction m args

/-- All of that try block. -/
def respond (m : Method σ) (msg : Call) : Callback σ Int := do
  let r ← results bus m msg
  methodReturn bus (returned bus.lib m.returns r)
  pure 1

/-- What method_callback catches. -/
def catchInternal : Abort → Callback σ Int
  | .threw (.internal e) => setError bus e
  | e => throw e

/-- sdbuspp::method_callback. -/
def methodCallback (m : Method σ) (msg : Call) : Callback σ Int :=
  tryCatch (respond bus m msg) (catchInternal bus)

/-- bus_t::set_current_exception, after which a callback has done its work. -/
def setCurrentException (e : Thrown) : Callback σ Int := do
  modify (fun s => { s with currentException := some e })
  pure 1

/-- What a generated callback catches, first the declared errors. -/
def catchDeclared (errors : List String) : Abort → Callback σ Int
  | .threw (.generated e) =>
    if e.name ∈ errors then setError bus (some e) else setCurrentException (.generated e)
  | .threw (.internal e) => setCurrentException (.internal e)
  | .threw .standard => setCurrentException .standard
  | .threw .foreign => throw (.threw .foreign)
  | .diverged => throw .diverged

/-- The callback of a method in the generated class. -/
def callback (m : Method σ) (msg : Call) : Callback σ Int :=
  tryCatch (methodCallback bus m msg) (catchDeclared bus m.errors)

def invalidArgs : BusError := ⟨"org.freedesktop.DBus.Error.InvalidArgs", "Invalid argument"⟩

def unknownMethod : BusError := ⟨"org.freedesktop.DBus.Error.UnknownMethod", "Unknown method"⟩

/-- The error that sd-bus answers a call with, by what the callback returned and set. -/
def replyError (errnos : ErrnoTable) (r : Int) (error : Option BusError) : Option BusError :=
  if r < 0 then some (error.getD (errnos.setErrno r))
  else if error.isSome then error
  else if r = 0 then some unknownMethod
  else none

/-- sd-bus on a call of a method of its vtable. Only calls with the signature that the
vtable has reach the callback. -/
def serve (errnos : ErrnoTable) (args : List Ty) (callback : Callback σ Int)
    (items : List Wire) : Callback σ Unit := do
  if signature items = contents (typeIds args) then
    modify (fun s => { s with error := none })
    let r ← callback
    let s ← get
    match replyError errnos r s.error with
    | some e => modify (fun s => { s with sent := s.sent ++ [.methodError e] })
    | none => pure ()
  else modify (fun s => { s with sent := s.sent ++ [.methodError invalidArgs] })

/-- bus_t::process of a message that is such a call. -/
def process (m : Method σ) (msg : Call) : Callback σ Unit := do
  serve bus.errnos m.args (callback bus m msg) msg.items
  let s ← get
  match s.currentException with
  | some ex => do
    modify (fun s => { s with currentException := none })
    throw (.threw ex)
  | none => pure ()

end Sdbusplus.Server.MethodCallback
