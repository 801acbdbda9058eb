import Sdbusplus.Base.Holders

namespace Sdbusplus.Message
open Holders

/-- What a program does with message objects, which are numbered in the order of their
construction, and with the pointers to messages of libsystemd. -/
inductive MessageOp
  /-- A call into libsystemd that makes a message. -/
  | create
  /-- message(msgp_t), of a message that is kept alive by something else. -/
  | construct (m : Option Nat)
  /-- message(msgp_t, std::false_type), which takes the reference. -/
  | adopt (m : Option Nat)
  | copy (other : Nat)
  | move (other : Nat)
  | assign (this other : Nat)
  | moveAssign (this other : Nat)
  | release (this : Nat)
  | destroy (this : Nat)
  /-- sd_bus_message_unref of a pointer that no object holds. -/
  | unref (m : Nat)
  deriving DecidableEq, Repr

def MessageOp.run : MessageOp → Program Unit
  | .create => do
    let _ ← Holders.create
  | .construct none => Holders.construct none
  | .construct (some m) => do
    let m ← borrow m
    Holders.construct m
  | .adopt m => Holders.construct m
  | .copy other => do
    let m ← share other
    Holders.construct m
  | .move other => do
    let m ← Holders.release other
    Holders.construct m
  -- The reference is taken before the old one is given back, as `this` may be `other`.
  | .assign this other => do
    let m ← share other
    reset this m
  -- unique_ptr: reset(u.release()).
  | .moveAssign this other => do
    let m ← Holders.release other
    reset this m
  | .release this => do
    let _ ← Holders.release this
  | .destroy this => Holders.destroy this
  | .unref m => drop m

def messageMachine : Machine Holders MessageOp :=
  ⟨Holders.empty, fun s op => (op.run s).map Prod.snd⟩

/-- The same of SdBusError objects and the sd_bus_error structs of callers. What sd_bus_error
owns is a cell here, and there is none if it owns nothing. -/
inductive ErrorOp
  /-- A call into libsystemd that sets an sd_bus_error with memory of its own. -/
  | set
  /-- SdBusError(int), by whether sd_bus_error_set_errno took memory for it. If it sets no
  error there is no object. -/
  | fromErrno (isSet owned : Bool)
  /-- SdBusError(sd_bus_error*), which leaves SD_BUS_ERROR_NULL in the struct. -/
  | fromError (error : Option Nat)
  | move (other : Nat)
  | moveAssign (this other : Nat)
  | destroy (this : Nat)
  /-- sd_bus_error_free of a struct. -/
  | free (error : Nat)
  deriving DecidableEq, Repr

/-- SdBusError::move. -/
def moveError (this other : Nat) : Program Unit := do
  reset this none
  let error ← release other
  reset this error

/-- The number that the next object has. -/
def nextObject : Program Nat := fun s => some (s.objects.length, s)

def ErrorOp.run : ErrorOp → Program Unit
  | .set => do
    let _ ← Holders.create
  | .fromErrno false _ => pure ()
  | .fromErrno true false => construct none
  | .fromErrno true true => do
    let error ← Holders.create
    construct error
  | .fromError error => construct error
  | .move other => do
    let this ← nextObject
    construct none
    moveError this other
  | .moveAssign this other => if this = other then pure () else moveError this other
  | .destroy this => Holders.destroy this
  | .free error => drop error

def errorMachine : Machine Holders ErrorOp :=
  ⟨Holders.empty, fun s op => (op.run s).map Prod.snd⟩

end Sdbusplus.Message
