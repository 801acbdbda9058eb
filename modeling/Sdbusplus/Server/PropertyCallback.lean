import Mathlib.Data.List.FinRange
import Mathlib.Logic.Function.Basic
import Sdbusplus.Message.Equality
import Sdbusplus.Server.MethodCallback

namespace Sdbusplus.Server.PropertyCallback
open Message
open Asio (BusError ErrnoTable Reply)
open MethodCallback

/-- The flags of a property. -/
inductive Flag
  | const
  | deprecated
  | emitsChange
  | emitsInvalidation
  | explicit
  | hidden
  | readonly
  | unprivileged
  deriving DecidableEq, Repr

/-- What PropertiesChanged says of a property. -/
inductive Emits
  | change
  | invalidation
  | nothing
  deriving DecidableEq, Repr

/-- A property of an interface definition. -/
structure Property where
  name : Bytes
  type : Ty
  errors : List String
  flags : List Flag

namespace Property

/-- Whether there is a setter in the vtable. -/
def writable (p : Property) : Bool := decide (.const ∉ p.flags ∧ .readonly ∉ p.flags)

/-- or_cpp_flags. There is nothing for readonly in a vtable. -/
def cppFlags (p : Property) : List Flag := p.flags.filter (fun flag => flag ≠ .readonly)

/-- The flags in the vtable. -/
def vtableFlags (p : Property) : List Flag :=
  if p.cppFlags = [] then [.emitsChange] else p.cppFlags

/-- sd_bus_emit_properties_changed fails for a property that is hidden or has no flag for it. -/
def emits (p : Property) : Emits :=
  if .hidden ∈ p.vtableFlags then .nothing
  else if .emitsInvalidation ∈ p.vtableFlags then .invalidation
  else if .emitsChange ∈ p.vtableFlags then .change
  else .nothing

/-- Whether the reply to a GetAll has it. -/
def listed (p : Property) : Bool :=
  decide (.hidden ∉ p.vtableFlags ∧ .explicit ∉ p.vtableFlags)

end Property

/-- The vtable of an interface. -/
structure Interface where
  name : Bytes
  properties : List Property
  distinct : (properties.map Property.name).Nodup

variable {σ : Type} (I : Interface)

abbrev Index : Type := Fin I.properties.length

abbrev Interface.property (i : Index I) : Property := I.properties.get i

abbrev Interface.Val (i : Index I) : Type := (I.property i).type.Val

/-- A PropertiesChanged signal, in which values are variants. -/
structure Signal where
  changed : List (Bytes × Wire)
  invalidated : List Bytes

/-- An object of the generated class, and the signals that were sent of it. -/
structure Object where
  fields : (i : Index I) → I.Val i
  emitted : List Signal

variable (bus : Bus)

section callbacks

/-- property_callback of a setter, which reads what is set from its message. -/
def propertySet {t : Ty} (f : t.Val → Callback σ Unit) (header : Transaction.Header)
    (value : List Wire) : Callback σ Int :=
  tryCatch (do
    setId bus ⟨header, value⟩
    let arg ← readArgs bus [t] value
    f arg.1
    pure 1) (catchInternal bus)

/-- property_callback of a getter, with what it has appended to its message. -/
def propertyGet {t : Ty} (f : Callback σ t.Val) (header : Transaction.Header) :
    Callback σ (Int × List Wire) :=
  tryCatch (do
    setId bus ⟨header, []⟩
    let v ← f
    pure (1, (bus.lib.performAll .empty (appendTuple [t] (v, ()))).items))
    (fun e => do
      let r ← catchInternal bus e
      pure (r, []))

end callbacks

variable {I}

/-- The getter of a property in the generated class. -/
def getter (i : Index I) : Callback (Object I) (I.Val i) := do
  let s ← get
  pure (s.object.fields i)

/-- _callback_get_. -/
def callbackGet (i : Index I) (header : Transaction.Header) :
    Callback (Object I) (Int × List Wire) :=
  tryCatch (propertyGet bus (getter i) header) (fun e => do
    let r ← catchDeclared bus (I.property i).errors e
    pure (r, []))

/-- The variant that sd-bus closes around what a getter has appended. -/
def closeVariant (t : Ty) (items : List Wire) : Option Wire :=
  if signature items = contents (typeId t) then
    some (.container .variant (contents (typeId t)) items)
  else none

/-- What sd-bus makes of a callback of a property: the error that is set or returned. -/
def callbackError (errnos : ErrnoTable) (r : Int) (error : Option BusError) : Option BusError :=
  if r < 0 then some (error.getD (errnos.setErrno r)) else error

def emit (x : Signal) : Callback (Object I) Unit :=
  modify (fun s => { s with object := { s.object with emitted := s.object.emitted ++ [x] } })

/-- The header of a signal that is not sent yet, whose cookies cannot be had. -/
def signalHeader : Transaction.Header := ⟨.ok .signal, .error 61, .error 61⟩

/-- server::interface::property_changed, whose callee takes the value from the getter. -/
def propertyChanged (i : Index I) : Callback (Object I) Unit :=
  match (I.property i).emits with
  | .nothing => pure ()
  | .invalidation => emit ⟨[], [(I.property i).name]⟩
  | .change => do
    let outer ← get
    modify (fun s => { s with error := none })
    let (r, items) ← callbackGet bus i signalHeader
    let inner ← get
    modify (fun s => { s with error := outer.error })
    match callbackError bus.errnos r inner.error, closeVariant (I.property i).type items with
    | none, some value => emit ⟨[((I.property i).name, value)], []⟩
    | _, _ => pure ()

def setField (o : Object I) (i : Index I) (value : I.Val i) : Object I :=
  { o with fields := Function.update o.fields i value }

def store (i : Index I) (value : I.Val i) (skipSignal : Bool) : Callback (Object I) Unit := do
  modify (fun s => { s with object := setField s.object i value })
  if skipSignal then pure () else propertyChanged bus i

/-- The setter of a property in the generated class. -/
def setter (i : Index I) (value : I.Val i) (skipSignal : Bool) :
    Callback (Object I) (I.Val i) := do
  let s ← get
  (if Ty.same _ (s.object.fields i) value then pure () else store bus i value skipSignal)
  getter i

/-- _callback_set_. -/
def callbackSet (i : Index I) (header : Transaction.Header) (value : List Wire) :
    Callback (Object I) Int :=
  tryCatch (propertySet bus (fun v => do
    let _ ← setter bus i v false) header value) (catchDeclared bus (I.property i).errors)

def reply (x : Reply) : Callback σ Unit := modify (fun s => { s with sent := s.sent ++ [x] })

/-- sd-bus on a Get of a property. -/
def serveGet (i : Index I) (header : Transaction.Header) : Callback (Object I) Unit := do
  modify (fun s => { s with error := none })
  let (r, items) ← callbackGet bus i header
  let s ← get
  match callbackError bus.errnos r s.error, closeVariant (I.property i).type items with
  | some e, _ => reply (.methodError e)
  | none, some value => reply (.methodReturn [value])
  -- The reply cannot be closed, which is an error of sd_bus_process.
  | none, none => pure ()

def propertyReadOnly : BusError :=
  ⟨"org.freedesktop.DBus.Error.PropertyReadOnly", "Property is not writable."⟩

/-- sd-bus on a Set of a property to a variant. The callback has to read all of it. -/
def serveSet (i : Index I) (header : Transaction.Header) (value : Wire) :
    Callback (Object I) Unit :=
  if (I.property i).writable then
    match value with
    | .container .variant sig items =>
      if sig = contents (typeId (I.property i).type) then do
        modify (fun s => { s with error := none })
        let r ← callbackSet bus i header items
        let s ← get
        match callbackError bus.errnos r s.error with
        | some e => reply (.methodError e)
        | none =>
          match readTuple bus.order [(I.property i).type] (tupleDefault _) (.start items) with
          | .ok _ => reply (.methodReturn [])
          | .error _ => pure ()
      else reply (.methodError invalidArgs)
    | _ => reply (.methodError invalidArgs)
  else reply (.methodError propertyReadOnly)

def unknownInterface : BusError :=
  ⟨"org.freedesktop.DBus.Error.UnknownInterface", "Unknown interface."⟩

def unknownProperty : BusError :=
  ⟨"org.freedesktop.DBus.Error.UnknownProperty", "Unknown property."⟩

def Interface.find (I : Interface) (name : Bytes) : Option (Index I) :=
  (List.finRange I.properties.length).find? (fun i => (I.property i).name = name)

/-- The property that the arguments of Get and Set begin with. -/
def target (I : Interface) (interface name : Bytes) : Except BusError (Index I) :=
  if interface = I.name then
    match I.find name with
    | some i => .ok i
    | none => .error unknownProperty
  else .error unknownInterface

/-- Get of org.freedesktop.DBus.Properties. -/
def busGet (header : Transaction.Header) : List Wire → Callback (Object I) Unit
  | [.basic .string interface, .basic .string name] =>
    match target I interface name with
    | .ok i => serveGet bus i header
    | .error e => reply (.methodError e)
  | _ => reply (.methodError invalidArgs)

/-- Set of org.freedesktop.DBus.Properties. -/
def busSet (header : Transaction.Header) : List Wire → Callback (Object I) Unit
  | [.basic .string interface, .basic .string name, value] =>
    match target I interface name with
    | .ok i => serveSet bus i header value
    | .error e => reply (.methodError e)
  | _ => reply (.methodError invalidArgs)

/-- The entries of a GetAll reply for some properties: an error, or none if one of them
cannot be closed. -/
def appendProperties (header : Transaction.Header) :
    List (Index I) → Callback (Object I) (Except (Option BusError) (List Wire))
  | [] => pure (.ok [])
  | i :: is => do
    let (r, items) ← callbackGet bus i header
    let s ← get
    match callbackError bus.errnos r s.error, closeVariant (I.property i).type items with
    | some e, _ => pure (.error (some e))
    | none, none => pure (.error none)
    | none, some value => do
      let entries ← appendProperties header is
      pure (entries.map (fun ws =>
        .container .dictEntry ['s', 'v'] [.basic .string (I.property i).name, value] :: ws))

/-- The properties that a GetAll is answered with, as the vtable has them. -/
def Interface.listed (I : Interface) : List (Index I) :=
  (List.finRange I.properties.length).filter (fun i => (I.property i).listed)

/-- sd-bus on a GetAll, which goes through the vtable. -/
def serveGetAll (header : Transaction.Header) : Callback (Object I) Unit := do
  modify (fun s => { s with error := none })
  let r ← appendProperties bus header I.listed
  match r with
  | .ok entries => reply (.methodReturn [.container .array ['{', 's', 'v', '}'] entries])
  | .error (some e) => reply (.methodError e)
  | .error none => pure ()

def Interface.named (I : Interface) (interface : Bytes) : Bool := interface = I.name

/-- GetAll of org.freedesktop.DBus.Properties. -/
def busGetAll (header : Transaction.Header) : List Wire → Callback (Object I) Unit
  | [.basic .string interface] =>
    if I.named interface then serveGetAll bus header else reply (.methodError unknownInterface)
  | _ => reply (.methodError invalidArgs)

end Sdbusplus.Server.PropertyCallback
