import Sdbusplus.Base.Machine
import Sdbusplus.Base.Vec
import Sdbusplus.Message.Bus

namespace Sdbusplus.Asio
open Message

/-- SD_BUS_VTABLE_ABSOLUTE_OFFSET. -/
def absoluteOffset : UInt64 := 0x200

/-- A C string inside of the object at an address. -/
structure Member where
  owner : Vec.Addr
  text : Bytes
  deriving DecidableEq, Repr

/-- sd_bus_vtable. An offset is the address of an object, into the vector of the
entry's kind. -/
inductive VtableEntry
  | start (flags : UInt64)
  | method (member : Member) (signature result : Bytes) (offset : Vec.Addr) (flags : UInt64)
  | signal (member : Member) (signature : Bytes)
  | property (member : Member) (signature : Bytes) (writable : Bool) (offset : Vec.Addr)
      (flags : UInt64)
  | end_
  deriving DecidableEq, Repr

inductive SetPropertyReturnValue
  | fail
  | valueUpdated
  | sameValueUpdated
  deriving DecidableEq, Repr

/-- A type of properties, among the values `V` of all types. -/
structure PropertyType (V : Type) where
  typeId : Bytes
  /-- std::any_cast. -/
  cast : V → Option V

/-- A property_callback. Its functions share the value at `value`. -/
structure PropertyCallback (V : Type) where
  name : Bytes
  type : PropertyType V
  /-- on_set_message_ is not empty. -/
  writable : Bool
  /-- The function inside of on_set_value_: the value asked for and the old one. -/
  setFunction : V → V → Bool × V
  flags : UInt64
  value : Nat

structure MethodCallback where
  name : Bytes
  argSignature : Bytes
  returnSignature : Bytes
  flags : UInt64
  deriving DecidableEq, Repr

structure Signal where
  name : Bytes
  signature : Bytes
  deriving DecidableEq, Repr

/-- server::interface::interface; `vtable` is the address of its table's first entry. -/
structure Interface where
  vtable : Vec.Addr
  interfaceAdded : Bool
  deriving DecidableEq, Repr

/-- What is sent for the (path, name) of the interface. -/
inductive Emission
  | interfacesAdded
  | interfacesRemoved
  | propertyChanged (name : Bytes)
  deriving DecidableEq, Repr

structure DbusInterface (V : Type) where
  signals : Vec Signal
  propertyCallbacks : Vec (PropertyCallback V)
  methodCallbacks : Vec MethodCallback
  vtable : Vec VtableEntry
  interface : Option Interface
  /-- The values that the functions of the properties share. -/
  values : Nat → V
  emitted : List Emission
  alive : Bool

/-- What a call returns or throws. -/
inductive Outcome
  | returned (value : Bool)
  | sdBusError (error : Int) (text : String)
  | badAnyCast
  deriving DecidableEq, Repr

namespace DbusInterface

variable {V : Type}

def initial [Inhabited V] : DbusInterface V where
  signals := .empty
  propertyCallbacks := .empty
  methodCallbacks := .empty
  vtable := .empty
  interface := none
  values := fun _ => default
  emitted := []
  alive := true

def isInitialized (s : DbusInterface V) : Bool := s.interface.isSome

/-- details::nop_set_value. -/
def nopSetValue (req _old : V) : Bool × V := (true, req)

def emplaceProperty (s : DbusInterface V) (name : Bytes) (type : PropertyType V) (property : V)
    (flags : UInt64) (writable : Bool) (setFunction : V → V → Bool × V) : DbusInterface V :=
  let propertyPtr := s.propertyCallbacks.size
  { s with
    values := fun i => if i = propertyPtr then property else s.values i
    propertyCallbacks := s.propertyCallbacks.emplaceBack
      ⟨name, type, writable, setFunction, flags, propertyPtr⟩ }

section Register

-- sd_bus_member_name_is_valid of libsystemd.
variable (memberNameIsValid : Bytes → Bool)

/-- The other overloads pass their arguments on to these two. -/
def registerPropertyR (s : DbusInterface V) (name : Bytes) (type : PropertyType V) (property : V)
    (flags : UInt64) : Outcome × DbusInterface V :=
  if s.isInitialized then (.returned false, s)
  else if !memberNameIsValid name then (.returned false, s)
  else (.returned true, s.emplaceProperty name type property flags false nopSetValue)

def registerPropertyRw (s : DbusInterface V) (name : Bytes) (type : PropertyType V) (property : V)
    (flags : UInt64) (setFunction : V → V → Bool × V) : Outcome × DbusInterface V :=
  if s.isInitialized then (.returned false, s)
  else if !memberNameIsValid name then (.returned false, s)
  else (.returned true, s.emplaceProperty name type property flags true setFunction)

def registerSignal (s : DbusInterface V) (name signature : Bytes) : Outcome × DbusInterface V :=
  if s.isInitialized then (.returned false, s)
  else if !memberNameIsValid name then (.returned false, s)
  else
    let s := { s with signals := s.signals.emplaceBack ⟨name, signature⟩ }
    (.returned true, s)

/-- The name of a method is not looked at. -/
def registerMethod (s : DbusInterface V) (name argType resultType : Bytes) (flags : UInt64) :
    Outcome × DbusInterface V :=
  if s.isInitialized then (.returned false, s)
  else
    let s := { s with
      methodCallbacks := s.methodCallbacks.emplaceBack ⟨name, argType, resultType, flags⟩ }
    (.returned true, s)

end Register

def signalProperty (s : DbusInterface V) (name : Bytes) : Outcome × DbusInterface V :=
  if !s.isInitialized then (.returned false, s)
  else
    let s := { s with emitted := s.emitted ++ [.propertyChanged name] }
    (.returned true, s)

/-- callback_set_value_instance. The function may change the value and fail. -/
def onSetValue [DecidableEq V] (func : PropertyCallback V) (newValue oldValue : V) :
    SetPropertyReturnValue × V :=
  let set := func.setFunction newValue oldValue
  if !set.1 then (.fail, set.2)
  else if oldValue = set.2 then (.sameValueUpdated, set.2)
  else (.valueUpdated, set.2)

def setProperty [DecidableEq V] (s : DbusInterface V) (changesOnly : Bool) (name : Bytes)
    (value : V) : Outcome × DbusInterface V :=
  if !s.isInitialized then (.returned false, s)
  else
    match s.propertyCallbacks.elements.find? (fun element => element.name = name) with
    | none => (.returned false, s)
    | some func =>
      match func.type.cast value with
      | none => (.badAnyCast, s)
      | some newValue =>
        let set := onSetValue func newValue (s.values func.value)
        let s := { s with values := fun i => if i = func.value then set.2 else s.values i }
        match set.1 with
        | .valueUpdated => (.returned true, (s.signalProperty name).2)
        | .sameValueUpdated => (.returned (!changesOnly), s)
        | .fail => (.returned false, s)

/-- The entry of the property at a place. -/
def propertyEntry (place : Vec.Addr) (element : PropertyCallback V) : VtableEntry :=
  .property ⟨place, element.name⟩ element.type.typeId element.writable place
    (element.flags ||| absoluteOffset)

def methodEntry (place : Vec.Addr) (element : MethodCallback) : VtableEntry :=
  .method ⟨place, element.name⟩ element.argSignature element.returnSignature place
    (element.flags ||| absoluteOffset)

def signalEntry (place : Vec.Addr) (element : Signal) : VtableEntry :=
  .signal ⟨place, element.name⟩ element.signature

/-- One entry for each element, in order. -/
def entriesOf {α : Type} (v : Vec α) (entry : Vec.Addr → α → VtableEntry) : List VtableEntry :=
  v.elements.mapIdx (fun i element => entry (v.addr i) element)

/-- The part of initialize() that fills the table. -/
def fillVtable (s : DbusInterface V) : DbusInterface V :=
  let vtable := s.vtable.reserve
    (2 + s.propertyCallbacks.size + s.methodCallbacks.size + s.signals.size)
  let vtable := vtable.emplaceBack (.start 0)
  let propertyCallbacks := s.propertyCallbacks.shrinkToFit
  let vtable := vtable.emplaceAll (entriesOf propertyCallbacks propertyEntry)
  let methodCallbacks := s.methodCallbacks.shrinkToFit
  let vtable := vtable.emplaceAll (entriesOf methodCallbacks methodEntry)
  let signals := s.signals.shrinkToFit
  let vtable := vtable.emplaceAll (entriesOf signals signalEntry)
  let vtable := (vtable.emplaceBack .end_).shrinkToFit
  { s with propertyCallbacks, methodCallbacks, signals, vtable }

/-- initialize(); `r` is what sd_bus_add_object_vtable returns if it is called. -/
def initializeInterface (s : DbusInterface V) (r : Int) (skipPropertyChangedSignal : Bool) :
    Outcome × DbusInterface V :=
  if s.isInitialized then (.returned false, s)
  else
    let s := s.fillVtable
    if r < 0 then (.sdBusError (-r) "sd_bus_add_object_vtable", s)
    else
      let s := { s with
        interface := some ⟨s.vtable.addr 0, false⟩
        emitted := s.emitted ++ [.interfacesAdded] }
      if skipPropertyChangedSignal then (.returned true, s)
      else (.returned true, s.propertyCallbacks.elements.foldl
        (fun s element => (s.signalProperty element.name).2) s)

/-- server::interface::interface::emit_removed. -/
def Interface.emitRemoved (i : Interface) : List Emission :=
  if i.interfaceAdded then [.interfacesRemoved] else []

/-- The destructor, which destroys the inner interface last. -/
def destroy (s : DbusInterface V) : DbusInterface V :=
  { s with
    emitted := s.emitted ++ [.interfacesRemoved] ++
      (s.interface.map Interface.emitRemoved).getD []
    alive := false }

inductive Call (V : Type)
  | registerPropertyR (name : Bytes) (type : PropertyType V) (property : V) (flags : UInt64)
  | registerPropertyRw (name : Bytes) (type : PropertyType V) (property : V) (flags : UInt64)
      (setFunction : V → V → Bool × V)
  | registerSignal (name signature : Bytes)
  | registerMethod (name argType resultType : Bytes) (flags : UInt64)
  | initializeInterface (r : Int) (skipPropertyChangedSignal : Bool)
  | setProperty (changesOnly : Bool) (name : Bytes) (value : V)
  | signalProperty (name : Bytes)

inductive Event (V : Type)
  | call (c : Call V)
  | destroy

variable [Inhabited V] [DecidableEq V]

def perform (memberNameIsValid : Bytes → Bool) (s : DbusInterface V) :
    Call V → Outcome × DbusInterface V
  | .registerPropertyR name type property flags =>
    s.registerPropertyR memberNameIsValid name type property flags
  | .registerPropertyRw name type property flags setFunction =>
    s.registerPropertyRw memberNameIsValid name type property flags setFunction
  | .registerSignal name signature => s.registerSignal memberNameIsValid name signature
  | .registerMethod name argType resultType flags =>
    s.registerMethod name argType resultType flags
  | .initializeInterface r skip => s.initializeInterface r skip
  | .setProperty changesOnly name value => s.setProperty changesOnly name value
  | .signalProperty name => s.signalProperty name

def step (memberNameIsValid : Bytes → Bool) (s : DbusInterface V) :
    Event V → Option (DbusInterface V)
  | .call c => if s.alive then some (s.perform memberNameIsValid c).2 else none
  | .destroy => if s.alive then some s.destroy else none

def machine (memberNameIsValid : Bytes → Bool) : Machine (DbusInterface V) (Event V) :=
  ⟨initial, step memberNameIsValid⟩

end DbusInterface

end Sdbusplus.Asio
