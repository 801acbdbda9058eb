import Sdbusplus.Asio.DbusInterface
import Sdbusplus.Message.Types

namespace Sdbusplus.Asio.SetProperty
open Message

/-- What a setter or a message can throw. -/
inductive Thrown
  | sdbusplus (name description : String)
  | other
  deriving DecidableEq, Repr

/-- A set callback with what it returns or throws, and what it leaves as the value. -/
structure Setter (V : Type) where
  func : V → V → Except Thrown Bool × V
  /-- Unless it returns true it does not touch the value. -/
  unmodified : ∀ newValue value, (func newValue value).1 ≠ .ok true →
    (func newValue value).2 = value

/-- operator== of a type. It need not be the identity, nor reflexive. -/
structure Equality (V : Type) where
  same : V → V → Bool
  trans : ∀ a b c, same a b = true → same b c = true → same a c = true

/-- A property_callback of register_property_rw. Its functions share the value at `value`. -/
structure Callback (V : Type) where
  name : Bytes
  type : PropertyType V
  equality : Equality V
  setFunction : Setter V
  getFunction : V → V
  value : Nat

/-- An interface from initialize() on: sd-bus takes no table with two members of a name. -/
structure Interface (V : Type) where
  isInitialized : Bool
  properties : List (Callback V)
  distinct : (properties.map Callback.name).Nodup
  values : Nat → V
  /-- The names of which PropertiesChanged was sent. -/
  emitted : List Bytes

/-- What a D-Bus Set is answered with. -/
inductive Reply
  | handled
  | error (name description : String)
  | invalidArgs
  deriving DecidableEq, Repr

/-- details::nop_get_value. -/
def nopGetValue {V : Type} (value : V) : V := value

namespace Interface

variable {V : Type}

def store (s : Interface V) (p : Callback V) (value : V) : Interface V :=
  { s with values := fun i => if i = p.value then value else s.values i }

def signalProperty (s : Interface V) (name : Bytes) : Interface V :=
  if s.isInitialized then { s with emitted := s.emitted ++ [name] } else s

/-- callback_set_message_instance; `m` is what the message unpacks to. -/
def onSetMessage (s : Interface V) (p : Callback V) (m : Except Thrown V) :
    Except Thrown SetPropertyReturnValue × Interface V :=
  match m with
  | .error e => (.error e, s)
  | .ok input =>
    let oldValue := s.values p.value
    let (set, value) := p.setFunction.func input oldValue
    let s := s.store p value
    match set with
    | .error e => (.error e, s)
    | .ok false => (.ok .fail, s)
    | .ok true =>
      if p.equality.same oldValue value then (.ok .sameValueUpdated, s)
      else (.ok .valueUpdated, s)

/-- callback_set_value_instance; std::any_cast throws an exception of its own. -/
def onSetValue (s : Interface V) (p : Callback V) (value : V) :
    Except Thrown SetPropertyReturnValue × Interface V :=
  match p.type.cast value with
  | none => (.error .other, s)
  | some newValue =>
    let oldValue := s.values p.value
    let (set, value) := p.setFunction.func newValue oldValue
    let s := s.store p value
    match set with
    | .error e => (.error e, s)
    | .ok false => (.ok .fail, s)
    | .ok true =>
      if p.equality.same oldValue value then (.ok .sameValueUpdated, s)
      else (.ok .valueUpdated, s)

/-- set_property<PropertyType, changesOnly>. -/
def setProperty (s : Interface V) (changesOnly : Bool) (name : Bytes) (value : V) :
    Except Thrown Bool × Interface V :=
  if !s.isInitialized then (.ok false, s)
  else
    match s.properties.find? (fun element => element.name = name) with
    | none => (.ok false, s)
    | some func =>
      match s.onSetValue func value with
      | (.error e, s) => (.error e, s)
      | (.ok .valueUpdated, s) => (.ok true, s.signalProperty name)
      | (.ok .sameValueUpdated, s) => (.ok (!changesOnly), s)
      | (.ok .fail, s) => (.ok false, s)

/-- set_handler, which sd-bus calls with the property_callback as its userdata. -/
def setHandler (s : Interface V) (p : Callback V) (m : Except Thrown V) : Reply × Interface V :=
  match s.onSetMessage p m with
  | (.error (.sdbusplus name description), s) => (.error name description, s)
  | (.error .other, s) => (.invalidArgs, s)
  | (.ok .valueUpdated, s) => (.handled, s.signalProperty p.name)
  | (.ok .sameValueUpdated, s) => (.handled, s)
  | (.ok .fail, s) => (.invalidArgs, s)

/-- get_handler: what is sent, and what is stored then. -/
def getHandler (s : Interface V) (p : Callback V) : V × Interface V :=
  let value := p.getFunction (s.values p.value)
  (value, s.store p value)

/-- The two ways to write a property. -/
inductive Write (V : Type)
  | setProperty (changesOnly : Bool) (value : V)
  | set (m : Except Thrown V)

def write (s : Interface V) (p : Callback V) : Write V → Interface V
  | .setProperty changesOnly value => (s.setProperty changesOnly p.name value).2
  | .set m => (s.setHandler p m).2

/-- A client that gets the property again when PropertiesChanged names it. -/
def follow (p : Callback V) (c : V × Interface V) (w : Write V) : V × Interface V :=
  let s := c.2.write p w
  if p.name ∈ s.emitted.drop c.2.emitted.length then s.getHandler p else (c.1, s)

end Interface

end Sdbusplus.Asio.SetProperty
