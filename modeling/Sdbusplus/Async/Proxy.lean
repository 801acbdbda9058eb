import Sdbusplus.Asio.CoroutineMethod
import Sdbusplus.Asio.YieldMethodCall

namespace Sdbusplus.Async
open Message
open Asio (BusError ErrnoTable Reply Thrown Abort)
open Asio.YieldMethodCall (Destination Request SdBus)

/-- A std::string_view, whose data() need not end where it does. -/
structure StringView where
  text : Bytes
  /-- What follows it in memory. -/
  after : Bytes

/-- data(), as libsystemd takes it for a C string. -/
def StringView.data (v : StringView) : Bytes := cString (v.text ++ v.after)

/-- string_t. -/
abbrev StringT : Bool → Type
  | true => Bytes
  | false => StringView

/-- The C string of one. -/
def cStr : (preserved : Bool) → StringT preserved → Bytes
  | true, s => cString s
  | false, v => v.data

/-- value_t: a part of the address that is not there yet is a std::monostate. -/
abbrev Value (preserved : Bool) : Bool → Type
  | true => StringT preserved
  | false => Unit

/-- proxy<S, P, I, Preserved>. -/
structure Proxy (S P I preserved : Bool) where
  s : Value preserved S
  p : Value preserved P
  i : Value preserved I

namespace Proxy

variable {S P I preserved : Bool}

def empty : Proxy false false false preserved := ⟨(), (), ()⟩

def service (x : Proxy false P I preserved) (s : StringT preserved) : Proxy true P I preserved :=
  ⟨s, x.p, x.i⟩

def path (x : Proxy S false I preserved) (p : StringT preserved) : Proxy S true I preserved :=
  ⟨x.s, p, x.i⟩

def interface (x : Proxy S P false preserved) (i : StringT preserved) : Proxy S P true preserved :=
  ⟨x.s, x.p, i⟩

section calls

variable (lib : LibSystemd) (bus : SdBus)

/-- What call() builds before there is a Sender, or the error it throws. -/
def request (x : Proxy true true true preserved) (method : StringView) (ts : List Ty)
    (ss : TupleVal ts) : Except Asio.YieldMethodCall.Errno Request :=
  let d : Destination := ⟨cStr preserved x.s, cStr preserved x.p, cStr preserved x.i, method.data⟩
  match bus.newMethodCall d with
  | some e => .error e
  | none => .ok ⟨d, (lib.performAll .empty (appendTuple ts ss)).items⟩

end calls

/-- callback_operation::handler: the message that it completes with, or the exception. -/
def handler (m : Reply) (e : Option BusError) : Except Thrown Reply :=
  if e.isSome then .error (.sdBusError e)
  else
    match m with
    | .methodError err => .error (.sdBusError (some err))
    | .methodReturn items => .ok (.methodReturn items)

/-- message::unpack, of a message that is not an error. -/
def unpack (h : HashOrder) (errnos : ErrnoTable) (ts : List Ty) : Reply → Except Abort (TupleVal ts)
  | .methodReturn items =>
    match readTuple h ts (tupleDefault ts) (.start items) with
    | .ok (rs, _) => .ok rs
    | .error e => .error (Asio.CoroutineMethod.ofRead errnos e)
  | .methodError _ => .error (.threw .other)

/-- How the Sender of call<Rs...>() completes when sd-bus calls the handler: with a value, or
with the exception that is thrown at what awaits it. -/
def completes (h : HashOrder) (errnos : ErrnoTable) (rs : List Ty) (m : Reply)
    (e : Option BusError) : Except Abort (TupleVal rs) :=
  match handler m e with
  | .error x => .error (.threw x)
  | .ok m => unpack h errnos rs m

section properties

/-- A C string as such a string. -/
def stringT : (preserved : Bool) → Bytes → StringT preserved
  | true, s => s
  | false, s => ⟨s, [0]⟩

def dbusPropIntf : Bytes := "org.freedesktop.DBus.Properties".toUTF8.toList

variable (lib : LibSystemd) (bus : SdBus) (x : Proxy true true true preserved)

def propIntf : Proxy true true true preserved := { x with i := stringT preserved dbusPropIntf }

/-- What get_property sends: the names are const char pointers. -/
def getRequest (property : StringView) : Except Asio.YieldMethodCall.Errno Request :=
  request lib bus x.propIntf ⟨"Get".toUTF8.toList, [0]⟩ [.basic .cString, .basic .cString]
    (cStr preserved x.i, property.data, ())

/-- The value that is in a std::variant of one alternative. -/
def onlyAlternative {t : Ty} : (Ty.variant t []).Val → t.Val
  | .inl v => v

/-- How get_property completes. -/
def getCompletes (h : HashOrder) (errnos : ErrnoTable) (t : Ty) (m : Reply)
    (e : Option BusError) : Except Abort t.Val :=
  (completes h errnos [.variant t []] m e).map (fun v => onlyAlternative v.1)

/-- What set_property sends. -/
def setRequest {t : Ty} (property : StringView) (value : t.Val) :
    Except Asio.YieldMethodCall.Errno Request :=
  request lib bus x.propIntf ⟨"Set".toUTF8.toList, [0]⟩
    [.basic .cString, .basic .cString, .variant t []]
    (cStr preserved x.i, property.data, .inl value, ())

/-- What get_all_properties sends. -/
def getAllRequest : Except Asio.YieldMethodCall.Errno Request :=
  request lib bus x.propIntf ⟨"GetAll".toUTF8.toList, [0]⟩ [.basic .cString]
    (cStr preserved x.i, ())

theorem string_comparable : Basic.string ≠ .cString := by decide

/-- The map that get_all_properties completes with, by the type of its values. -/
def allProperties (v : Ty) : Ty := .map .hashed (.basic .string string_comparable) v

def getAllCompletes (h : HashOrder) (errnos : ErrnoTable) (v : Ty) (m : Reply)
    (e : Option BusError) : Except Abort (allProperties v).Val :=
  (completes h errnos [allProperties v] m e).map Prod.fst

end properties

end Proxy

end Sdbusplus.Async
