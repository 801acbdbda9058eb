import Sdbusplus.Message.Read
import Sdbusplus.Message.Append

namespace Sdbusplus.Asio.YieldMethodCall
open Message

/-- boost::system::error_code. -/
structure ErrorCode where
  value : Int
  category : String
  deriving DecidableEq, Repr

namespace ErrorCode

/-- Its conversion to bool. -/
def failed (ec : ErrorCode) : Bool := ec.value ≠ 0

/-- boost::system::errc::make_error_code. -/
def ofErrno (e : Int) : ErrorCode := ⟨e, "generic"⟩

end ErrorCode

/-- The errno of an error, which is not 0. -/
abbrev Errno := { e : Int // 0 < e }

structure Destination where
  service : Bytes
  objpath : Bytes
  interf : Bytes
  method : Bytes
  deriving DecidableEq, Repr

structure Request where
  destination : Destination
  items : List Wire

/-- What the handler given to async_send_handler is called with: the error, and what can be
read of the message. -/
structure Answer where
  error : Nat
  message : List Wire

/-- A failure of sd_bus_call_async. Nothing is sent then. -/
structure Refusal where
  error : { e : Nat // 0 < e }
  /-- Whether the request was sealed before. If not, nothing can be read of it. -/
  isSealed : Bool

/-- The handler gets the request back. -/
def Refusal.answer (x : Refusal) (m : Request) : Answer :=
  ⟨x.error, if x.isSealed then m.items else []⟩

/-- The bus with its peers: which names sd_bus_message_new_method_call refuses, and whether
a request is sent, after those sent before, and how it is answered. -/
structure SdBus where
  newMethodCall : Destination → Option Errno
  callAsync : List Request → Request → Except Refusal Answer

/-- The arguments of yield_method_call that are the call's own. -/
structure MethodCall where
  destination : Destination
  inputArgs : List Ty
  a : TupleVal inputArgs
  retTypes : List Ty

/-- The error_code that the calls share, and what they have sent. -/
structure State where
  ec : ErrorCode
  sent : List Request

variable (h : HashOrder) (lib : LibSystemd) (bus : SdBus)

/-- The first try block. message::append looks at no result of libsystemd. -/
def MethodCall.build (c : MethodCall) : Except Errno Request :=
  let d := c.destination
  let d := ⟨cString d.service, cString d.objpath, cString d.interf, cString d.method⟩
  match bus.newMethodCall d with
  | some e => .error e
  | none => .ok ⟨d, (lib.performAll .empty (appendTuple c.inputArgs c.a)).items⟩

/-- async_send_yield with `yield[ec]`, which sets `ec` in any case. -/
def State.asyncSendYield (s : State) (m : Request) : Answer × State :=
  match bus.callAsync s.sent m with
  | .ok r => (r, ⟨.ofErrno r.error, s.sent ++ [m]⟩)
  | .error x => (x.answer m, ⟨.ofErrno (x.answer m).error, s.sent⟩)

/-- message::unpack. -/
def unpack (ts : List Ty) (r : List Wire) : Except Exception (TupleVal ts) :=
  (readTuple h ts (tupleDefault ts) (.start r)).map Prod.fst

def invalidArgument : Nat := 22

/-- What it returns, none if the unpacking never ends, and leaves. -/
def yieldMethodCall (c : MethodCall) (s : State) : Option (TupleVal c.retTypes) × State :=
  match c.build lib bus with
  | .error e =>
    -- `ec` is set now, so that the null message is not sent.
    (some (tupleDefault c.retTypes), { s with ec := .ofErrno e.val })
  | .ok m =>
    if s.ec.failed then (some (tupleDefault c.retTypes), s)
    else
      let (r, s) := s.asyncSendYield bus m
      match unpack h c.retTypes r.message with
      | .ok value => (some value, s)
      | .error .diverges => (none, s)
      | .error _ => (some (tupleDefault c.retTypes), { s with ec := .ofErrno invalidArgument })

/-- Calls one after the other with what they leave, none if one does not return. -/
def yieldMethodCalls : List MethodCall → State → Option State
  | [], s => some s
  | c :: cs, s =>
    match yieldMethodCall h lib bus c s with
    | (some _, s) => yieldMethodCalls cs s
    | (none, _) => none

end Sdbusplus.Asio.YieldMethodCall
