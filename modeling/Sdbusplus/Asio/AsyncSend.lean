import Mathlib.Logic.Function.Basic
import Sdbusplus.Asio.CoroutineMethod
import Sdbusplus.Asio.YieldMethodCall
import Sdbusplus.Base.Machine

namespace Sdbusplus.Asio.AsyncSend
open Message
open YieldMethodCall (Request SdBus)

/-- The arguments of async_method_call. The handler takes `retTypes` after the error code,
and before them the message if it wants it. -/
structure MethodCall extends YieldMethodCall.MethodCall where
  wantsMessage : Bool

/-- What a handler gets as its message_t: the call, null if it could not be made, or what
came of it. -/
inductive Msg
  | null
  | request (m : Request)
  | reply (m : Reply)

namespace Msg

/-- What can be read of it. An error has its description in it. -/
def body : Msg → List Wire
  | .null | .request _ => []
  | .reply (.methodReturn items) => items
  | .reply (.methodError e) => [.basic .string e.message.toUTF8.toList]

/-- message::get_errno of what came. -/
def getErrno (errnos : ErrnoTable) : Reply → Int
  | .methodReturn _ => 0
  | .methodError e => errnos.getErrno (some e)

end Msg

/-- responseData. Its values are none if reading has thrown, which leaves those that were
read before. -/
structure Response (ts : List Ty) where
  ec : YieldMethodCall.ErrorCode
  message : Option Msg
  values : Option (TupleVal ts)

variable (h : HashOrder)

/-- What connection::unpack calls the handler with, none if the reading never ends. -/
def MethodCall.unpack (c : MethodCall) (ec : YieldMethodCall.ErrorCode) (r : Msg) :
    Option (Response c.retTypes) :=
  let message := if c.wantsMessage then some r else none
  if ec.failed then some ⟨ec, message, some (tupleDefault c.retTypes)⟩
  else
    match YieldMethodCall.unpack h c.retTypes r.body with
    | .ok values => some ⟨ec, message, some values⟩
    | .error .diverges => none
    | .error _ => some ⟨.ofErrno YieldMethodCall.invalidArgument, message, none⟩

/-- unpack_userdata, with the handler of a call. -/
structure Context where
  number : Nat
  call : MethodCall

/-- A handler that was called. -/
structure Invocation where
  number : Nat
  call : MethodCall
  response : Response call.retTypes

structure World where
  /-- The calls, with what sd_bus_call_async returns of each. -/
  calls : List (MethodCall × Int)
  /-- The memory, by address. -/
  contexts : Nat → Option Context
  /-- The userdata of the calls that sd-bus keeps. -/
  slots : List Nat
  /-- What the unique_ptrs hold whose handlers have not returned, the innermost first. -/
  stack : List Nat
  /-- The userdata of the calls that sd-bus has dropped with the connection. -/
  leaked : List Nat
  invoked : List Invocation
  /-- What sd-bus has come back with, of which calls. -/
  came : List (Nat × Option Reply)
  /-- The calls of which that was no message. -/
  lost : List Nat
  /-- Set when memory is used that is not allocated. -/
  faulted : Bool

namespace World

/-- context->handler_(ec, message), of a unique_ptr. -/
def invoke (w : World) (a : Nat) (ec : YieldMethodCall.ErrorCode) (r : Msg) : Option World :=
  match w.contexts a with
  | none => some { w with faulted := true }
  | some x => do
    let response ← x.call.unpack h ec r
    some { w with
      stack := a :: w.stack
      invoked := w.invoked ++ [⟨x.number, x.call, response⟩] }

/-- The end of a unique_ptr. -/
def free (w : World) (a : Nat) : World :=
  match w.contexts a with
  | none => { w with faulted := true }
  | some _ => { w with contexts := Function.update w.contexts a none }

/-- async_send_handler, where sd_bus_call_async returns `r`. -/
def asyncSend (w : World) (x : Context) (m : Request) (a : Nat) (r : Int) : Option World :=
  if (w.contexts a).isSome then none
  else
    let w := { w with contexts := Function.update w.contexts a (some x) }
    if r < 0 then w.invoke h a (.ofErrno (-r)) (.request m)
    else some { w with slots := w.slots ++ [a] }

/-- do_unpack, of userdata that sd-bus has dropped before. -/
def doUnpack (errnos : ErrnoTable) (w : World) (a : Nat) : Option Reply → Option World
  | none =>
    let number := (w.contexts a).map Context.number
    some { w.free a with lost := w.lost ++ number.toList }
  | some m => w.invoke h a (.ofErrno (Msg.getErrno errnos m)) (.reply m)

variable (lib : LibSystemd) (errnos : ErrnoTable) (bus : SdBus)

/-- async_method_call_timed; `a` is where its context is if it gets one. -/
def asyncMethodCall (w : World) (c : MethodCall) (a : Nat) (r : Int) : Option World :=
  let x : Context := ⟨w.calls.length, c⟩
  let w := { w with calls := w.calls ++ [(c, r)] }
  match c.build lib bus with
  | .error e => do
    let response ← c.unpack h (.ofErrno e.val) .null
    some { w with invoked := w.invoked ++ [⟨x.number, c, response⟩] }
  | .ok m => w.asyncSend h x m a r

end World

inductive Event
  | call (c : MethodCall) (a : Nat) (r : Int)
  /-- What comes of the i-th call that sd-bus keeps. -/
  | unpack (i : Nat) (m : Option Reply)
  /-- The handler returns that was called last. -/
  | returned
  | closed

variable (lib : LibSystemd) (errnos : ErrnoTable) (bus : SdBus)

def step (w : World) : Event → Option World
  | .call c a r => w.asyncMethodCall h lib bus c a r
  | .unpack i m => do
    let a ← w.slots[i]?
    let number := (w.contexts a).map Context.number
    let w := { w with
      slots := w.slots.eraseIdx i
      came := w.came ++ number.toList.map (fun n => (n, m)) }
    w.doUnpack h errnos a m
  | .returned =>
    match w.stack with
    | a :: stack => some (({ w with stack } : World).free a)
    | [] => none
  | .closed => some { w with slots := [], leaked := w.leaked ++ w.slots }

def initial : World := ⟨[], fun _ => none, [], [], [], [], [], [], false⟩

def machine : Machine World Event := ⟨initial, step h lib errnos bus⟩

end Sdbusplus.Asio.AsyncSend
