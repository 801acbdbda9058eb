import Sdbusplus.Async.Proxy
import Sdbusplus.Base.Machine
import Sdbusplus.Message.Encoding
import Sdbusplus.Server.PropertyCallback

namespace Sdbusplus.Async.PropertyMirror
open Message
open Asio (BusError ErrnoTable Reply)
open Asio.YieldMethodCall (SdBus)
open Server.MethodCallback (Bus Frame)
open Server.PropertyCallback

/-- What the server sends to the client, in this order: its signals and its answers to Get. -/
inductive Note (I : Interface)
  | signal (x : Signal)
  | value (i : Index I) (r : Reply)

/-- What there is for some of the properties. -/
abbrev Mirror (I : Interface) := (i : Index I) → Option (I.Val i)

/-- An object, and a client that keeps what it hears of its properties: what is under way to
the client; for each property the value that was set last; and those that were set with
skipSignal. -/
structure World (I : Interface) where
  frame : Frame (Object I)
  queue : List (Note I)
  mirror : Mirror I
  written : Mirror I
  silent : List (Index I)

abbrev Header := { header : Server.Transaction.Header // header.callCookie ≠ none }

inductive Event (lib : LibSystemd) (I : Interface)
  /-- set_property of a proxy. -/
  | set (i : Index I) (value : { v : I.Val i // Storable lib _ v }) (header : Header)
  /-- A call of the setter in the server. -/
  | assign (i : Index I) (value : { v : I.Val i // Storable lib _ v }) (skipSignal : Bool)
  /-- get_property of a proxy. -/
  | get (i : Index I) (header : Header)
  | deliver

section client

variable {I : Interface} (h : HashOrder) (errnos : ErrnoTable)

def learn (i : Index I) (r : Reply) (m : Mirror I) : Mirror I :=
  match Proxy.getCompletes h errnos (I.property i).type r none with
  | .ok v => Function.update m i (some v)
  | .error _ => m

/-- An entry of what has changed. -/
def learnChanged (m : Mirror I) (p : Bytes × Wire) : Mirror I :=
  match I.find p.1 with
  | some i => learn h errnos i (.methodReturn [p.2]) m
  | none => m

def hear (m : Mirror I) : Note I → Mirror I
  | .signal x => x.changed.foldl (learnChanged h errnos) m
  | .value i r => learn h errnos i r m

/-- What the client knows when all that is under way has come. -/
def follow (queue : List (Note I)) (m : Mirror I) : Mirror I := queue.foldl (hear h errnos) m

end client

section machine

variable {I : Interface} {preserved : Bool} (h : HashOrder) (errnos : ErrnoTable) (peer : SdBus)
  (x : Proxy true true true preserved) (bus : Bus)

/-- A name in memory. -/
def view (name : Bytes) : StringView := ⟨name, [0]⟩

/-- The signals that were sent since. -/
def signals (before after : Object I) : List (Note I) :=
  (after.emitted.drop before.emitted.length).map .signal

/-- The value that a Set leaves as the last one, if it succeeds. -/
def record (w : World I) (i : Index I) (value : I.Val i) (r : Option Reply) : Mirror I :=
  match r.map (fun m => Proxy.completes h errnos [] m none) with
  | some (.ok _) => Function.update w.written i (some value)
  | some (.error _) | none => w.written

def step (w : World I) : Event bus.lib I → Option (World I)
  | .set i value header => do
    let req ← (x.setRequest bus.lib peer (view (I.property i).name) value.val).toOption
    match (busSet bus header.val req.items).exec w.frame with
    | (.ok (), frame) =>
      some { w with
        frame
        queue := w.queue ++ signals w.frame.object frame.object
        written := record h errnos w i value.val frame.sent.getLast? }
    | (.error _, _) => none
  | .assign i value skipSignal =>
    match (setter bus i value.val skipSignal).exec w.frame with
    | (.ok _, frame) =>
      some { w with
        frame
        queue := w.queue ++ signals w.frame.object frame.object
        written := Function.update w.written i (some value.val)
        silent := if skipSignal then i :: w.silent else w.silent }
    | (.error _, _) => none
  | .get i header => do
    let req ← (x.getRequest bus.lib peer (view (I.property i).name)).toOption
    match (busGet bus header.val req.items).exec w.frame with
    | (.ok (), frame) =>
      let r ← frame.sent.getLast?
      some { w with frame, queue := w.queue ++ [.value i r] }
    | (.error _, _) => none
  | .deliver =>
    match w.queue with
    | n :: queue => some { w with queue, mirror := hear h errnos w.mirror n }
    | [] => none

def initial (object : Object I) : World I :=
  ⟨⟨object, 0, none, [], none⟩, [], fun _ => none, fun _ => none, []⟩

def machine (object : Object I) : Machine (World I) (Event bus.lib I) :=
  ⟨initial object, step h errnos peer x bus⟩

end machine

end Sdbusplus.Async.PropertyMirror
