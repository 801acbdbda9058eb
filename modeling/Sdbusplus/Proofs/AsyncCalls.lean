import Sdbusplus.Async.Calls
import Sdbusplus.Proofs.RemoteCall

namespace Sdbusplus.Proofs.AsyncCalls
open Message hiding process
open Async (Proxy)
open Async.Calls
open Server.MethodCallback hiding Method callback catchDeclared respond
open Throwing Proofs.RoundTrip Proofs.MethodCallback Proofs.RemoteCall
open Asio (BusError ErrnoTable Reply)

variable {m : Method} {σ : Type} {s : Frame σ} {bus : Bus} {f : MethodCall m}
  {args : TupleVal m.args}

section results

/-- What comes of the arguments between new_method_return and method_return. -/
def attempt (bus : Bus) (f : MethodCall m) (args : TupleVal m.args) :
    Except Thrown (TupleVal m.returns) :=
  if bus.newMethodReturn < 0 then
    .error (.internal (some (bus.errnos.setErrno (-bus.newMethodReturn))))
  else
    match f args with
    | .error e => .error e
    | .ok r =>
      if bus.send < 0 then .error (.internal (some (bus.errnos.setErrno (-bus.send)))) else .ok r

/-- An exception that a task does not answer, and that does not end the process. -/
def Undeclared (m : Method) : Thrown → Prop
  | .generated e => e.name ∉ m.errors
  | .internal _ | .standard => True
  | .foreign => False

end results

section requests

variable {y : Arrival bus.lib m} {items : List Wire} {t : Frame (Tasks m)} {n : Int}

/-- What a request with these arguments comes to: a task, or the results or the error of a
method that is none, or the error that stands for all others. -/
inductive Accepted (bus : Bus) (y : Arrival bus.lib m) (ws : TupleVal m.args) :
    Reply ⊕ TupleVal m.args → Prop
  | spawned : m.isAsync = true → Accepted bus y ws (.inr ws)
  | stopped : m.isAsync = true → y.stopRequested = true →
    Accepted bus y ws (.inl (.methodError (bus.errnos.setErrno (-einval))))
  | results (r : TupleVal m.returns) : m.isAsync = false →
    attempt (y.onBus bus) y.f ws = .ok r →
    Accepted bus y ws (.inl (returned bus.lib m.returns r))
  | declared (e : BusError) : m.isAsync = false →
    attempt (y.onBus bus) y.f ws = .error (.generated e) → e.name ∈ m.errors →
    Accepted bus y ws (.inl (.methodError e))
  | undeclared (e : Thrown) : m.isAsync = false → attempt (y.onBus bus) y.f ws = .error e →
    Undeclared m e → Accepted bus y ws (.inl (.methodError (bus.errnos.setErrno (-einval))))

end requests

section runs

variable {lib : LibSystemd} {h : HashOrder} {errnos : ErrnoTable}

/-- The calls of a method, and what has become of them. -/
abbrev Calls (bus : Bus) (m : Method) (lib : LibSystemd) :=
  Exchange.State (Arguments lib m) Reply (TupleVal m.args) (Surroundings bus.lib m)
    (Arrival bus.lib m) (Except Asio.Abort (TupleVal m.returns))

variable {s : Calls bus m lib}

/-- What the client is told then. -/
def Told (m : Method) : Except BusError (TupleVal m.returns) →
    Except Asio.Abort (TupleVal m.returns) → Prop
  | .ok r, o => ∃ r', o = .ok r' ∧ EqualTuple m.returns r r'
  | .error e, o => o = .error (.threw (.sdBusError (some e)))

/-- A method of a task that gives its argument back. -/
def echo : Async.Calls.Method := ⟨[.basic .uint16], [.basic .uint16], [], true⟩

def echoes : Surroundings someBus.lib echo := ⟨0, 0, .ok, fun _ _ _ => ⟨trivial, trivial⟩⟩

def twoCalls : List (Exchange.Event (Arguments lenient echo) (Surroundings someBus.lib echo)
    (Arrival someBus.lib echo)) :=
  [.ask ⟨(5#16, ()), trivial, trivial⟩, .ask ⟨(6#16, ()), trivial, trivial⟩,
    .accept 1 ⟨echoes, false⟩, .accept 0 ⟨echoes, false⟩, .finish 0 echoes, .finish 0 echoes,
    .arrive 1, .arrive 0]

end runs

end Sdbusplus.Proofs.AsyncCalls
