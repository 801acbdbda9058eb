import Sdbusplus.Async.Proxy
import Sdbusplus.Base.Exchange
import Sdbusplus.Message.Encoding
import Sdbusplus.Server.MethodCallback

namespace Sdbusplus.Async.Calls
open Message
open Asio (BusError ErrnoTable Reply)
open Server.MethodCallback (Thrown Abort Bus Callback Frame setError readArgs orThrow methodReturn
  returned serve)

/-- A method of an interface definition, with the names of the errors it declares, and
whether the class implements it by a task. -/
structure Method where
  args : List Ty
  returns : List Ty
  errors : List String
  isAsync : Bool

/-- What a method_call of the class comes to. -/
abbrev MethodCall (m : Method) := TupleVal m.args → Except Thrown (TupleVal m.returns)

/-- The arguments of the tasks that were spawned. -/
abbrev Tasks (m : Method) := List (TupleVal m.args)

variable (bus : Bus) (m : Method)

/-- set_current_exception. -/
def keepException (σ : Type) (e : Thrown) : Callback σ Unit :=
  modify (fun s => { s with currentException := some e })

/-- The arguments, or else what set_error returned. -/
def unpack (items : List Wire) : Callback (Tasks m) (TupleVal m.args ⊕ Int) :=
  tryCatch (Sum.inl <$> readArgs bus m.args items) (fun
    | .threw (.internal e) => Sum.inr <$> setError bus e
    | e => throw e)

/-- From new_method_return to method_return, with the method_call between them. -/
def respond {σ : Type} (f : MethodCall m) (args : TupleVal m.args) : Callback σ Unit := do
  orThrow bus bus.newMethodReturn
  match f args with
  | .ok r => methodReturn bus (returned bus.lib m.returns r)
  | .error e => throw (.threw e)

/-- context::spawn, which throws a std::logic_error after request_stop. -/
def spawn (stopRequested : Bool) (args : TupleVal m.args) : Callback (Tasks m) Unit :=
  if stopRequested then throw (.threw .standard)
  else modify (fun s => { s with object := s.object ++ [args] })

/-- What the callback catches, first the declared errors. -/
def catchDeclared : Abort → Callback (Tasks m) Int
  | .threw (.generated e) =>
    if e.name ∈ m.errors then setError bus (some e)
    else do
      keepException _ (.generated e)
      pure (-einval)
  | .threw .foreign => throw (.threw .foreign)
  | .threw e => do
    keepException _ e
    pure (-einval)
  | .diverged => throw .diverged

/-- What a call finds at the server: what the calls into libsystemd return, and what
method_call comes to there, with results that can be appended. -/
structure Surroundings (lib : LibSystemd) (m : Method) where
  newMethodReturn : Int
  send : Int
  f : MethodCall m
  storable : ∀ args r, f args = .ok r → StorableTuple lib m.returns r

/-- When its request arrives, also whether the context was asked to stop. -/
structure Arrival (lib : LibSystemd) (m : Method) extends Surroundings lib m where
  stopRequested : Bool

def Surroundings.onBus {m : Method} (x : Surroundings bus.lib m) : Bus :=
  { bus with newMethodReturn := x.newMethodReturn, send := x.send }

/-- The try block of _callback_m_. -/
def handle (y : Arrival bus.lib m) (items : List Wire) : Callback (Tasks m) Int := do
  match ← unpack bus m items with
  | .inr r => pure r
  | .inl args =>
    if m.isAsync then spawn m y.stopRequested args else respond (y.onBus bus) m y.f args
    pure 1

/-- _callback_m_, of the generated asynchronous server. -/
def callback (y : Arrival bus.lib m) (items : List Wire) : Callback (Tasks m) Int :=
  tryCatch (handle bus m y items) (catchDeclared bus m)

def idle (σ : Type) (object : σ) : Frame σ := ⟨object, 0, none, [], none⟩

/-- The reply that was sent, or else the task that was spawned. -/
def firstOf {m : Method} : List Reply → Tasks m → Option (Reply ⊕ TupleVal m.args)
  | reply :: _, _ => some (.inl reply)
  | [], args :: _ => some (.inr args)
  | [], [] => none

/-- What a request comes to at once. -/
def accept (y : Arrival bus.lib m) (items : List Wire) : Option (Reply ⊕ TupleVal m.args) :=
  match (serve bus.errnos m.args (callback bus m y items) items).exec (idle _ []) with
  | (.ok (), s) => firstOf s.sent s.object
  | (.error _, _) => none

/-- A message error of an exception. -/
def methodError {σ : Type} (e : BusError) : Callback σ Unit := do
  orThrow bus bus.newMethodReturn
  methodReturn bus (.methodError e)

/-- What a task catches. -/
def catchInTask : Abort → Callback Unit Unit
  | .threw (.generated e) =>
    if e.name ∈ m.errors then methodError bus e else keepException _ (.generated e)
  | .threw .foreign => throw (.threw .foreign)
  | .threw e => keepException _ e
  | .diverged => throw .diverged

/-- A task that was spawned for a call. -/
def task (f : MethodCall m) (args : TupleVal m.args) : Callback Unit Unit :=
  tryCatch (respond bus m f args) (catchInTask bus m)

/-- What a task sends, if anything. What it does not catch ends the process. -/
def finish (args : TupleVal m.args) (x : Surroundings bus.lib m) : Option (Option Reply) :=
  match (task (x.onBus bus) m x.f args).exec (idle _ ()) with
  | (.ok (), s) => some s.sent.head?
  | (.error _, _) => none

/-- Arguments that can be appended. -/
abbrev Arguments (lib : LibSystemd) (m : Method) :=
  { vs : TupleVal m.args // StorableTuple lib m.args vs }

end Sdbusplus.Async.Calls
