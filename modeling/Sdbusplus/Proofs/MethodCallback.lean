import Sdbusplus.Proofs.RoundTrip
import Sdbusplus.Server.MethodCallback

namespace Sdbusplus.Proofs.MethodCallback
open Message hiding process
open Server.MethodCallback Throwing
open Proofs.RoundTrip (newestFirst lenient)
open Asio (BusError ErrnoTable Reply)

variable {σ α : Type} {bus : Bus} {m : Method σ} {msg : Call} {s t : Frame σ} {a : Abort}
  {n : Int} {e : Option BusError}

section basics

/-- What a part of the callback leaves as it is: nothing was sent, and neither the error nor
the exception was set. -/
def Silent (s t : Frame σ) : Prop :=
  t.sent = s.sent ∧ t.error = s.error ∧ t.currentException = s.currentException

theorem Silent.refl (s : Frame σ) : Silent s s := ⟨rfl, rfl, rfl⟩

theorem Silent.trans {u : Frame σ} (h : Silent s t) (h' : Silent t u) : Silent s u :=
  ⟨h'.1.trans h.1, h'.2.1.trans h.2.1, h'.2.2.trans h.2.2⟩

/-- A program that sends nothing. -/
def Quiet (x : Callback σ α) : Prop := ∀ s, Silent s (x.exec s).2

theorem Quiet.bind {β : Type} {x : Callback σ α} {f : α → Callback σ β} (hx : Quiet x)
    (hf : ∀ a, Quiet (f a)) : Quiet (x >>= f) := by
  intro s
  refine bind_keeps (P := Silent s) (.refl s) (fun t ht => ?_) (fun a t ht => ?_)
  · exact ht.trans (hx t)
  · exact ht.trans (hf a t)

theorem Quiet.pure {a : α} : Quiet (pure a : Callback σ α) := fun s => .refl s

theorem Quiet.throw : Quiet (throw a : Callback σ α) := fun s => .refl s

theorem quiet_orThrow {r : Int} : Quiet (orThrow bus r : Callback σ Unit) := by
  unfold orThrow
  split
  · exact .throw
  · exact .pure

theorem quiet_setId : Quiet (setId bus msg : Callback σ Unit) := by
  intro s
  unfold setId
  rw [exec_bind_ok exec_get]
  rcases Server.Transaction.setId s.id bus.surroundings msg.header with ⟨r, id⟩
  rw [exec_bind_ok exec_modify]
  rcases r with (e | e) | u <;> exact .refl s

theorem quiet_readArgs {ts : List Ty} {items : List Wire} :
    Quiet (readArgs bus ts items : Callback σ (TupleVal ts)) := by
  unfold readArgs
  split
  · exact .pure
  · exact .throw

theorem exec_setId {id : UInt64}
    (hid : Server.Transaction.setId s.id bus.surroundings msg.header = (.ok (), id)) :
    (setId bus msg : Callback σ Unit).exec s = (.ok (), { s with id := id }) := by
  unfold setId
  rw [exec_bind_ok exec_get, hid]
  rfl

theorem exec_readArgs {ts : List Ty} {items : List Wire} {args : TupleVal ts} {c : Cursor}
    (hread : readTuple bus.order ts (tupleDefault ts) (.start items) = .ok (args, c)) :
    (readArgs bus ts items : Callback σ (TupleVal ts)).exec s = (.ok args, s) := by
  unfold readArgs
  rw [hread]
  rfl

theorem quiet_callFunction {args : TupleVal m.args} : Quiet (callFunction m args) := by
  intro s
  unfold callFunction
  rw [exec_bind_ok exec_get]
  rcases m.func args s.object with ⟨r, object⟩
  rw [exec_bind_ok exec_modify]
  cases r <;> exact .refl s

end basics

section once

theorem quiet_results : Quiet (results bus m msg) :=
  quiet_setId.bind fun _ => quiet_readArgs.bind fun _ => quiet_orThrow.bind fun _ =>
    quiet_callFunction

/-- The error number of an error that is set is positive. -/
def Positive (errnos : ErrnoTable) : Prop := ∀ e, 0 < errnos.getErrno (some e)

/-- An exception that no catch clause turns into an error. -/
def Undeclared (m : Method σ) : Thrown → Prop
  | .generated e => e.name ∉ m.errors
  | .standard => True
  | .internal _ | .foreign => False

theorem respond_sends {r : TupleVal m.returns} (hr : (results bus m msg).exec s = (.ok r, t))
    (hsend : 0 ≤ bus.send) : (respond bus m msg).exec s =
      (.ok 1, { t with sent := t.sent ++ [returned bus.lib m.returns r] }) := by
  unfold respond methodReturn orThrow
  rw [exec_bind_ok hr, if_neg (Int.not_lt.mpr hsend)]
  rfl

theorem callback_sends {r : TupleVal m.returns} (hr : (results bus m msg).exec s = (.ok r, t))
    (hsend : 0 ≤ bus.send) : (callback bus m msg).exec s =
      (.ok 1, { t with sent := t.sent ++ [returned bus.lib m.returns r] }) := by
  unfold callback methodCallback
  rw [exec_catch_ok (exec_catch_ok (respond_sends hr hsend))]

theorem callback_throws {x : Thrown}
    (hrun : (respond bus m msg).exec s = (.error (.threw x), t)) :
    (callback bus m msg).exec s =
      exec (tryCatch (catchInternal bus (.threw x)) (catchDeclared bus m.errors)) t := by
  unfold callback methodCallback
  rw [exec_catch, exec_catch_error hrun, exec_catch]

/-- A frame like that in which sd-bus runs the callback. -/
def unset (s : Frame σ) : Frame σ := { s with error := none }

theorem serve_called (errnos : ErrnoTable) {ts : List Ty} {callback : Callback σ Int}
    {items : List Wire} (h : signature items = contents (typeIds ts))
    (hcall : callback.exec (unset s) = (.ok n, t)) :
    (serve errnos ts callback items).exec s = match replyError errnos n t.error with
      | some e => (.ok (), { t with sent := t.sent ++ [.methodError e] })
      | none => (.ok (), t) := by
  have hset : (modify unset : Callback σ Unit).exec s = (.ok (), unset s) := rfl
  unfold serve
  rw [if_pos h]
  refine (exec_bind_ok hset).trans ?_
  rw [exec_bind_ok hcall, exec_bind_ok exec_get]
  cases replyError errnos n t.error <;> rfl

theorem serve_done (errnos : ErrnoTable) {ts : List Ty} {callback : Callback σ Int}
    {items : List Wire} (h : signature items = contents (typeIds ts))
    (hcall : callback.exec (unset s) = (.ok 1, t)) (ht : t.error = none) :
    (serve errnos ts callback items).exec s = (.ok (), t) := by
  have hnone : replyError errnos 1 t.error = none := by
    rw [ht]
    rfl
  rw [serve_called errnos h hcall, hnone]

theorem serve_error (errnos : ErrnoTable) {ts : List Ty} {callback : Callback σ Int}
    {items : List Wire} {x : BusError} (h : signature items = contents (typeIds ts))
    (hcall : callback.exec (unset s) = (.ok n, t)) (hx : replyError errnos n t.error = some x) :
    (serve errnos ts callback items).exec s =
      (.ok (), { t with sent := t.sent ++ [.methodError x] }) := by
  rw [serve_called errnos h hcall, hx]

theorem serve_fatal (errnos : ErrnoTable) {ts : List Ty} {callback : Callback σ Int}
    {items : List Wire} (h : signature items = contents (typeIds ts))
    (hcall : callback.exec (unset s) = (.error a, t)) :
    (serve errnos ts callback items).exec s = (.error a, t) := by
  have hset : (modify unset : Callback σ Unit).exec s = (.ok (), unset s) := rfl
  unfold serve
  rw [if_pos h]
  exact (exec_bind_ok hset).trans (exec_bind_error hcall)

theorem process_unanswered
    (hserve : (serve bus.errnos m.args (callback bus m msg) msg.items).exec s = (.error a, t)) :
    (process bus m msg).exec s = (.error a, t) := by
  unfold process
  rw [exec_bind_error hserve]

theorem process_done
    (hserve : (serve bus.errnos m.args (callback bus m msg) msg.items).exec s = (.ok (), t))
    (ht : t.currentException = none) : (process bus m msg).exec s = (.ok (), t) := by
  unfold process
  rw [exec_bind_ok hserve, exec_bind_ok exec_get, ht]
  rfl

theorem process_rethrows {e : Thrown}
    (hserve : (serve bus.errnos m.args (callback bus m msg) msg.items).exec s = (.ok (), t))
    (ht : t.currentException = some e) :
    (process bus m msg).exec s = (.error (.threw e), { t with currentException := none }) := by
  unfold process
  rw [exec_bind_ok hserve, exec_bind_ok exec_get, ht]
  rfl

theorem process_sends {r : TupleVal m.returns} (hs : s.currentException = none)
    (hsig : signature msg.items = contents (typeIds m.args))
    (hrun : (results bus m msg).exec (unset s) = (.ok r, t)) (hsend : 0 ≤ bus.send) :
    (process bus m msg).exec s =
      (.ok (), { t with sent := s.sent ++ [returned bus.lib m.returns r] }) := by
  have hquiet : Silent (unset s) ((results bus m msg).exec (unset s)).2 := quiet_results _
  rw [hrun] at hquiet
  obtain ⟨hsent, herror, hexception⟩ := hquiet
  have hsame : t.sent = s.sent := hsent
  rw [← hsame]
  exact process_done (serve_done bus.errnos hsig (callback_sends hrun hsend) herror)
    (hexception.trans hs)

/-- The error that a call is answered with if its try block throws. -/
def errorFor (m : Method σ) : Thrown → Option BusError
  | .internal e => some (e.getD unknownMethod)
  | .generated e => if e.name ∈ m.errors then some e else none
  | .standard | .foreign => none

/-- What a call comes to then. -/
def ofThrown (m : Method σ) (x : Thrown) : Reply ⊕ Thrown :=
  match errorFor m x with
  | some e => .inl (.methodError e)
  | none => .inr x

theorem process_error {e : BusError} (hp : Positive bus.errnos)
    (hsig : signature msg.items = contents (typeIds m.args))
    (hcall : (callback bus m msg).exec (unset s) = (setError bus (some e)).exec t)
    (ht : t.currentException = none) : (process bus m msg).exec s =
      (.ok (), { t with error := some e, sent := t.sent ++ [.methodError e] }) := by
  have hneg : -bus.errnos.getErrno (some e) < 0 := by
    have hpos := hp e
    omega
  exact process_done (serve_error bus.errnos hsig hcall (if_pos hneg)) ht

/-- The replies among what calls came to, and the exceptions. -/
def replies : List (Reply ⊕ Thrown) → List Reply := List.filterMap Sum.getLeft?

/-- How process() ends for what a call came to. -/
def ending : Reply ⊕ Thrown → Except Abort Unit
  | .inl _ => .ok ()
  | .inr x => .error (.threw x)

/-- What processing a call that came to this does. -/
structure Ended (bus : Bus) (m : Method σ) (msg : Call) (s : Frame σ) (o : Reply ⊕ Thrown)
    (t : Frame σ) : Prop where
  ran : (process bus m msg).exec s = (ending o, t)
  sent : t.sent = s.sent ++ replies [o]
  taken : t.currentException = none

theorem ended_error {e : BusError} (hp : Positive bus.errnos)
    (hsig : signature msg.items = contents (typeIds m.args))
    (hcall : (callback bus m msg).exec (unset s) = (setError bus (some e)).exec t)
    (hsent : t.sent = s.sent) (ht : t.currentException = none) :
    Ended bus m msg s (.inl (.methodError e))
      { t with error := some e, sent := t.sent ++ [.methodError e] } :=
  ⟨process_error hp hsig hcall ht, congrArg (· ++ _) hsent, ht⟩

/-- What was kept is thrown again. -/
theorem ended_kept {x : Thrown} (hsig : signature msg.items = contents (typeIds m.args))
    (hcall : (callback bus m msg).exec (unset s) = (setCurrentException x).exec t)
    (hquiet : Silent (unset s) t) :
    Ended bus m msg s (.inr x) { t with currentException := none } := by
  obtain ⟨hsent, herror, -⟩ := hquiet
  have hset : (setCurrentException x : Callback σ Int).exec t =
      (.ok 1, { t with currentException := some x }) := rfl
  have hserve := serve_done bus.errnos hsig (hcall.trans hset) herror
  have hprocess := process_rethrows hserve rfl
  exact ⟨hprocess, hsent.trans (List.append_nil _).symm, rfl⟩

/-- A throw that has an error is answered with it, and one that has none leaves process(). -/
theorem ended_threw {x : Thrown} (hp : Positive bus.errnos) (hs : s.currentException = none)
    (hsig : signature msg.items = contents (typeIds m.args))
    (hrun : (respond bus m msg).exec (unset s) = (.error (.threw x), t))
    (hquiet : Silent (unset s) t) :
    ∃ u, Ended bus m msg s (ofThrown m x) u ∧ u.object = t.object := by
  have hcall := callback_throws hrun
  have hnone : t.currentException = none := hquiet.2.2.trans hs
  cases x with
  | internal e =>
    cases e with
    | none =>
      have hset : (setError bus none : Callback σ Int).exec t = (.ok 0, t) := rfl
      have hunset : replyError bus.errnos 0 t.error = some unknownMethod := by
        rw [hquiet.2.1]
        rfl
      have hserve := serve_error bus.errnos hsig (hcall.trans hset) hunset
      exact ⟨_, ⟨process_done hserve hnone, congrArg (· ++ _) hquiet.1, hnone⟩, rfl⟩
    | some e => exact ⟨_, ended_error hp hsig hcall hquiet.1 hnone, rfl⟩
  | generated e =>
    by_cases hdeclared : e.name ∈ m.errors
    · have hcatch : (catchDeclared bus m.errors (.threw (.generated e)) : Callback σ Int) =
          setError bus (some e) := if_pos hdeclared
      simp only [ofThrown, errorFor, if_pos hdeclared]
      simp only [catchInternal, exec_catch, exec_throw, hcatch] at hcall
      exact ⟨_, ended_error hp hsig hcall hquiet.1 hnone, rfl⟩
    · have hcatch : (catchDeclared bus m.errors (.threw (.generated e)) : Callback σ Int) =
          setCurrentException (.generated e) := if_neg hdeclared
      simp only [ofThrown, errorFor, if_neg hdeclared]
      simp only [catchInternal, exec_catch, exec_throw, hcatch] at hcall
      exact ⟨_, ended_kept hsig hcall hquiet, rfl⟩
  | standard => exact ⟨_, ended_kept hsig hcall hquiet, rfl⟩
  | foreign =>
    exact ⟨t, ⟨process_unanswered (serve_fatal bus.errnos hsig hcall),
      hquiet.1.trans (List.append_nil _).symm, hnone⟩, rfl⟩

end once

section runs

def someErrnos : ErrnoTable := ⟨fun _ => unknownMethod, fun _ => 5⟩

/-- Where every call into libsystemd succeeds. -/
def someBus : Bus :=
  ⟨lenient, newestFirst, someErrnos, ⟨[58, 49], fun _ => 7, 0⟩, 0, 0⟩

def someCall : Server.Transaction.Header := ⟨.ok .methodCall, .ok 3, .error 61⟩

def idle : Frame Nat := ⟨0, 0, none, [], none⟩

end runs

end Sdbusplus.Proofs.MethodCallback
