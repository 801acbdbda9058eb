import Sdbusplus.Asio.CoroutineMethod
import Sdbusplus.Proofs.RoundTrip

namespace Sdbusplus.Proofs.CoroutineMethod
open Message Asio Asio.CoroutineMethod Throwing
open Proofs.RoundTrip (letters newestFirst lenient)

variable {h : HashOrder} {lib : LibSystemd} {errnos : ErrnoTable} {m : CoroutineMethod}
  {call c : Cursor} {sent : List Reply} {args : TupleVal m.args}

/-- What decoding the arguments of a call gives. -/
def decoded (h : HashOrder) (errnos : ErrnoTable) (m : CoroutineMethod) (call : Cursor) :
    Except Abort (TupleVal m.args) :=
  match readTuple h m.args (tupleDefault m.args) call with
  | .ok (args, _) => .ok args
  | .error e => .error (ofRead errnos e)

/-- The error that an exception is reported as. -/
def errorOf (errnos : ErrnoTable) : Thrown → BusError
  | .sdBusError e => e.getD (errnos.setErrno (errnos.getErrno e))
  | .exception name description => ⟨name, description⟩
  | .other => errnos.setErrno (-eio)

def returned (lib : LibSystemd) (m : CoroutineMethod) (r : TupleVal m.result) : Reply :=
  .methodReturn (lib.performAll .empty (appendTuple m.result r)).items

/-- The reply to a call whose arguments were decoded to this. -/
def due (lib : LibSystemd) (errnos : ErrnoTable) (m : CoroutineMethod) :
    Except Abort (TupleVal m.args) → Option Reply
  | .error (.threw e) => some (.methodError (errorOf errnos e))
  | .error .diverged => none
  | .ok args =>
    match m.func args with
    | .ok r => some (returned lib m r)
    | .error e => some (.methodError (errorOf errnos e))

/-- The call gets just the reply that is due, and nothing escapes. -/
structure AnsweredOnce (h : HashOrder) (lib : LibSystemd) (errnos : ErrnoTable)
    (m : CoroutineMethod) (call : Cursor) : Prop where
  returns : (spawned h lib errnos m call).1 = .ok ()
  replies : ∃ reply, due lib errnos m (decoded h errnos m call) = some reply ∧
    (spawned h lib errnos m call).2.sent = [reply]

/-- What is left of the message when the handler runs. -/
def held (m : CoroutineMethod) (c : Cursor) : Option Cursor :=
  if m.wantsMessage then none else some c

/-- The body of the second try block. -/
theorem exec_body : exec (do
    let ret ← newMethodReturn errnos
    moveMessage m
    let ret ← callFunction lib m ret args
    methodReturn (.methodReturn ret.items)) ⟨some c, sent⟩ =
    match m.func args with
    | .ok r => (.ok (), ⟨held m c, sent ++ [returned lib m r]⟩)
    | .error e => (.error (.threw e), ⟨held m c, sent⟩) := by
  have hnew : (newMethodReturn errnos).exec ⟨some c, sent⟩ = (.ok .empty, ⟨some c, sent⟩) := rfl
  have hmove : (moveMessage m).exec ⟨some c, sent⟩ = (.ok (), ⟨held m c, sent⟩) := rfl
  rw [exec_bind_ok hnew, exec_bind_ok hmove]
  cases hfunc : m.func args with
  | ok r =>
    have hcall : (callFunction lib m .empty args).exec ⟨held m c, sent⟩ =
        (.ok (lib.performAll .empty (appendTuple m.result r)), ⟨held m c, sent⟩) := by
      rw [callFunction, hfunc]
      rfl
    rw [exec_bind_ok hcall]
    rfl
  | error e =>
    have hcall : (callFunction lib m .empty args).exec ⟨held m c, sent⟩ =
        (.error (.threw e), ⟨held m c, sent⟩) := by
      rw [callFunction, hfunc]
      rfl
    rw [exec_bind_error hcall]

theorem invoke_returns {r : TupleVal m.result} (hfunc : m.func args = .ok r) :
    (invoke lib errnos m args).exec ⟨some c, sent⟩ =
      (.ok (), ⟨held m c, sent ++ [returned lib m r]⟩) := by
  apply exec_catch_ok
  rw [exec_body, hfunc]

/-- A reply to the exception, unless the message it has to be made from is gone. -/
theorem invoke_throws {e : Thrown} (hfunc : m.func args = .error e) :
    (invoke lib errnos m args).exec ⟨some c, sent⟩ =
      if m.wantsMessage then (.error (sdBusError errnos einval), ⟨none, sent⟩)
      else (.ok (), ⟨some c, sent ++ [.methodError (errorOf errnos e)]⟩) := by
  have hthrow : (invoke lib errnos m args).exec ⟨some c, sent⟩ = _ :=
    exec_catch_error (exec_body.trans (by rw [hfunc]))
  rw [hthrow, held]
  cases m.wantsMessage with
  | true => cases e <;> rfl
  | false => cases e <;> rfl

theorem decode_returns (hread : readTuple h m.args (tupleDefault m.args) call = .ok (args, c)) :
    (decode h errnos m).exec ⟨some call, sent⟩ = (.ok (some args), ⟨some c, sent⟩) := by
  have hargs : (readArgs h errnos m.args).exec ⟨some call, sent⟩ =
      (.ok args, ⟨some c, sent⟩) := by
    change (readFrom h errnos m.args call).exec ⟨some call, sent⟩ = _
    rw [readFrom, hread]
    rfl
  apply exec_catch_ok
  rw [map_eq_pure_bind, exec_bind_ok hargs]
  rfl

theorem decode_throws {e : Exception} {a : Abort}
    (hread : readTuple h m.args (tupleDefault m.args) call = .error e)
    (ha : ofRead errnos e = a) :
    (decode h errnos m).exec ⟨some call, sent⟩ =
      match a with
      | .threw (.sdBusError x) =>
        (.ok none, ⟨some call, sent ++ [.methodError (errorOf errnos (.sdBusError x))]⟩)
      | a => (.error a, ⟨some call, sent⟩) := by
  have hargs : (readArgs h errnos m.args).exec ⟨some call, sent⟩ =
      (.error a, ⟨some call, sent⟩) := by
    change (readFrom h errnos m.args call).exec ⟨some call, sent⟩ = _
    rw [readFrom, hread, ← ha]
    rfl
  have hsome : exec (some <$> readArgs h errnos m.args) ⟨some call, sent⟩ =
      (.error a, ⟨some call, sent⟩) := by
    rw [map_eq_pure_bind, exec_bind_error hargs]
  rw [decode, exec_catch_error hsome]
  cases a with
  | threw e => cases e <;> rfl
  | diverged => rfl

/-- Nothing but a SdBusError is thrown while the arguments are decoded. -/
def OnlySdBusErrors {α : Type} (decoded : Except Abort α) : Prop :=
  ∀ a, decoded = .error a → ∃ e, a = .threw (.sdBusError e)

/-- The handler throws on these arguments. -/
def HandlerThrows (m : CoroutineMethod) (decoded : Except Abort (TupleVal m.args)) : Prop :=
  ∃ args e, decoded = .ok args ∧ m.func args = .error e

/-- What after_spawn does with a call, by what decoding and the handler do. -/
theorem spawned_decoded {args : TupleVal m.args} (hd : decoded h errnos m call = .ok args) :
    ∃ c, spawned h lib errnos m call = (invoke lib errnos m args).exec ⟨some c, []⟩ := by
  unfold decoded at hd
  split at hd
  · rename_i args' c hread
    cases hd
    refine ⟨c, ?_⟩
    rw [spawned, afterSpawn, exec_bind_ok (decode_returns hread)]
  · cases hd

theorem spawned_sdBusError {x : Option BusError}
    (hd : decoded h errnos m call = .error (.threw (.sdBusError x))) :
    spawned h lib errnos m call =
      (.ok (), ⟨some call, [.methodError (errorOf errnos (.sdBusError x))]⟩) := by
  unfold decoded at hd
  split at hd
  · cases hd
  · rename_i e hread
    rw [spawned, afterSpawn, exec_bind_ok (decode_throws hread (Except.error.inj hd))]
    rfl

theorem spawned_escapes {a : Abort} (hd : decoded h errnos m call = .error a)
    (hother : ∀ x, a ≠ .threw (.sdBusError x)) :
    (spawned h lib errnos m call).1 = .error a := by
  unfold decoded at hd
  split at hd
  · cases hd
  · rename_i e hread
    have hdecode : (decode h errnos m).exec ⟨some call, []⟩ = _ :=
      decode_throws hread (Except.error.inj hd)
    rw [spawned, afterSpawn]
    cases a with
    | threw x =>
      cases x with
      | sdBusError x => exact absurd rfl (hother x)
      | exception name description => rw [exec_bind_error hdecode]
      | other => rw [exec_bind_error hdecode]
    | diverged => rw [exec_bind_error hdecode]

/-- A call is answered once if decoding throws nothing but SdBusErrors and no handler
that took the message throws, and in no other case. -/
theorem answered_once_iff : AnsweredOnce h lib errnos m call ↔
    OnlySdBusErrors (decoded h errnos m call) ∧
      ¬ (m.wantsMessage = true ∧ HandlerThrows m (decoded h errnos m call)) := by
  cases hd : decoded h errnos m call with
  | error a =>
    have hquiet : ¬ (m.wantsMessage = true ∧ HandlerThrows m (.error a)) := by
      rintro ⟨-, args, e, heq, -⟩
      cases heq
    by_cases hsd : ∃ x, a = .threw (.sdBusError x)
    · obtain ⟨x, rfl⟩ := hsd
      have hrun : spawned h lib errnos m call = _ := spawned_sdBusError hd
      refine ⟨fun _ => ⟨?_, hquiet⟩, fun _ => ⟨?_, ?_⟩⟩
      · intro a heq
        exact ⟨x, (Except.error.inj heq).symm⟩
      · rw [hrun]
      · rw [hrun, hd]
        exact ⟨_, rfl, rfl⟩
    · have hrun : (spawned h lib errnos m call).1 = .error a :=
        spawned_escapes hd (fun x heq => hsd ⟨x, heq⟩)
      constructor
      · intro hanswered
        rw [hanswered.returns] at hrun
        cases hrun
      · rintro ⟨honly, -⟩
        exact absurd (honly a rfl) hsd
  | ok args =>
    have honly : OnlySdBusErrors (Except.ok args : Except Abort (TupleVal m.args)) := nofun
    have hinvoked : ∃ c, spawned h lib errnos m call = _ := spawned_decoded hd
    obtain ⟨c, hrun⟩ := hinvoked
    cases hfunc : m.func args with
    | ok r =>
      rw [invoke_returns hfunc] at hrun
      refine ⟨fun _ => ⟨honly, ?_⟩, fun _ => ⟨?_, ?_⟩⟩
      · rintro ⟨-, args', e, heq, hthrow⟩
        cases heq
        rw [hfunc] at hthrow
        cases hthrow
      · rw [hrun]
      · rw [hrun, hd, due, hfunc]
        exact ⟨_, rfl, rfl⟩
    | error e =>
      rw [invoke_throws hfunc] at hrun
      cases hw : m.wantsMessage with
      | true =>
        -- The catch handlers make their reply from the message that was moved away.
        rw [hw, if_pos rfl] at hrun
        constructor
        · intro hanswered
          have hreturns := hanswered.returns
          rw [hrun] at hreturns
          cases hreturns
        · rintro ⟨-, hno⟩
          exact absurd ⟨rfl, args, e, rfl, hfunc⟩ hno
      | false =>
        rw [hw, if_neg (by simp)] at hrun
        refine ⟨fun _ => ⟨honly, fun h => nomatch h.1⟩, fun _ => ⟨?_, ?_⟩⟩
        · rw [hrun]
        · rw [hrun, hd, due, hfunc]
          exact ⟨_, rfl, rfl⟩

/-- The error numbers by name, as far as the examples below need them. -/
def someErrnos : ErrnoTable where
  setErrno error :=
    if error.natAbs = 22 then ⟨"org.freedesktop.DBus.Error.InvalidArgs", "Invalid argument"⟩
    else ⟨"org.freedesktop.DBus.Error.IOError", "Input/output error"⟩
  getErrno e :=
    if e.any (fun error => error.name = "org.freedesktop.DBus.Error.InvalidArgs") then 22 else 5

/-- A handler that takes an enumeration. -/
def takesEnum : CoroutineMethod := ⟨[.enum letters], [], false, fun _ => .ok ()⟩

/-- A handler that takes a message and throws. -/
def throwsWithMessage : CoroutineMethod :=
  ⟨[], [], true, fun _ => .error (.sdBusError (some (someErrnos.setErrno 22)))⟩

/-- A text that is no enumerator, and an exception of a handler that took the message,
leave a call without any reply. -/
theorem unanswered :
    (∃ c, spawned newestFirst lenient someErrnos takesEnum (.start [.basic .string [120]]) =
      (.error (.threw invalidEnumString), ⟨some c, []⟩)) ∧
    spawned newestFirst lenient someErrnos throwsWithMessage (.start []) =
      (.error (sdBusError someErrnos einval), ⟨none, []⟩) ∧
    ¬ ∀ h lib errnos m call, AnsweredOnce h lib errnos m call := by
  refine ⟨⟨_, rfl⟩, rfl, fun hall => ?_⟩
  obtain ⟨hreturns, -⟩ := hall newestFirst lenient someErrnos throwsWithMessage (.start [])
  cases hreturns

end Sdbusplus.Proofs.CoroutineMethod
