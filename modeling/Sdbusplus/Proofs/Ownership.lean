import Sdbusplus.Message.Ownership

namespace Sdbusplus.Proofs.Ownership
open Message Holders

variable {s : Holders} {P : Holders → Prop}

section messages

theorem keeps_message (op : MessageOp) : Keeps Correct op.run := by
  cases op with
  | create => exact keeps_create.bind fun _ => .pure
  | construct m =>
    cases m with
    | none => exact keeps_construct
    | some m => exact keeps_borrow.bind fun _ => keeps_construct
  | adopt m => exact keeps_construct
  | copy other => exact keeps_share.bind fun _ => keeps_construct
  | move other => exact keeps_release.bind fun _ => keeps_construct
  | assign this other => exact keeps_share.bind fun _ => keeps_reset
  | moveAssign this other => exact keeps_release.bind fun _ => keeps_reset
  | release this => exact keeps_release.bind fun _ => .pure
  | destroy this => exact keeps_destroy
  | unref m => exact keeps_drop

theorem keeps_step {α : Type} {x : Program α} {t : Holders} (hx : Keeps P x) (hs : P s)
    (h : (x s).map Prod.snd = some t) : P t := by
  obtain ⟨⟨a, u⟩, hxs, rfl⟩ := Option.map_eq_some_iff.mp h
  exact hx s a u hs hxs

/-- However message objects are constructed, copied, moved, assigned, also to themselves,
released and destroyed, no message is used after it was freed, and each has as many references
as there are objects that hold it and pointers that were taken from them. -/
theorem messages_counted (hs : messageMachine.Reachable s) :
    s.faulted = false ∧ ∀ m, s.counts m = s.objects.count (some (some m)) + s.loose m := by
  have hcorrect : Correct s :=
    hs.invariant correct_empty (fun _ op _ h _ hstep => keeps_step (keeps_message op) h hstep)
  exact ⟨hcorrect.sound, hcorrect.counted⟩

/-- An object copied, assigned to itself and destroyed, and the first one after it. -/
def copies : List MessageOp :=
  [.create, .adopt (some 0), .copy 0, .assign 1 1, .destroy 1, .moveAssign 0 0, .destroy 0]

theorem messages_counted_copies : ∃ s, messageMachine.run messageMachine.init copies = some s ∧
    s.faulted = false ∧ ∀ m, s.counts m = s.objects.count (some (some m)) + s.loose m :=
  ⟨_, rfl, messages_counted (Machine.reachable_of_run copies rfl)⟩

end messages

section errors

theorem keeps_nextObject : Keeps P nextObject := by
  intro s a t hs h
  obtain ⟨-, rfl⟩ := Prod.mk.inj (Option.some.inj h)
  exact hs

theorem keeps_moveError (hP : KeptByMoves P) (this other : Nat) :
    Keeps P (moveError this other) :=
  (hP.reset this none).bind fun _ => (hP.release other).bind fun error => hP.reset this error

theorem keeps_error (hP : KeptByMoves P) (op : ErrorOp) : Keeps P op.run := by
  cases op with
  | set => exact hP.create.bind fun _ => .pure
  | fromErrno isSet owned =>
    cases isSet with
    | false => exact .pure
    | true =>
      cases owned with
      | false => exact hP.construct none
      | true => exact hP.create.bind fun error => hP.construct error
  | fromError error => exact hP.construct error
  | move other =>
    exact keeps_nextObject.bind fun this => (hP.construct none).bind fun _ =>
      keeps_moveError hP this other
  | moveAssign this other =>
    by_cases h : this = other
    · have hself : (ErrorOp.moveAssign this other).run = pure () := if_pos h
      rw [hself]
      exact .pure
    · have hmove : (ErrorOp.moveAssign this other).run = moveError this other := if_neg h
      rw [hmove]
      exact keeps_moveError hP this other
  | destroy this => exact hP.destroy this
  | free error => exact hP.drop error

/-- However SdBusError objects are made, moved, assigned and destroyed, the memory of an error
is never used or freed after it was freed, and until then exactly one object or struct has it. -/
theorem errors_owned (hs : errorMachine.Reachable s) :
    s.faulted = false ∧ ∀ e, s.counts e = s.objects.count (some (some e)) + s.loose e ∧
      s.counts e ≤ 1 := by
  have hcorrect : Correct s := hs.invariant correct_empty
    (fun _ op _ h _ hstep => keeps_step (keeps_error correct_keptByMoves op) h hstep)
  have hsingle : Single s := hs.invariant (fun _ => Nat.zero_le 1)
    (fun _ op _ h _ hstep => keeps_step (keeps_error single_keptByMoves op) h hstep)
  exact ⟨hcorrect.sound, fun e => ⟨hcorrect.counted e, hsingle e⟩⟩

/-- An error that is moved and assigned over another one. -/
def moves : List ErrorOp :=
  [.fromErrno true true, .set, .fromError (some 1), .move 0, .moveAssign 1 2, .moveAssign 1 1,
    .destroy 2, .destroy 1, .destroy 0]

theorem errors_owned_moves : ∃ s, errorMachine.run errorMachine.init moves = some s ∧
    s.faulted = false ∧ ∀ e, s.counts e = s.objects.count (some (some e)) + s.loose e ∧
      s.counts e ≤ 1 :=
  ⟨_, rfl, errors_owned (Machine.reachable_of_run moves rfl)⟩

end errors

end Sdbusplus.Proofs.Ownership
