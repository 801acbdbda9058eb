import Sdbusplus.Asio.YieldMethodCall
import Sdbusplus.Proofs.RoundTrip

namespace Sdbusplus.Proofs.YieldMethodCall
open Message Asio.YieldMethodCall
open Proofs.RoundTrip (newestFirst lenient)

variable {h : HashOrder} {lib : LibSystemd} {bus : SdBus} {c : MethodCall} {s : State}
  {m : Request} {e : Errno}

theorem yield_unbuilt (hb : c.build lib bus = .error e) :
    yieldMethodCall h lib bus c s = (some (tupleDefault c.retTypes), ⟨.ofErrno e.val, s.sent⟩) := by
  rw [yieldMethodCall, hb]

/-- What an earlier call left in the variable keeps this one from being sent. -/
theorem yield_stale (hb : c.build lib bus = .ok m) (hf : s.ec.failed = true) :
    yieldMethodCall h lib bus c s = (some (tupleDefault c.retTypes), s) := by
  rw [yieldMethodCall, hb]
  simp [hf]

theorem yield_unpacked {r : Answer} {s' : State} {value : TupleVal c.retTypes}
    (hb : c.build lib bus = .ok m) (hf : s.ec.failed = false)
    (hr : s.asyncSendYield bus m = (r, s')) (hu : unpack h c.retTypes r.message = .ok value) :
    yieldMethodCall h lib bus c s = (some value, s') := by
  rw [yieldMethodCall, hb]
  simp [hf, hr, hu]

theorem yield_endless {r : Answer} {s' : State} (hb : c.build lib bus = .ok m)
    (hf : s.ec.failed = false) (hr : s.asyncSendYield bus m = (r, s'))
    (hu : unpack h c.retTypes r.message = .error .diverges) :
    yieldMethodCall h lib bus c s = (none, s') := by
  rw [yieldMethodCall, hb]
  simp [hf, hr, hu]

/-- A reply that does not unpack hides the error of the call. -/
theorem yield_invalid {r : Answer} {s' : State} {x : Exception} (hb : c.build lib bus = .ok m)
    (hf : s.ec.failed = false) (hr : s.asyncSendYield bus m = (r, s'))
    (hu : unpack h c.retTypes r.message = .error x) (hx : x ≠ .diverges) :
    yieldMethodCall h lib bus c s =
      (some (tupleDefault c.retTypes), { s' with ec := .ofErrno invalidArgument }) := by
  rw [yieldMethodCall, hb]
  cases x <;> simp [hf, hr, hu] at hx ⊢

theorem yield_sends {r : Answer} {s' : State} (hb : c.build lib bus = .ok m)
    (hf : s.ec.failed = false) (hr : s.asyncSendYield bus m = (r, s')) :
    (yieldMethodCall h lib bus c s).2.sent = s'.sent := by
  cases hu : unpack h c.retTypes r.message with
  | ok value => rw [yield_unpacked hb hf hr hu]
  | error x =>
    by_cases hx : x = .diverges
    · subst hx
      rw [yield_endless hb hf hr hu]
    · rw [yield_invalid hb hf hr hu hx]

/-- What the variable should say of a call that was answered like this. -/
def due (h : HashOrder) (c : MethodCall) (r : Answer) : ErrorCode :=
  if r.error ≠ 0 then .ofErrno r.error
  else match unpack h c.retTypes r.message with
    | .ok _ => .ofErrno 0
    | .error _ => .ofErrno invalidArgument

/-- A call that can be built is sent once, and the variable describes just this call
when it returns. -/
def OwnCall (h : HashOrder) (lib : LibSystemd) (bus : SdBus) (c : MethodCall) (s : State) : Prop :=
  match c.build lib bus, yieldMethodCall h lib bus c s with
  | .error e, (_, s') => s'.sent = s.sent ∧ s'.ec = .ofErrno e.val
  | .ok m, (value, s') =>
    s'.sent = s.sent ++ [m] ∧ (value.isSome → s'.ec = due h c (s.asyncSendYield bus m).1)

/-- The same for each call that is made of a sequence. -/
def OwnCalls (h : HashOrder) (lib : LibSystemd) (bus : SdBus) (cs : List MethodCall) (s : State) :
    Prop :=
  ∀ before c after s', cs = before ++ c :: after →
    yieldMethodCalls h lib bus before s = some s' → OwnCall h lib bus c s'

/-- A call that can be built finds the variable at success, sd_bus_call_async takes its
message, and if it ends in an error the reply unpacks; so do the calls after it, which find
what it should leave. -/
def Undisturbed (h : HashOrder) (lib : LibSystemd) (bus : SdBus) :
    List MethodCall → ErrorCode → List Request → Prop
  | [], _, _ => True
  | c :: cs, ec, sent =>
    match c.build lib bus with
    | .error e => Undisturbed h lib bus cs (.ofErrno e.val) sent
    | .ok m =>
      ec.failed = false ∧
        match bus.callAsync sent m with
        | .error _ => False
        | .ok r =>
          match unpack h c.retTypes r.message with
          | .ok _ => Undisturbed h lib bus cs (.ofErrno r.error) (sent ++ [m])
          | .error .diverges => True
          | .error _ => (r.error = 0 ∨ r.error = invalidArgument) ∧
              Undisturbed h lib bus cs (.ofErrno invalidArgument) (sent ++ [m])

theorem ownCalls_nil : OwnCalls h lib bus [] s := by
  intro before c after s' hcs
  simp at hcs

theorem ownCalls_cons {cs : List MethodCall} : OwnCalls h lib bus (c :: cs) s ↔
    OwnCall h lib bus c s ∧ ((yieldMethodCall h lib bus c s).1.isSome = true →
      OwnCalls h lib bus cs (yieldMethodCall h lib bus c s).2) := by
  refine ⟨fun hall => ⟨hall [] c cs s rfl rfl, ?_⟩, ?_⟩
  · intro hret before d after s' hcs hrun
    apply hall (c :: before) d after s' (by rw [hcs, List.cons_append])
    obtain ⟨value, hvalue⟩ := Option.isSome_iff_exists.mp hret
    rw [yieldMethodCalls, ← hrun]
    split <;> simp_all
  · intro ⟨hown, hrest⟩ before d after s' hcs hrun
    cases before with
    | nil =>
      obtain ⟨rfl, -⟩ := List.cons.inj hcs
      obtain rfl := Option.some.inj hrun
      exact hown
    | cons b before =>
      obtain ⟨hb, htail⟩ := List.cons.inj hcs
      subst hb
      rw [yieldMethodCalls] at hrun
      split at hrun
      · rename_i s₁ hy
        rw [hy] at hrest
        exact hrest rfl before d after s' htail hrun
      · cases hrun

theorem ofErrno_inj {n k : Int} : ErrorCode.ofErrno n = .ofErrno k ↔ n = k := by
  simp [ErrorCode.ofErrno]

theorem ownCall_unbuilt (hb : c.build lib bus = .error e) : OwnCall h lib bus c s := by
  rw [OwnCall, hb, yield_unbuilt hb]
  exact ⟨rfl, rfl⟩

theorem ownCall_built (hb : c.build lib bus = .ok m) : OwnCall h lib bus c s ↔
    (yieldMethodCall h lib bus c s).2.sent = s.sent ++ [m] ∧
      ((yieldMethodCall h lib bus c s).1.isSome →
        (yieldMethodCall h lib bus c s).2.ec = due h c (s.asyncSendYield bus m).1) := by
  rw [OwnCall, hb]

theorem not_ownCall_stale (hb : c.build lib bus = .ok m) (hf : s.ec.failed = true) :
    ¬ OwnCall h lib bus c s := by
  rw [ownCall_built hb, yield_stale hb hf]
  intro ⟨hsent, _⟩
  simp at hsent

theorem asyncSendYield_refused {x : Refusal} (hr : bus.callAsync s.sent m = .error x) :
    s.asyncSendYield bus m = (x.answer m, ⟨.ofErrno (x.answer m).error, s.sent⟩) := by
  rw [State.asyncSendYield, hr]

theorem asyncSendYield_sent {r : Answer} (hr : bus.callAsync s.sent m = .ok r) :
    s.asyncSendYield bus m = (r, ⟨.ofErrno r.error, s.sent ++ [m]⟩) := by
  rw [State.asyncSendYield, hr]

/-- Of a request that sd-bus refuses nothing is sent. -/
theorem not_ownCall_refused {x : Refusal} (hb : c.build lib bus = .ok m)
    (hf : s.ec.failed = false) (hr : bus.callAsync s.sent m = .error x) :
    ¬ OwnCall h lib bus c s := by
  rw [ownCall_built hb, yield_sends hb hf (asyncSendYield_refused hr)]
  intro ⟨hsent, _⟩
  simp at hsent

theorem ownCall_unpacked {r : Answer} {value : TupleVal c.retTypes} (hb : c.build lib bus = .ok m)
    (hf : s.ec.failed = false) (hr : bus.callAsync s.sent m = .ok r)
    (hu : unpack h c.retTypes r.message = .ok value) : OwnCall h lib bus c s := by
  have hsent := asyncSendYield_sent hr
  rw [ownCall_built hb, yield_unpacked hb hf hsent hu, hsent]
  refine ⟨rfl, fun _ => ?_⟩
  rw [due, hu]
  by_cases herror : r.error = 0
  · simp [herror]
  · simp [herror]

theorem ownCall_endless {r : Answer} (hb : c.build lib bus = .ok m) (hf : s.ec.failed = false)
    (hr : bus.callAsync s.sent m = .ok r)
    (hu : unpack h c.retTypes r.message = .error .diverges) : OwnCall h lib bus c s := by
  rw [ownCall_built hb, yield_endless hb hf (asyncSendYield_sent hr) hu]
  exact ⟨rfl, fun hret => nomatch hret⟩

theorem ownCall_invalid {r : Answer} {x : Exception} (hb : c.build lib bus = .ok m)
    (hf : s.ec.failed = false) (hr : bus.callAsync s.sent m = .ok r)
    (hu : unpack h c.retTypes r.message = .error x) (hx : x ≠ .diverges) :
    OwnCall h lib bus c s ↔ r.error = 0 ∨ r.error = invalidArgument := by
  have hsent := asyncSendYield_sent hr
  rw [ownCall_built hb, yield_invalid hb hf hsent hu hx, hsent]
  simp only [Option.isSome_some, true_and, forall_const, due, hu]
  by_cases herror : r.error = 0
  · simp [herror]
  · simp only [herror, ne_eq, not_false_eq_true, if_true, ofErrno_inj, false_or, Int.natCast_inj]
    exact eq_comm

theorem ownCalls_iff {cs : List MethodCall} :
    OwnCalls h lib bus cs s ↔ Undisturbed h lib bus cs s.ec s.sent := by
  induction cs generalizing s with
  | nil => exact iff_of_true ownCalls_nil trivial
  | cons c cs ih =>
    rw [ownCalls_cons, Undisturbed]
    cases hb : c.build lib bus with
    | error e =>
      rw [yield_unbuilt hb]
      simp [ownCall_unbuilt hb, ih]
    | ok m =>
      cases hf : s.ec.failed with
      | true => simp [not_ownCall_stale hb hf]
      | false =>
        cases hr : bus.callAsync s.sent m with
        | error x => simp [not_ownCall_refused hb hf hr, hr]
        | ok r =>
          have hsent := asyncSendYield_sent hr
          cases hu : unpack h c.retTypes r.message with
          | ok value =>
            rw [yield_unpacked hb hf hsent hu]
            simp [ownCall_unpacked hb hf hr hu, ih, hr, hu]
          | error x =>
            by_cases hx : x = .diverges
            · subst hx
              rw [yield_endless hb hf hsent hu]
              simp [ownCall_endless hb hf hr hu, hr, hu]
            · rw [yield_invalid hb hf hsent hu hx, ownCall_invalid hb hf hr hu hx]
              cases x <;> simp [ih, hr, hu] at hx ⊢

/-- A run of calls is described by the variable exactly if no call of it is disturbed by
what an earlier one left, refused by sd-bus, or answered with an error that does not unpack;
and one call alone is the same for any two values of the variable only if it cannot be built. -/
theorem own_calls_iff (h : HashOrder) (lib : LibSystemd) (bus : SdBus) :
    (∀ cs ec sent, OwnCalls h lib bus cs ⟨ec, sent⟩ ↔ Undisturbed h lib bus cs ec sent) ∧
    ∀ c sent, (∀ ec ec', yieldMethodCall h lib bus c ⟨ec, sent⟩ =
      yieldMethodCall h lib bus c ⟨ec', sent⟩) ↔ ∃ e, c.build lib bus = .error e := by
  refine ⟨fun cs ec sent => ownCalls_iff, fun c sent => ⟨fun hsame => ?_, ?_⟩⟩
  · cases hb : c.build lib bus with
    | error e => exact ⟨e, rfl⟩
    | ok m =>
      -- A call that is kept from being sent leaves what it finds.
      have hrun := hsame (.ofErrno 1) (.ofErrno 2)
      rw [yield_stale hb rfl, yield_stale hb rfl] at hrun
      simp [ofErrno_inj] at hrun
  · intro ⟨e, hb⟩ ec ec'
    rw [yield_unbuilt hb, yield_unbuilt hb]

/-- A bus that takes every name and answers every call with this error and no contents. -/
def answers (error : Nat) : SdBus := ⟨fun _ => none, fun _ _ => .ok ⟨error, []⟩⟩

/-- A call without arguments. -/
def plainCall (retTypes : List Ty) : MethodCall := ⟨⟨[], [], [], []⟩, [], (), retTypes⟩

/-- After a call that ended in EIO the next one is not sent, and the EHOSTUNREACH of a
call that should return a string becomes EINVAL. -/
theorem calls_disturbed :
    yieldMethodCalls newestFirst lenient (answers 5) [plainCall [], plainCall []] ⟨.ofErrno 0, []⟩ =
      some ⟨.ofErrno 5, [⟨⟨[], [], [], []⟩, []⟩]⟩ ∧
    (yieldMethodCall newestFirst lenient (answers 113) (plainCall [.basic .string])
      ⟨.ofErrno 0, []⟩).2.ec = .ofErrno invalidArgument ∧
    ¬ ∀ h lib bus cs s, OwnCalls h lib bus cs s := by
  refine ⟨rfl, rfl, fun hall => ?_⟩
  have hown := hall newestFirst lenient (answers 0) [plainCall []] ⟨.ofErrno 5, []⟩
  obtain ⟨hsent, _⟩ := hown [] (plainCall []) [] _ rfl rfl
  cases hsent

end Sdbusplus.Proofs.YieldMethodCall
