import Sdbusplus.Async.Proxy
import Sdbusplus.Proofs.MethodCallback
import Sdbusplus.Proofs.RoundTrip
import Sdbusplus.Proofs.Transaction

namespace Sdbusplus.Proofs.RemoteCall
open Message hiding process
open Server.MethodCallback Throwing Proofs.RoundTrip Proofs.MethodCallback
open Proofs.Append Proofs.Read
open Asio (BusError ErrnoTable Reply)
open Async (Proxy StringView)

variable {σ : Type} {lib : LibSystemd} {h : HashOrder} {t : Ty} {ts : List Ty}

section signatures

theorem signature_tuple (hts : ∀ t ∈ ts, ∀ v : t.Val, (encode t v).typeId = typeId t)
    (vs : TupleVal ts) : signature (encodeTuple ts vs) = typeIds ts := by
  induction ts with
  | nil => rfl
  | cons t ts ih =>
    obtain ⟨v, vs⟩ := vs
    rw [encodeTuple, signature_cons, hts t List.mem_cons_self v,
      ih (fun u hu => hts u (List.mem_cons_of_mem _ hu)) vs]
    rfl

theorem typeId_alternative (v : VariantVal ts) : (encodeAlternative ts v).typeId = ['v'] := by
  rw [encodeAlternative_held]
  rfl

/-- What stands for a value has the type id of its type. -/
theorem typeId_encode (hr : RoundTrip t) (v : t.Val) : (encode t v).typeId = typeId t := by
  induction t using Ty.induct with
  | basic b => rfl
  | enum e => rfl
  | monostate => cases hr
  | array n t => cases hr
  | pair t u => cases hr
  | sequence q t ih =>
    have hcontents : contents (typeId t) = typeId t := contents_typeId hr
    simp [encode, Wire.typeId, Kind.typeId, typeId, hcontents]
  | set o k =>
    have hcontents : contents [k.code] = [k.code] :=
      contents_of_plain (plain_cons (key_plain k) List.not_mem_nil)
    simp [encode, Wire.typeId, Kind.typeId, typeId, hcontents]
  | map o k t ih =>
    have hkey : nul ∉ [k.code] := plain_cons (key_plain k) List.not_mem_nil
    have hcontents : contents (pairId [k.code] (typeId t)) = pairId [k.code] (typeId t) :=
      contents_of_plain (plain_pairId hkey (typeId_plain hr.2))
    simp [encode, Wire.typeId, Kind.typeId, typeId, hcontents]
  | tuple ts ih =>
    have hplain : nul ∉ typeIds ts :=
      typeIds_plain (fun t ht => typeId_plain (RoundTripAll.mem hr.2 ht))
    simp [encode, Wire.typeId, Kind.typeId, typeId, contents_of_plain hplain]
  | variant t ts iht ihs =>
    have hid : ∀ w : VariantVal (t :: ts), (encodeAlternative (t :: ts) w).typeId = ['v'] :=
      typeId_alternative
    rw [encode_variant]
    exact hid v

/-- The arguments that a client appends have the signature of the vtable. -/
theorem signature_arguments (hr : RoundTripAll ts) (vs : TupleVal ts) :
    signature (encodeTuple ts vs) = contents (typeIds ts) := by
  have hplain : nul ∉ typeIds ts :=
    typeIds_plain (fun t ht => typeId_plain (RoundTripAll.mem hr ht))
  rw [contents_of_plain hplain]
  exact signature_tuple (fun t ht v => typeId_encode (RoundTripAll.mem hr ht) v) vs

end signatures

section server

variable {bus : Bus} {m : Method σ} {msg : Call} {s : Frame σ} {args : TupleVal m.args}
  {id : UInt64} {c : Cursor}

/-- The frame after the function was called. -/
def after (m : Method σ) (args : TupleVal m.args) (id : UInt64) (s : Frame σ) : Frame σ :=
  { s with error := none, id := id, object := (m.func args s.object).2 }

/-- A call whose arguments can be read comes to the function. -/
theorem results_called
    (hid : Server.Transaction.setId s.id bus.surroundings msg.header = (.ok (), id))
    (hread : readTuple bus.order m.args (tupleDefault m.args) (.start msg.items) = .ok (args, c))
    (hnew : 0 ≤ bus.newMethodReturn) :
    (results bus m msg).exec s = (callFunction m args).exec { s with id := id } := by
  have hreturn : (orThrow bus bus.newMethodReturn).exec { s with id := id } =
      (.ok (), { s with id := id }) := by
    unfold orThrow
    rw [if_neg (Int.not_lt.mpr hnew)]
    rfl
  unfold results
  rw [exec_bind_ok (exec_setId hid), exec_bind_ok (exec_readArgs hread), exec_bind_ok hreturn]

theorem callFunction_returns {r : TupleVal m.returns} (hf : (m.func args s.object).1 = .ok r) :
    (callFunction m args).exec s = (.ok r, { s with object := (m.func args s.object).2 }) := by
  unfold callFunction
  rw [exec_bind_ok exec_get]
  rcases hfunc : m.func args s.object with ⟨r', object⟩
  rw [hfunc] at hf
  subst hf
  rfl

theorem callFunction_throws {e : Thrown} (hf : (m.func args s.object).1 = .error e) :
    (callFunction m args).exec s =
      (.error (.threw e), { s with object := (m.func args s.object).2 }) := by
  unfold callFunction
  rw [exec_bind_ok exec_get]
  rcases hfunc : m.func args s.object with ⟨r', object⟩
  rw [hfunc] at hf
  subst hf
  rfl

/-- A function that returns has its results sent. -/
theorem process_returns {r : TupleVal m.returns} (hs : s.currentException = none)
    (hsig : signature msg.items = contents (typeIds m.args)) (hsend : 0 ≤ bus.send)
    (hresults : (results bus m msg).exec (unset s) =
      (callFunction m args).exec { unset s with id := id })
    (hf : (m.func args s.object).1 = .ok r) :
    (process bus m msg).exec s = (.ok (), { after m args id s with
      sent := s.sent ++ [returned bus.lib m.returns r] }) := by
  have hrun : (results bus m msg).exec (unset s) = (.ok r, after m args id s) :=
    hresults.trans (callFunction_returns hf)
  exact process_sends hs hsig hrun hsend

/-- A function that throws has its error sent if there is one for it, and otherwise it is
process() that throws. -/
theorem process_throws {e : Thrown} (hp : Positive bus.errnos)
    (hs : s.currentException = none) (hsig : signature msg.items = contents (typeIds m.args))
    (hresults : (results bus m msg).exec (unset s) =
      (callFunction m args).exec { unset s with id := id })
    (hf : (m.func args s.object).1 = .error e) :
    ∃ t, Ended bus m msg s (ofThrown m e) t ∧ t.object = (m.func args s.object).2 := by
  have hthrows : (respond bus m msg).exec (unset s) = (.error (.threw e), after m args id s) :=
    exec_bind_error (hresults.trans (callFunction_throws hf))
  exact ended_threw hp hs hsig hthrows (.refl _)

end server

section client

variable {errnos : ErrnoTable} {bus : Bus} {m : Method σ} {s : Frame σ}

/-- What was appended is read back, up to equality. -/
theorem written_read (lib : LibSystemd) (h : HashOrder) (hr : RoundTripAll ts) (vs : TupleVal ts)
    (hvs : StorableTuple lib ts vs) :
    ∃ ws c, readTuple h ts (tupleDefault ts)
        (.start (lib.performAll .empty (appendTuple ts vs)).items) = .ok (ws, c) ∧
      EqualTuple ts vs ws := by
  obtain ⟨ws, hws, he⟩ := readsBack_tuple
    (fun t ht => (readsBack (RoundTripAll.mem hr ht) : ReadsBack lib h t)) vs hvs
  refine ⟨ws, .start [], ?_, he⟩
  rw [appendTuple_writes vs hvs .empty]
  exact (readTuple_takes (fun t _ out => read_exact h t out) (by simp) (tupleDefault ts) _
    [] ws _).mpr ⟨encodeTuple ts vs, [], (List.append_nil _).symm, hws, rfl⟩

theorem written_items (hvs : StorableTuple lib ts vs) :
    (lib.performAll .empty (appendTuple ts vs)).items = encodeTuple ts vs := by
  rw [appendTuple_writes vs hvs .empty]
  rfl

theorem request_items {preserved : Bool} {x : Proxy true true true preserved}
    {method : StringView} {peer : Asio.YieldMethodCall.SdBus} {vs : TupleVal ts}
    {req : Asio.YieldMethodCall.Request} (hreq : x.request lib peer method ts vs = .ok req) :
    req.items = (lib.performAll .empty (appendTuple ts vs)).items := by
  simp only [Proxy.request] at hreq
  split at hreq
  · cases hreq
  · rw [← Except.ok.inj hreq]

/-- The client is given the results again. -/
theorem completes_returned (hr : RoundTripAll ts) (r : TupleVal ts)
    (hstored : StorableTuple lib ts r) :
    ∃ r', Proxy.completes h errnos ts (returned lib ts r) none = .ok r' ∧ EqualTuple ts r r' := by
  obtain ⟨r', c, hread, he⟩ := written_read lib h hr r hstored
  refine ⟨r', ?_, he⟩
  change Proxy.unpack h errnos ts (returned lib ts r) = .ok r'
  unfold Proxy.unpack returned
  simp only [hread]

/-- What comes back of a call whose function came to this: its results or its error, at the
client, or nothing, and then process() throws. -/
def ComesBack (h : HashOrder) (errnos : ErrnoTable) (m : Method σ) (sent : List Reply)
    (out : Except Abort Unit × Frame σ) : Except Thrown (TupleVal m.returns) → Prop
  | .ok r => ∃ reply r', out.1 = .ok () ∧ out.2.sent = sent ++ [reply] ∧
      Proxy.completes h errnos m.returns reply none = .ok r' ∧ EqualTuple m.returns r r'
  | .error e =>
    match errorFor m e with
    | some x => ∃ reply, out.1 = .ok () ∧ out.2.sent = sent ++ [reply] ∧
        Proxy.completes h errnos m.returns reply none = .error (.threw (.sdBusError (some x)))
    | none => out.1 = .error (.threw e) ∧ out.2.sent = sent

/-- A call through a proxy of a method of a generated class runs the function once, on
arguments equal to the client's, and what the function returns or throws is what the client
gets, whatever the message is otherwise and whoever sent it. -/
theorem remote_call {preserved : Bool} (x : Proxy true true true preserved) (method : StringView)
    (peer : Asio.YieldMethodCall.SdBus) (vs : TupleVal m.args) (req : Asio.YieldMethodCall.Request)
    (header : Server.Transaction.Header) (hargs : RoundTripAll m.args)
    (hreturns : RoundTripAll m.returns) (hvs : StorableTuple lib m.args vs)
    (hresults : ∀ ws r, (m.func ws s.object).1 = .ok r → StorableTuple bus.lib m.returns r)
    (hp : Positive bus.errnos) (hcookie : header.callCookie ≠ none)
    (hnew : 0 ≤ bus.newMethodReturn) (hsend : 0 ≤ bus.send) (hs : s.currentException = none)
    (hreq : x.request lib peer method m.args vs = .ok req) :
    ∃ ws, EqualTuple m.args vs ws ∧
      ((process bus m ⟨header, req.items⟩).exec s).2.object = (m.func ws s.object).2 ∧
      ComesBack h errnos m s.sent ((process bus m ⟨header, req.items⟩).exec s)
        (m.func ws s.object).1 := by
  have hitems := request_items hreq
  obtain ⟨cookie, hcookie⟩ := Option.ne_none_iff_exists'.mp hcookie
  obtain ⟨ws, c, hread, he⟩ := written_read lib bus.order hargs vs hvs
  have hsig : signature req.items = contents (typeIds m.args) := by
    rw [hitems, written_items hvs]
    exact signature_arguments hargs vs
  rw [← hitems] at hread
  have hid := @Proofs.Transaction.setId_of_callCookie bus.surroundings.uniqueName
    bus.surroundings.hashString header bus.surroundings.now cookie (unset s).id hcookie
  have hcalled := @results_called σ bus m ⟨header, req.items⟩ (unset s) ws _ c hid hread hnew
  refine ⟨ws, he, ?_⟩
  cases hf : (m.func ws s.object).1 with
  | ok r =>
    obtain ⟨r', hcompletes, her⟩ := completes_returned hreturns r (hresults ws r hf)
    rw [process_returns hs hsig hsend hcalled hf]
    exact ⟨rfl, _, r', rfl, rfl, hcompletes, her⟩
  | error e =>
    obtain ⟨t, hended, hobject⟩ := process_throws hp hs hsig hcalled hf
    have hsent := hended.sent
    rw [hended.ran]
    refine ⟨hobject, ?_⟩
    cases herror : errorFor m e with
    | some x =>
      simp only [ofThrown, herror] at hsent
      simp only [ofThrown, ComesBack, herror]
      exact ⟨_, rfl, hsent, rfl⟩
    | none =>
      simp only [ofThrown, herror] at hsent
      simp only [ofThrown, ComesBack, herror]
      exact ⟨rfl, hsent.trans (List.append_nil _)⟩

end client

/-- An object that counts the calls of a method that gives a number back. -/
def counts : Method Nat :=
  ⟨[.basic .uint16], [.basic .uint16], ["a.Error.B"], fun args n => (.ok args, n + 1)⟩

def someProxy : Proxy true true true true := ⟨[97], [47], [98]⟩

def peers : Asio.YieldMethodCall.SdBus := ⟨fun _ => none, fun _ _ => .ok ⟨0, []⟩⟩

def someRequest : Asio.YieldMethodCall.Request :=
  ⟨⟨[97], [47], [98], [99]⟩, [.basic .uint16 5#16]⟩

theorem remote_call_counts :
    ∃ ws, EqualTuple counts.args ((5#16, ()) : TupleVal counts.args) ws ∧
      ((process someBus counts ⟨someCall, someRequest.items⟩).exec idle).2.object =
        (counts.func ws idle.object).2 ∧
      ComesBack newestFirst someErrnos counts idle.sent
        ((process someBus counts ⟨someCall, someRequest.items⟩).exec idle)
        (counts.func ws idle.object).1 :=
  @remote_call Nat lenient newestFirst someErrnos someBus counts idle true someProxy ⟨[99], [0]⟩
    peers (5#16, ()) someRequest someCall ⟨basic_roundTrip (by simp), trivial⟩
    ⟨basic_roundTrip (by simp), trivial⟩ ⟨trivial, trivial⟩ (fun _ _ _ => ⟨trivial, trivial⟩)
    (fun _ => by simp [someBus, someErrnos]) (fun hnone => by cases hnone) (Int.le_refl 0)
    (Int.le_refl 0) rfl rfl

end Sdbusplus.Proofs.RemoteCall
