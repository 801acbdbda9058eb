import Sdbusplus.Async.PropertyMirror
import Sdbusplus.Proofs.RemoteCall

namespace Sdbusplus.Proofs.RemoteProperty
open Message hiding process
open Server.MethodCallback Server.PropertyCallback Throwing
open Proofs.RoundTrip Proofs.MethodCallback Proofs.RemoteCall
open Asio (BusError ErrnoTable Reply)
open Async (Proxy)

variable {lib : LibSystemd} {t : Ty} {ts all : List Ty}

section equality

/-- What every element has, the elements of an equal container have. -/
theorem every_forall₂ {α β : Type} {P : α → Prop} {Q : β → Prop} {R : α → β → Prop}
    {xs : List α} {ys : List β} (hR : ∀ x y, R x y → P x → Q y) (hxs : Every P xs)
    (hr : List.Forall₂ R xs ys) : Every Q ys := by
  induction hr with
  | nil => exact fun y hy => absurd hy List.not_mem_nil
  | cons hxy _ ih =>
    obtain ⟨hx, hxs⟩ := List.forall_mem_cons.mp hxs
    exact List.forall_mem_cons.mpr ⟨hR _ _ hxy hx, ih hxs⟩

theorem every_sameElements {α : Type} {P : α → Prop} {o : Order} {xs ys : List α}
    (hxs : Every P xs) (he : o.SameElements xs ys) : Every P ys := by
  cases o with
  | sorted =>
    obtain rfl : xs = ys := he
    exact hxs
  | hashed =>
    have hperm : xs.Perm ys := he
    exact fun y hy => hxs y (hperm.mem_iff.mpr hy)

theorem noEnumName_of_equal {v w : t.Val} (he : Equal t v w) (hv : NoEnumName all t v) :
    NoEnumName all t w := by
  cases t with
  | basic b =>
    obtain rfl : v = w := he
    exact hv
  | enum | monostate | sequence | array | set | map | pair | tuple | variant => trivial

theorem storableAlternative_of_equal {v w : VariantVal ts}
    (hts : ∀ t ∈ ts, ∀ v w : t.Val, Equal t v w → Storable lib t v → Storable lib t w)
    (he : EqualAlternative ts v w) (hv : StorableAlternative lib all ts v) :
    StorableAlternative lib all ts w := by
  induction ts with
  | nil => cases v
  | cons t ts ih =>
    cases v with
    | inl v =>
      cases w with
      | inl w => exact ⟨hts t List.mem_cons_self v w he hv.1, noEnumName_of_equal he hv.2⟩
      | inr w => cases he
    | inr v =>
      cases w with
      | inl w => cases he
      | inr w => exact ih (fun u hu => hts u (List.mem_cons_of_mem t hu)) he hv

theorem storableTuple_of_equal {vs ws : TupleVal ts}
    (hts : ∀ t ∈ ts, ∀ v w : t.Val, Equal t v w → Storable lib t v → Storable lib t w)
    (he : EqualTuple ts vs ws) (hvs : StorableTuple lib ts vs) : StorableTuple lib ts ws := by
  induction ts with
  | nil => trivial
  | cons t ts ih =>
    exact ⟨hts t List.mem_cons_self vs.1 ws.1 he.1 hvs.1,
      ih (fun u hu => hts u (List.mem_cons_of_mem t hu)) he.2 hvs.2⟩

theorem equalAlternative_of_equal {v w : (Ty.variant t ts).Val} (he : Equal (.variant t ts) v w) :
    EqualAlternative (t :: ts) v w := by
  cases v <;> cases w <;> exact he

/-- Equal values can be sent if one of them can. -/
theorem storable_of_equal {v w : t.Val} (he : Equal t v w) (hv : Storable lib t v) :
    Storable lib t w := by
  induction t using Ty.induct with
  | basic b =>
    obtain rfl : v = w := he
    exact hv
  | enum e =>
    obtain rfl : v = w := he
    exact hv
  | monostate => cases hv
  | sequence q t ih =>
    have hvs : Every (Storable lib t) v := hv
    have hes : List.Forall₂ (Equal t) v w := he
    have hstep : ∀ x y, Equal t x y → Storable lib t x → Storable lib t y :=
      fun x y hxy hx => ih hxy hx
    exact every_forall₂ hstep hvs hes
  | array n t ih =>
    have hvs : Every (Storable lib t) v.val := hv
    have hes : List.Forall₂ (Equal t) v.val w.val := he
    have hstep : ∀ x y, Equal t x y → Storable lib t x → Storable lib t y :=
      fun x y hxy hx => ih hxy hx
    exact every_forall₂ hstep hvs hes
  | set o k => exact every_sameElements hv he
  | map o k t ih =>
    obtain ⟨zs, hzs, hys⟩ := he
    refine every_sameElements (every_forall₂ (fun p q hpq hp => ?_) hv hzs) hys
    exact ⟨hpq.1 ▸ hp.1, ih hpq.2 hp.2⟩
  | pair t u iht ihu => exact ⟨iht he.1 hv.1, ihu he.2 hv.2⟩
  | tuple ts ih => exact storableTuple_of_equal (fun t ht v w he hv => ih t ht he hv) he hv
  | variant t ts iht ihs =>
    have hts : ∀ u ∈ t :: ts, ∀ x y : u.Val, Equal u x y → Storable lib u x →
        Storable lib u y := by
      intro u hu x y hxy hx
      rcases List.mem_cons.mp hu with rfl | hu
      · exact iht hxy hx
      · exact ihs u hu hxy hx
    have halternative : StorableAlternative lib (t :: ts) (t :: ts) w :=
      storableAlternative_of_equal hts (equalAlternative_of_equal he) (storable_variant hv)
    cases w <;> exact halternative

end equality

section server

variable {I : Interface} {bus : Bus} {i j : Index I} {s t : Frame (Object I)}
  {header : Server.Transaction.Header} {id : UInt64}

/-- What stands for a value in a variant. -/
def boxed (t : Ty) (v : t.Val) : Wire := .container .variant (contents (typeId t)) [encode t v]

theorem closeVariant_encode {t : Ty} (hr : RoundTrip t) (v : t.Val) :
    closeVariant t [encode t v] = some (boxed t v) := by
  have hsig : signature [encode t v] = contents (typeId t) := by
    rw [signature_one, typeId_encode hr, contents_typeId hr]
  exact if_pos hsig

theorem exec_callbackGet (hv : Storable bus.lib _ (s.object.fields i))
    (hid : Server.Transaction.setId s.id bus.surroundings header = (.ok (), id)) :
    (callbackGet bus i header).exec s =
      (.ok (1, [encode (I.property i).type (s.object.fields i)]), { s with id := id }) := by
  have hitems : (bus.lib.performAll .empty
      (appendTuple [(I.property i).type] (s.object.fields i, ()))).items =
        [encode (I.property i).type (s.object.fields i)] :=
    @written_items bus.lib [(I.property i).type] (s.object.fields i, ()) ⟨hv, trivial⟩
  have hset := @exec_setId (Object I) bus ⟨header, []⟩ s id hid
  have hget : (propertyGet bus (getter i) header).exec s =
      (.ok (1, [encode (I.property i).type (s.object.fields i)]), { s with id := id }) := by
    unfold propertyGet
    refine exec_catch_ok ?_
    rw [exec_bind_ok hset, ← hitems]
    rfl
  exact exec_catch_ok hget

/-- The signals of a property that has this value now. -/
def announced (i : Index I) (v : I.Val i) : List Signal :=
  match (I.property i).emits with
  | .nothing => []
  | .invalidation => [⟨[], [(I.property i).name]⟩]
  | .change => [⟨[((I.property i).name, boxed _ v)], []⟩]

def announce (o : Object I) (xs : List Signal) : Object I := { o with emitted := o.emitted ++ xs }

theorem exec_propertyChanged (hr : RoundTrip (I.property i).type)
    (hv : Storable bus.lib _ (s.object.fields i)) :
    ∃ id, (propertyChanged bus i).exec s = (.ok (), { s with
      id := id, object := announce s.object (announced i (s.object.fields i)) }) := by
  unfold propertyChanged announced announce
  cases (I.property i).emits with
  | nothing => exact ⟨s.id, by rw [List.append_nil]; rfl⟩
  | invalidation => exact ⟨s.id, rfl⟩
  | change =>
    have hid : Server.Transaction.setId s.id bus.surroundings signalHeader =
        (.ok (), (Server.Transaction.setId s.id bus.surroundings signalHeader).2) := rfl
    have hset : (modify (fun s => { s with error := none }) : Callback (Object I) Unit).exec s =
        (.ok (), unset s) := rfl
    have hget := @exec_callbackGet I bus i (unset s) signalHeader _ hv hid
    refine ⟨(Server.Transaction.setId s.id bus.surroundings signalHeader).2, ?_⟩
    rw [exec_bind_ok exec_get]
    refine (exec_bind_ok hset).trans ?_
    rw [exec_bind_ok hget, exec_bind_ok exec_get, exec_bind_ok exec_modify]
    rw [closeVariant_encode hr]
    rfl

/-- What the setter leaves. -/
def wrote (s : Frame (Object I)) (i : Index I) (value : I.Val i) (skipSignal : Bool)
    (id : UInt64) : Frame (Object I) :=
  if Ty.same _ (s.object.fields i) value then s
  else
    { s with
      id := id
      object := announce (setField s.object i value)
        (if skipSignal then [] else announced i value) }

theorem exec_store (hr : RoundTrip (I.property i).type) {value : I.Val i}
    (hvalue : Storable bus.lib _ value) (skipSignal : Bool) :
    ∃ id, (store bus i value skipSignal).exec s = (.ok (), { s with
      id := id
      object := announce (setField s.object i value)
        (if skipSignal then [] else announced i value) }) := by
  have hmodify : (modify (fun s => { s with object := setField s.object i value }) :
      Callback (Object I) Unit).exec s = (.ok (), { s with object := setField s.object i value }) :=
    rfl
  unfold store
  cases skipSignal with
  | true =>
    have hnone : announce (setField s.object i value) [] = setField s.object i value := by
      rw [announce, List.append_nil]
    refine ⟨s.id, (exec_bind_ok hmodify).trans ?_⟩
    simp only [if_true, hnone]
    rfl
  | false =>
    have hfield : (setField s.object i value).fields i = value := Function.update_self ..
    have hstored : Storable bus.lib _ ((setField s.object i value).fields i) := by
      rw [hfield]
      exact hvalue
    obtain ⟨id, hchanged⟩ := @exec_propertyChanged I bus i
      { s with object := setField s.object i value } hr hstored
    rw [hfield] at hchanged
    exact ⟨id, (exec_bind_ok hmodify).trans hchanged⟩

theorem exec_setter (hr : RoundTrip (I.property i).type) {value : I.Val i}
    (hvalue : Storable bus.lib _ value) (skipSignal : Bool) :
    ∃ id, (setter bus i value skipSignal).exec s =
      (.ok ((wrote s i value skipSignal id).object.fields i), wrote s i value skipSignal id) := by
  unfold setter wrote
  by_cases hsame : Ty.same _ (s.object.fields i) value = true
  · refine ⟨s.id, ?_⟩
    rw [exec_bind_ok exec_get, if_pos hsame, if_pos hsame]
    rfl
  · obtain ⟨id, hstore⟩ := @exec_store I bus i s hr value hvalue skipSignal
    refine ⟨id, ?_⟩
    rw [exec_bind_ok exec_get, if_neg hsame, if_neg hsame, exec_bind_ok hstore]
    rfl

/-- A callback of a setter whose message has a value of its type. -/
theorem exec_callbackSet (hr : RoundTrip (I.property i).type) {v : I.Val i}
    (hv : Storable bus.lib _ v)
    (hid : Server.Transaction.setId s.id bus.surroundings header = (.ok (), id)) :
    ∃ w c id', Equal _ v w ∧
      readTuple bus.order [(I.property i).type] (tupleDefault _) (.start [encode _ v]) =
        .ok ((w, ()), c) ∧
      (callbackSet bus i header [encode (I.property i).type v]).exec s =
        (.ok 1, wrote { s with id := id } i w false id') := by
  have hstored : StorableTuple bus.lib [(I.property i).type] (v, ()) := ⟨hv, trivial⟩
  have hrs : RoundTripAll [(I.property i).type] := ⟨hr, trivial⟩
  obtain ⟨⟨w, ⟨⟩⟩, c, hread, he, -⟩ := written_read bus.lib bus.order hrs (v, ()) hstored
  rw [written_items hstored] at hread
  obtain ⟨id', hsetter⟩ := @exec_setter I bus i { s with id := id } hr w
    (storable_of_equal he hv) false
  have hset := @exec_setId (Object I) bus ⟨header, [encode (I.property i).type v]⟩ s id hid
  have hargs := @exec_readArgs (Object I) bus { s with id := id } [(I.property i).type]
    [encode (I.property i).type v] (w, ()) c hread
  refine ⟨w, c, id', he, hread, ?_⟩
  have hfunction : (setter bus i w false >>= fun _ => pure ()).exec { s with id := id } =
      (.ok (), wrote { s with id := id } i w false id') := exec_bind_ok hsetter
  have hpropertySet : (propertySet bus (fun v => do
      let _ ← setter bus i v false) header [encode (I.property i).type v]).exec s =
        (.ok 1, wrote { s with id := id } i w false id') := by
    unfold propertySet
    refine exec_catch_ok ?_
    rw [exec_bind_ok hset, exec_bind_ok hargs]
    exact exec_bind_ok hfunction
  exact exec_catch_ok hpropertySet

theorem wrote_error {w : I.Val i} : (wrote s i w false id).error = s.error := by
  unfold wrote
  split <;> rfl

def answered (s : Frame (Object I)) (r : Reply) : Frame (Object I) :=
  { s with sent := s.sent ++ [r] }

/-- A Set of a writable property leaves an equal value, or one that is the same already. -/
theorem exec_serveSet (hw : (I.property i).writable = true) (hr : RoundTrip (I.property i).type)
    {v : I.Val i} (hv : Storable bus.lib _ v)
    (hid : Server.Transaction.setId s.id bus.surroundings header = (.ok (), id)) :
    ∃ w id', Equal _ v w ∧ (serveSet bus i header (boxed _ v)).exec s =
      (.ok (), answered (wrote { unset s with id := id } i w false id') (.methodReturn [])) := by
  obtain ⟨w, c, id', he, hread, hcall⟩ := @exec_callbackSet I bus i (unset s) header id hr v hv hid
  have herror : (wrote { unset s with id := id } i w false id').error = none := wrote_error
  have hset : (modify (fun s => { s with error := none }) : Callback (Object I) Unit).exec s =
      (.ok (), unset s) := rfl
  refine ⟨w, id', he, ?_⟩
  unfold serveSet
  rw [if_pos hw]
  unfold boxed
  dsimp only
  rw [if_pos rfl]
  refine (exec_bind_ok hset).trans ?_
  rw [exec_bind_ok hcall, exec_bind_ok exec_get, herror, hread]
  rfl

theorem exec_serveSet_readOnly (hw : (I.property i).writable = false) {value : Wire} :
    (serveSet bus i header value).exec s =
      (.ok (), answered s (.methodError propertyReadOnly)) := by
  have hneg : ¬ (I.property i).writable = true := by
    rw [hw]
    exact Bool.false_ne_true
  unfold serveSet
  rw [if_neg hneg]
  rfl

theorem exec_serveGet (hr : RoundTrip (I.property i).type)
    (hv : Storable bus.lib _ (s.object.fields i))
    (hid : Server.Transaction.setId s.id bus.surroundings header = (.ok (), id)) :
    (serveGet bus i header).exec s = (.ok (), answered { unset s with id := id }
      (.methodReturn [boxed _ (s.object.fields i)])) := by
  have hset : (modify (fun s => { s with error := none }) : Callback (Object I) Unit).exec s =
      (.ok (), unset s) := rfl
  have hget := @exec_callbackGet I bus i (unset s) header id hv hid
  unfold serveGet
  refine (exec_bind_ok hset).trans ?_
  rw [exec_bind_ok hget, exec_bind_ok exec_get]
  have hclose : closeVariant (I.property i).type
      [encode (I.property i).type ((unset s).object.fields i)] =
        some (boxed _ (s.object.fields i)) := closeVariant_encode hr _
  rw [hclose]
  rfl

theorem find_name : I.find (I.property i).name = some i := by
  unfold Interface.find
  cases hfind : (List.finRange I.properties.length).find?
      (fun j => (I.property j).name = (I.property i).name) with
  | none =>
    have hall := List.find?_eq_none.mp hfind i (List.mem_finRange i)
    simp at hall
  | some j =>
    have hname : (I.property j).name = (I.property i).name := by
      simpa using List.find?_some hfind
    have hi : i.val < (I.properties.map Property.name).length := by
      rw [List.length_map]
      exact i.isLt
    have hj : j.val < (I.properties.map Property.name).length := by
      rw [List.length_map]
      exact j.isLt
    have hnames : (I.properties.map Property.name)[j.val] =
        (I.properties.map Property.name)[i.val] := by
      rw [List.getElem_map, List.getElem_map]
      exact hname
    rw [Fin.ext ((List.Nodup.getElem_inj_iff I.distinct).mp hnames)]

end server

section client

open Async.PropertyMirror

variable {I : Interface} {i j : Index I} {h : HashOrder} {errnos : ErrnoTable} {m : Mirror I}

theorem noEnumName_single {t : Ty} {v : t.Val} : NoEnumName [t] t v := by
  cases t with
  | basic b =>
    cases b with
    | string => exact fun e he => absurd (List.mem_singleton.mp he) (fun heq => by cases heq)
    | _ => trivial
  | _ => trivial

/-- A client that asks for a property by its own type reads an equal value. -/
theorem getCompletes_boxed {t : Ty} (lib : LibSystemd) (hr : RoundTrip t)
    (hflat : t.isVariant = false) {v : t.Val} (hv : Storable lib t v) :
    ∃ w, Proxy.getCompletes h errnos t (.methodReturn [boxed t v]) none = .ok w ∧ Equal t v w := by
  have hvariant : RoundTrip (.variant t []) :=
    ⟨trivial, hr, fun u hu => List.mem_singleton.mp hu ▸ hflat, List.pairwise_singleton ..⟩
  have hstored : StorableTuple lib [.variant t []] (.inl v, ()) :=
    ⟨⟨hv, noEnumName_single⟩, trivial⟩
  have hitems := written_items hstored
  obtain ⟨⟨r, ⟨⟩⟩, hread, he⟩ := @completes_returned lib h [.variant t []] errnos
    ⟨hvariant, trivial⟩ (.inl v, ()) hstored
  unfold returned at hread
  rw [hitems] at hread
  cases r with
  | inl w => exact ⟨w, congrArg (Except.map _) hread, he.1⟩
  | inr w => cases w

theorem learn_boxed {lib : LibSystemd} (hr : RoundTrip (I.property i).type)
    (hflat : (I.property i).type.isVariant = false) {v : I.Val i} (hv : Storable lib _ v) :
    ∃ w, learn h errnos i (.methodReturn [boxed _ v]) m = Function.update m i (some w) ∧
      Equal _ v w := by
  obtain ⟨w, hw, he⟩ := @getCompletes_boxed h errnos _ lib hr hflat v hv
  refine ⟨w, ?_, he⟩
  unfold learn
  rw [hw]

/-- What is announced of a property is heard of it, and of no other one. -/
theorem follow_announced {lib : LibSystemd} (hr : RoundTrip (I.property i).type)
    (hflat : (I.property i).type.isVariant = false) {v : I.Val i} (hv : Storable lib _ v) :
    (∀ j, j ≠ i → follow h errnos ((announced i v).map .signal) m j = m j) ∧
    ((I.property i).emits = .change →
      ∃ w, follow h errnos ((announced i v).map .signal) m i = some w ∧ Equal _ v w) := by
  unfold announced
  cases hemits : (I.property i).emits with
  | nothing => exact ⟨fun j _ => rfl, nofun⟩
  | invalidation => exact ⟨fun j _ => rfl, nofun⟩
  | change =>
    obtain ⟨w, hw, he⟩ := @learn_boxed I i h errnos m lib hr hflat v hv
    have hheard : follow h errnos [.signal ⟨[((I.property i).name, boxed _ v)], []⟩] m =
        Function.update m i (some w) := by
      change learnChanged h errnos m ((I.property i).name, boxed _ v) = _
      unfold learnChanged
      rw [find_name]
      exact hw
    rw [List.map_singleton, hheard]
    exact ⟨fun j hj => Function.update_of_ne hj _ _, fun _ => ⟨w, Function.update_self .., he⟩⟩

end client

section runs

open Async.PropertyMirror

variable {I : Interface} {preserved : Bool} {h : HashOrder} {errnos : ErrnoTable}
  {peer : Asio.YieldMethodCall.SdBus} {x : Proxy true true true preserved} {bus : Bus}
  {w w' : World I} {i j : Index I} {e : Event bus.lib I}

/-- What the types and names of an interface have to be for its values to be sent. -/
structure Sound (lib : LibSystemd) (I : Interface) : Prop where
  roundTrip : ∀ i, RoundTrip (I.property i).type
  flat : ∀ i, (I.property i).type.isVariant = false
  name : Sendable lib.validUtf8 I.name
  names : ∀ i, Sendable lib.validUtf8 (I.property i).name

/-- The value of a property is the one written last, up to what is sent and what is the same. -/
def Written (t : Ty) (v field : t.Val) : Prop :=
  ∃ u, (u = v ∨ Equal t v u) ∧ (field = u ∨ Ty.same t field u = true)

structure Inv (h : HashOrder) (errnos : ErrnoTable) (lib : LibSystemd) (w : World I) : Prop where
  stored : ∀ i, Storable lib _ (w.frame.object.fields i)
  exception : w.frame.currentException = none
  written : ∀ i v, w.written i = some v → Written _ v (w.frame.object.fields i)
  coherent : ∀ i, (I.property i).emits = .change → i ∉ w.silent →
    ∀ v, follow h errnos w.queue w.mirror i = some v → Equal _ (w.frame.object.fields i) v

theorem inv_initial {lib : LibSystemd} {object : Object I}
    (hobject : ∀ i, Storable lib _ (object.fields i)) : Inv h errnos lib (initial object) :=
  ⟨hobject, rfl, nofun, fun _ _ _ _ hv => by cases hv⟩

theorem follow_append {queue notes : List (Note I)} {m : Mirror I} :
    follow h errnos (queue ++ notes) m = follow h errnos notes (follow h errnos queue m) :=
  List.foldl_append

theorem signals_announce {o : Object I} {xs : List Signal} :
    signals o (announce o xs) = xs.map .signal := by
  unfold signals announce
  rw [List.drop_left]

theorem setField_self {o : Object I} {u : I.Val i} : (setField o i u).fields i = u :=
  Function.update_self ..

theorem setField_ne {o : Object I} {u : I.Val i} (hj : j ≠ i) :
    (setField o i u).fields j = o.fields j :=
  Function.update_of_ne hj ..

/-- What a setter leaves of the object, and what the client hears of it. -/
theorem wrote_keeps {s : Frame (Object I)} {queue : List (Note I)} {m : Mirror I}
    {silent : List (Index I)} {u : I.Val i} {skipSignal : Bool} {id : UInt64} {lib : LibSystemd}
    (hsound : Sound lib I) (hu : Storable lib _ u)
    (hstored : ∀ j, Storable lib _ (s.object.fields j))
    (hcoherent : ∀ j, (I.property j).emits = .change → j ∉ silent →
      ∀ v, follow h errnos queue m j = some v → Equal _ (s.object.fields j) v) :
    let o := (wrote s i u skipSignal id).object
    (∀ j, Storable lib _ (o.fields j)) ∧ (o.fields i = u ∨ Ty.same _ (o.fields i) u = true) ∧
    (∀ j, j ≠ i → o.fields j = s.object.fields j) ∧
    (∀ j, (I.property j).emits = .change → j ∉ (if skipSignal then i :: silent else silent) →
      ∀ v, follow h errnos (queue ++ signals s.object o) m j = some v →
        Equal _ (o.fields j) v) := by
  intro o
  by_cases hsame : Ty.same _ (s.object.fields i) u = true
  · have ho : o = s.object := congrArg Frame.object (if_pos hsame)
    have hnone : signals s.object s.object = [] := by
      unfold signals
      rw [List.drop_length]
      rfl
    rw [ho, hnone, List.append_nil]
    refine ⟨hstored, .inr hsame, fun j _ => rfl, fun j hj hs v hv => ?_⟩
    refine hcoherent j hj (fun hmem => hs ?_) v hv
    split
    · exact List.mem_cons_of_mem i hmem
    · exact hmem
  · have ho : o = announce (setField s.object i u) (if skipSignal then [] else announced i u) :=
      congrArg Frame.object (if_neg hsame)
    have hfields : o.fields = (setField s.object i u).fields := by
      rw [ho]
      rfl
    have hsignals : signals s.object o =
        (if skipSignal then [] else announced i u).map .signal := by
      rw [ho]
      exact signals_announce
    rw [hsignals, hfields]
    refine ⟨fun j => ?_, .inl setField_self, fun j hj => setField_ne hj,
      fun j hj hs v hv => ?_⟩
    · by_cases hji : j = i
      · subst hji
        rw [setField_self]
        exact hu
      · rw [setField_ne hji]
        exact hstored j
    · cases skipSignal with
      | true =>
        have hne : j ≠ i := fun heq => hs (heq ▸ List.mem_cons_self)
        rw [setField_ne hne]
        refine hcoherent j hj (fun hmem => hs (List.mem_cons_of_mem i hmem)) v ?_
        rw [← hv]
        exact congrArg (fun q => follow h errnos q m j) (List.append_nil queue).symm
      | false =>
        have hheard := @follow_announced I i h errnos (follow h errnos queue m) lib
          (hsound.roundTrip i) (hsound.flat i) u hu
        rw [follow_append] at hv
        by_cases hji : j = i
        · subst hji
          obtain ⟨r, hr, he⟩ := hheard.2 hj
          rw [setField_self]
          obtain rfl := Option.some.inj (hr.symm.trans hv)
          exact he
        · rw [setField_ne hji]
          exact hcoherent j hj hs v ((hheard.1 j hji).symm.trans hv)

theorem view_data {name : Bytes} (hname : 0 ∉ name) : (view name).data = name := by
  have hplain : ∀ b ∈ name, decide (b ≠ 0) = true := by
    intro b hb
    refine decide_eq_true fun heq => ?_
    exact hname (heq ▸ hb)
  change (name ++ [0]).takeWhile _ = name
  rw [List.takeWhile_append_of_pos hplain]
  exact List.append_nil _

theorem target_property : target I I.name (I.property i).name = .ok i := by
  unfold target
  rw [if_pos rfl, find_name]

section requests

variable {req : Asio.YieldMethodCall.Request} {s : Frame (Object I)}
  {header : Server.Transaction.Header}

theorem toOption_some {ε α : Type} {r : Except ε α} {a : α} (hr : r.toOption = some a) :
    r = .ok a := by
  cases r with
  | ok b => exact congrArg Except.ok (Option.some.inj hr)
  | error e => cases hr

theorem busGet_name : busGet bus header [.basic .string I.name,
    .basic .string (I.property i).name] = serveGet bus i header := by
  simp only [busGet, target_property]

theorem busSet_name {value : Wire} : busSet bus header [.basic .string I.name,
    .basic .string (I.property i).name, value] = serveSet bus i header value := by
  simp only [busSet, target_property]

theorem busGet_request (hsound : Sound bus.lib I) (hx : Async.cStr preserved x.i = I.name)
    (hreq : (x.getRequest bus.lib peer (view (I.property i).name)).toOption = some req) :
    busGet bus header req.items = serveGet bus i header := by
  have hitems := request_items (toOption_some hreq)
  have hstored : StorableTuple bus.lib [.basic .cString, .basic .cString]
      (I.name, (I.property i).name, ()) := ⟨hsound.name, hsound.names i, trivial⟩
  rw [hx, view_data (hsound.names i).1, written_items hstored] at hitems
  rw [hitems]
  exact busGet_name

theorem busSet_request (hsound : Sound bus.lib I) (hx : Async.cStr preserved x.i = I.name)
    {v : I.Val i} (hv : Storable bus.lib _ v)
    (hreq : (x.setRequest bus.lib peer (view (I.property i).name) v).toOption = some req) :
    busSet bus header req.items = serveSet bus i header (boxed _ v) := by
  have hitems := request_items (toOption_some hreq)
  have hstored : StorableTuple bus.lib
      [.basic .cString, .basic .cString, .variant (I.property i).type []]
      (I.name, (I.property i).name, .inl v, ()) :=
    ⟨hsound.name, hsound.names i, ⟨hv, noEnumName_single⟩, trivial⟩
  rw [hx, view_data (hsound.names i).1, written_items hstored] at hitems
  rw [hitems]
  exact busSet_name

end requests

theorem setId_valid (header : Header) (id : UInt64) :
    ∃ id', Server.Transaction.setId id bus.surroundings header.val = (.ok (), id') := by
  obtain ⟨cookie, hcookie⟩ := Option.ne_none_iff_exists'.mp header.property
  exact ⟨_, @Proofs.Transaction.setId_of_callCookie bus.surroundings.uniqueName
    bus.surroundings.hashString header.val bus.surroundings.now cookie id hcookie⟩

theorem signals_self {o : Object I} : signals o o = [] := by
  unfold signals
  rw [List.drop_length]
  rfl

theorem wrote_exception {s : Frame (Object I)} {u : I.Val i} {skipSignal : Bool} {id : UInt64} :
    (wrote s i u skipSignal id).currentException = s.currentException := by
  unfold wrote
  split <;> rfl

/-- After a write, in whatever way it was made. -/
theorem inv_wrote {lib : LibSystemd} {s t : Frame (Object I)} {v u : I.Val i} {skipSignal : Bool}
    {id : UInt64} (hsound : Sound lib I) (hu : Storable lib _ u) (hw : Inv h errnos lib w)
    (hs : s.object = w.frame.object) (ht : t.object = (wrote s i u skipSignal id).object)
    (hexception : t.currentException = none) (hvu : u = v ∨ Equal _ v u) :
    Inv h errnos lib { w with
      frame := t
      queue := w.queue ++ signals w.frame.object t.object
      written := Function.update w.written i (some v)
      silent := if skipSignal then i :: w.silent else w.silent } := by
  obtain ⟨hstored, hwritten, hother, hcoherent⟩ := @wrote_keeps I h errnos i s w.queue w.mirror
    w.silent u skipSignal id lib hsound hu (hs ▸ hw.stored) (hs ▸ hw.coherent)
  rw [← ht] at hstored hwritten hother hcoherent
  refine ⟨hstored, hexception, fun j v' hv' => ?_, fun j hj hsilent v' hv' => ?_⟩
  · by_cases hji : j = i
    · subst hji
      have hlast : Function.update w.written j (some v) j = some v := Function.update_self ..
      obtain rfl := Option.some.inj (hlast.symm.trans hv')
      exact ⟨u, hvu, hwritten⟩
    · have hlast : Function.update w.written i (some v) j = w.written j :=
        Function.update_of_ne hji ..
      have hfield := hw.written j v' (hlast.symm.trans hv')
      rw [← hs, ← hother j hji] at hfield
      exact hfield
  · rw [← hs] at hv'
    exact hcoherent j hj hsilent v' hv'

theorem inv_set {value : { v : I.Val i // Storable bus.lib _ v }} {header : Header}
    (hsound : Sound bus.lib I) (hx : Async.cStr preserved x.i = I.name)
    (hw : Inv h errnos bus.lib w)
    (hstep : step h errnos peer x bus w (.set i value header) = some w') :
    Inv h errnos bus.lib w' := by
  obtain ⟨req, hreq, hstep⟩ := Option.bind_eq_some_iff.mp hstep
  rw [busSet_request hsound hx value.property hreq] at hstep
  cases hwritable : (I.property i).writable with
  | true =>
    obtain ⟨id, hid⟩ := @setId_valid bus header w.frame.id
    obtain ⟨u, id', he, hserve⟩ := @exec_serveSet I bus i w.frame header.val id hwritable
      (hsound.roundTrip i) value.val value.property hid
    rw [hserve] at hstep
    obtain rfl := Option.some.inj hstep
    have hrecord : record h errnos w i value.val
        (answered (wrote { unset w.frame with id := id } i u false id')
          (.methodReturn [])).sent.getLast? = Function.update w.written i (some value.val) := by
      unfold answered
      rw [List.getLast?_concat]
      rfl
    have hexception : (answered (wrote { unset w.frame with id := id } i u false id')
        (.methodReturn [])).currentException = none := wrote_exception.trans hw.exception
    rw [hrecord]
    exact @inv_wrote I h errnos w i bus.lib { unset w.frame with id := id } _ value.val u false id'
      hsound (storable_of_equal he value.property) hw rfl rfl hexception (.inr he)
  | false =>
    rw [exec_serveSet_readOnly hwritable] at hstep
    obtain rfl := Option.some.inj hstep
    have hrecord : record h errnos w i value.val
        (answered w.frame (.methodError propertyReadOnly)).sent.getLast? = w.written := by
      unfold answered
      rw [List.getLast?_concat]
      rfl
    have hsignals : signals w.frame.object
        (answered w.frame (.methodError propertyReadOnly)).object = [] := signals_self
    rw [hrecord, hsignals, List.append_nil]
    exact ⟨hw.stored, hw.exception, hw.written, hw.coherent⟩

theorem inv_assign {value : { v : I.Val i // Storable bus.lib _ v }} {skipSignal : Bool}
    (hsound : Sound bus.lib I) (hw : Inv h errnos bus.lib w)
    (hstep : step h errnos peer x bus w (.assign i value skipSignal) = some w') :
    Inv h errnos bus.lib w' := by
  obtain ⟨id, hsetter⟩ := @exec_setter I bus i w.frame (hsound.roundTrip i) value.val
    value.property skipSignal
  rw [step, hsetter] at hstep
  obtain rfl := Option.some.inj hstep
  exact inv_wrote hsound value.property hw rfl rfl (wrote_exception.trans hw.exception) (.inl rfl)

theorem inv_get {header : Header} (hsound : Sound bus.lib I)
    (hx : Async.cStr preserved x.i = I.name) (hw : Inv h errnos bus.lib w)
    (hstep : step h errnos peer x bus w (.get i header) = some w') :
    Inv h errnos bus.lib w' := by
  obtain ⟨req, hreq, hstep⟩ := Option.bind_eq_some_iff.mp hstep
  obtain ⟨id, hid⟩ := @setId_valid bus header w.frame.id
  rw [busGet_request hsound hx hreq,
    exec_serveGet (hsound.roundTrip i) (hw.stored i) hid] at hstep
  obtain ⟨r, hr, hstep⟩ := Option.bind_eq_some_iff.mp hstep
  obtain rfl := Option.some.inj hstep
  unfold answered at hr
  rw [List.getLast?_concat] at hr
  obtain rfl := Option.some.inj hr
  refine ⟨hw.stored, hw.exception, hw.written, fun j hj hs v hv => ?_⟩
  obtain ⟨u, hu, he⟩ := @learn_boxed I i h errnos (follow h errnos w.queue w.mirror) bus.lib
    (hsound.roundTrip i) (hsound.flat i) _ (hw.stored i)
  have hheard : follow h errnos
      (w.queue ++ [.value i (.methodReturn [boxed _ (w.frame.object.fields i)])]) w.mirror =
        Function.update (follow h errnos w.queue w.mirror) i (some u) :=
    follow_append.trans hu
  change follow h errnos
      (w.queue ++ [.value i (.methodReturn [boxed _ (w.frame.object.fields i)])]) w.mirror j =
        some v at hv
  rw [hheard] at hv
  by_cases hji : j = i
  · subst hji
    rw [Function.update_self] at hv
    obtain rfl := Option.some.inj hv
    exact he
  · rw [Function.update_of_ne hji] at hv
    exact hw.coherent j hj hs v hv

theorem inv_deliver (hw : Inv h errnos bus.lib w)
    (hstep : step h errnos peer x bus w .deliver = some w') : Inv h errnos bus.lib w' := by
  rw [step] at hstep
  cases hqueue : w.queue with
  | nil =>
    rw [hqueue] at hstep
    cases hstep
  | cons n queue =>
    rw [hqueue] at hstep
    obtain rfl := Option.some.inj hstep
    refine ⟨hw.stored, hw.exception, hw.written, fun j hj hs v hv => ?_⟩
    have hcoherent := hw.coherent j hj hs v
    rw [hqueue] at hcoherent
    exact hcoherent hv

theorem inv_step (hsound : Sound bus.lib I) (hx : Async.cStr preserved x.i = I.name)
    (hw : Inv h errnos bus.lib w) (hstep : step h errnos peer x bus w e = some w') :
    Inv h errnos bus.lib w' := by
  cases e with
  | set i value header => exact inv_set hsound hx hw hstep
  | assign i value skipSignal => exact inv_assign hsound hw hstep
  | get i header => exact inv_get hsound hx hw hstep
  | deliver => exact inv_deliver hw hstep

/-- In every run of Sets and Gets of a client, of calls of the setters in the server, and of
signals and answers that reach the client, a property has the value that was set last; a Get is
answered with it; and the client, when it has heard all, has it too, of each property that
emits its changes and was not set with skipSignal. -/
theorem properties_follow (object : Object I) (hsound : Sound bus.lib I)
    (hx : Async.cStr preserved x.i = I.name) (hobject : ∀ i, Storable bus.lib _ (object.fields i))
    (hw : (machine h errnos peer x bus object).Reachable w) :
    (∀ i v, w.written i = some v → Written _ v (w.frame.object.fields i)) ∧
    (∀ i (header : Header) req,
      x.getRequest bus.lib peer (view (I.property i).name) = .ok req →
      ∃ t reply v, (busGet bus header.val req.items).exec w.frame = (.ok (), t) ∧
        t.sent = w.frame.sent ++ [reply] ∧ t.currentException = none ∧
        Proxy.getCompletes h errnos (I.property i).type reply none = .ok v ∧
        Equal _ (w.frame.object.fields i) v) ∧
    (w.queue = [] → ∀ i, (I.property i).emits = .change → i ∉ w.silent →
      ∀ v, w.mirror i = some v → Equal _ (w.frame.object.fields i) v) := by
  have hinv : Inv h errnos bus.lib w :=
    hw.invariant (inv_initial hobject) (fun _ _ _ h _ hstep => inv_step hsound hx h hstep)
  refine ⟨hinv.written, fun i header req hreq => ?_, fun hqueue i hi hs v hv => ?_⟩
  · obtain ⟨id, hid⟩ := @setId_valid bus header w.frame.id
    obtain ⟨v, hv, he⟩ := @getCompletes_boxed h errnos _ bus.lib (hsound.roundTrip i)
      (hsound.flat i) _ (hinv.stored i)
    have hsome := congrArg Except.toOption hreq
    rw [busGet_request hsound hx hsome, exec_serveGet (hsound.roundTrip i) (hinv.stored i) hid]
    exact ⟨_, _, v, rfl, rfl, hinv.exception, hv, he⟩
  · have hcoherent := hinv.coherent i hi hs v
    rw [hqueue] at hcoherent
    exact hcoherent hv

/-- An interface where one property says what it has become, and one only that it changed. -/
def sensor : Interface :=
  ⟨[98], [⟨[118], .basic .uint16, [], []⟩,
    ⟨[117], .basic .string, [], [.readonly, .emitsInvalidation]⟩], by decide⟩

def reading : Object sensor where
  emitted := []
  fields
    | ⟨0, _⟩ => (3#16 : BitVec 16)
    | ⟨1, _⟩ => ([67] : Bytes)

def level : Index sensor := ⟨0, by decide⟩

def someHeader : Header := ⟨someCall, by decide⟩

def changes : List (Event someBus.lib sensor) :=
  [.get level someHeader, .assign level ⟨(4#16 : BitVec 16), trivial⟩ false, .deliver,
    .set level ⟨(5#16 : BitVec 16), trivial⟩ someHeader, .deliver, .deliver]

theorem sendable_single {c : UInt8} (hc : c ≠ 0) : Sendable lenient.validUtf8 [c] :=
  ⟨fun hmem => hc (List.mem_singleton.mp hmem).symm, rfl⟩

theorem sound_sensor : Sound someBus.lib sensor := by
  refine ⟨fun i => ?_, fun i => ?_, sendable_single (by decide), fun i => ?_⟩
  · match i with
    | ⟨0, _⟩ | ⟨1, _⟩ => exact basic_roundTrip (by decide)
  · match i with
    | ⟨0, _⟩ | ⟨1, _⟩ => rfl
  · match i with
    | ⟨0, _⟩ | ⟨1, _⟩ => exact sendable_single (by decide)

theorem storable_reading (i : Index sensor) : Storable someBus.lib _ (reading.fields i) := by
  match i with
  | ⟨0, _⟩ => trivial
  | ⟨1, _⟩ => exact sendable_single (by decide)

theorem properties_follow_changes :
    ∃ w, (machine newestFirst someErrnos peers someProxy someBus reading).run (initial reading)
        changes = some w ∧
      w.written level = some (5#16 : BitVec 16) ∧ w.mirror level = some (5#16 : BitVec 16) ∧
      Written (.basic .uint16) (5#16 : BitVec 16) (w.frame.object.fields level) ∧
      Equal (.basic .uint16) (w.frame.object.fields level) (5#16 : BitVec 16) := by
  refine ⟨_, rfl, rfl, rfl, ?_⟩
  have hfollow := properties_follow reading sound_sensor rfl storable_reading
    (Machine.reachable_of_run (M := machine newestFirst someErrnos peers someProxy someBus reading)
      changes rfl)
  exact ⟨hfollow.1 level _ rfl, hfollow.2.2 rfl level rfl List.not_mem_nil _ rfl⟩

end runs

end Sdbusplus.Proofs.RemoteProperty
