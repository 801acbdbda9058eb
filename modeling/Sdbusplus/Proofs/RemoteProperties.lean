import Sdbusplus.Async.Properties
import Sdbusplus.Proofs.RemoteProperty

namespace Sdbusplus.Proofs.RemoteProperties
open Message hiding process
open Server.MethodCallback Server.PropertyCallback Throwing
open Proofs.RoundTrip Proofs.MethodCallback Proofs.RemoteCall Proofs.RemoteProperty
open Async.Properties
open Asio (BusError ErrnoTable Reply)
open Async (Proxy)

variable {I : Interface} {i j : Index I} {lib : LibSystemd} {t u : Ty} {ts all : List Ty}

section places

theorem encode_put (p : Place t ts) (v : t.Val) :
    encodeAlternative ts (p.put ts v) = boxed t v := by
  induction p with
  | here ts => rfl
  | later u ts p ih => exact ih

theorem storable_put (p : Place t ts) {v : t.Val} (hv : Storable lib t v)
    (hn : NoEnumName all t v) : StorableAlternative lib all ts (p.put ts v) := by
  induction p with
  | here ts => exact ⟨hv, hn⟩
  | later u ts p ih => exact ih

/-- A variant that is equal to one that holds a value holds an equal one there. -/
theorem equal_put (p : Place t ts) {v : t.Val} {w : VariantVal ts}
    (he : EqualAlternative ts (p.put ts v) w) : ∃ x, w = p.put ts x ∧ Equal t v x := by
  induction p with
  | here ts =>
    cases w with
    | inl w => exact ⟨w, rfl, he⟩
    | inr w => cases he
  | later u ts p ih =>
    cases w with
    | inl w => cases he
    | inr w =>
      obtain ⟨x, rfl, hx⟩ := ih he
      exact ⟨x, rfl, hx⟩

theorem get_put (p : Place t ts) (v : t.Val) : p.get ts (p.put ts v) = some v := by
  induction p with
  | here ts => rfl
  | later u ts p ih => exact ih

theorem get_put_ne (p : Place t ts) (q : Place u ts) (hne : t ≠ u) (v : u.Val) :
    p.get ts (q.put ts v) = none := by
  induction p with
  | here ts =>
    cases q with
    | here ts => exact absurd rfl hne
    | later u ts q => rfl
  | later u ts p ih =>
    cases q with
    | here ts => rfl
    | later u ts q => exact ih q

theorem place_of_mem (ht : t ∈ ts) : Nonempty (Place t ts) := by
  induction ts with
  | nil => cases ht
  | cons u ts ih =>
    rcases List.mem_cons.mp ht with rfl | ht
    · exact ⟨.here ts⟩
    · obtain ⟨p⟩ := ih ht
      exact ⟨.later u ts p⟩

end places

section server

variable {bus : Bus} {s : Frame (Object I)} {header : Async.PropertyMirror.Header}

/-- The entry of a property in a GetAll reply. -/
def entry (o : Object I) (i : Index I) : Wire :=
  .container .dictEntry ['s', 'v'] [.basic .string (I.property i).name, boxed _ (o.fields i)]

theorem exec_appendProperties (hr : ∀ i, RoundTrip (I.property i).type)
    (hv : ∀ i, Storable bus.lib _ (s.object.fields i)) (is : List (Index I)) :
    ∃ id, (appendProperties bus header.val is).exec (unset s) =
      (.ok (.ok (is.map (entry s.object))), { unset s with id := id }) := by
  induction is generalizing s with
  | nil => exact ⟨s.id, rfl⟩
  | cons i is ih =>
    obtain ⟨id, hid⟩ := @setId_valid bus header (unset s).id
    obtain ⟨id', hrest⟩ := ih (s := { s with id := id }) hv
    refine ⟨id', ?_⟩
    unfold appendProperties
    rw [exec_bind_ok (exec_callbackGet (s := unset s) (hv i) hid), exec_bind_ok exec_get]
    have hclose : closeVariant (I.property i).type
        [encode (I.property i).type ((unset s).object.fields i)] =
          some (boxed _ (s.object.fields i)) := closeVariant_encode (hr i) _
    rw [hclose]
    exact (exec_bind_ok hrest).trans rfl

/-- What a GetAll is answered with. -/
def allSent (o : Object I) : Reply :=
  .methodReturn [.container .array ['{', 's', 'v', '}'] (I.listed.map (entry o))]

theorem exec_serveGetAll (hr : ∀ i, RoundTrip (I.property i).type)
    (hv : ∀ i, Storable bus.lib _ (s.object.fields i)) :
    ∃ id, (serveGetAll bus header.val).exec s =
      (.ok (), answered { unset s with id := id } (allSent s.object)) := by
  have hset : (modify (fun s => { s with error := none }) : Callback (Object I) Unit).exec s =
      (.ok (), unset s) := rfl
  obtain ⟨id, hall⟩ := @exec_appendProperties I bus s header hr hv I.listed
  refine ⟨id, ?_⟩
  unfold serveGetAll
  refine (exec_bind_ok hset).trans ?_
  rw [exec_bind_ok hall]
  rfl

end server

section client

variable {V : PropertiesVariant I} {h : HashOrder} {errnos : ErrnoTable} {o : Object I}
  {ws : Index I → V.type.Val} {start : Fields I} {ys : List (Bytes × V.type.Val)}

theorem roundTripAll_of_mem (hts : ∀ t ∈ ts, RoundTrip t) : RoundTripAll ts := by
  induction ts with
  | nil => trivial
  | cons t ts ih =>
    obtain ⟨ht, hts⟩ := List.forall_mem_cons.mp hts
    exact ⟨ht, ih hts⟩

theorem roundTrip_variant (hsound : Sound lib I) (hd : V.alternatives.Pairwise Distinguishable) :
    RoundTrip V.type := by
  have hall : ∀ t ∈ V.alternatives, RoundTrip t ∧ t.isVariant = false := by
    intro t ht
    obtain ⟨i, rfl⟩ := V.only t ht
    exact ⟨hsound.roundTrip i, hsound.flat i⟩
  have hrest : ∀ t ∈ V.rest, RoundTrip t := fun t ht => (hall t (List.mem_cons_of_mem _ ht)).1
  exact ⟨roundTripAll_of_mem hrest, (hall V.first List.mem_cons_self).1,
    fun t ht => (hall t ht).2, hd⟩

theorem name_injective (hname : (I.property i).name = (I.property j).name) : i = j := by
  have hi := @find_name I i
  rw [hname, find_name] at hi
  exact (Option.some.inj hi).symm

theorem names_apart {m n : Bytes} (hne : m ≠ n) :
    Key.apart (.basic .string Proxy.string_comparable) .hashed m n = true := by
  change (!decide (m = n)) = true
  rw [decide_eq_false hne]
  rfl

theorem mem_listed : i ∈ I.listed ↔ (I.property i).listed = true := by
  unfold Interface.listed
  rw [List.mem_filter, and_iff_right (List.mem_finRange i)]

/-- The entries of the properties, by the variants in them. -/
def entries (V : PropertiesVariant I) (ws : Index I → V.type.Val) :
    List (Bytes × V.type.Val) :=
  I.listed.map (fun i => ((I.property i).name, ws i))

/-- The map that the reply to a GetAll stands for. -/
def sentMap (V : PropertiesVariant I) (ws : Index I → V.type.Val) :
    (Proxy.allProperties V.type).Val :=
  ⟨entries V ws, by
    have hnodup : I.listed.Nodup := (List.nodup_finRange _).filter _
    refine List.pairwise_map.mpr (hnodup.imp fun {i j} hne => ?_)
    exact names_apart (fun heq => hne (name_injective heq))⟩

theorem encode_sentMap (hws : ∀ i, encode V.type (ws i) = boxed _ (o.fields i)) :
    encode (Proxy.allProperties V.type) (sentMap V ws) =
      .container .array ['{', 's', 'v', '}'] (I.listed.map (entry o)) := by
  have hentry : ∀ i, encodePair ['s'] ['v'] (.basic .string (I.property i).name)
      (encode V.type (ws i)) = entry o i := by
    intro i
    rw [hws]
    rfl
  change Wire.container .array ['{', 's', 'v', '}'] ((entries V ws).map
    (fun p => encodePair ['s'] ['v'] (.basic .string p.1) (encode V.type p.2))) = _
  unfold entries
  rw [List.map_map]
  exact congrArg _ (List.map_congr_left fun i _ => hentry i)

theorem keys_equal {α β : Type} {R : β → β → Prop} {xs zs : List (α × β)}
    (hxs : List.Forall₂ (fun p q => p.1 = q.1 ∧ R p.2 q.2) xs zs) :
    xs.map Prod.fst = zs.map Prod.fst := by
  induction hxs with
  | nil => rfl
  | cons hp _ ih => rw [List.map_cons, List.map_cons, hp.1, ih]

theorem exists_of_forall₂ {α β : Type} {R : α → β → Prop} {xs : List α} {zs : List β} {z : β}
    (hxs : List.Forall₂ R xs zs) (hz : z ∈ zs) : ∃ x ∈ xs, R x z := by
  induction hxs with
  | nil => cases hz
  | cons hx _ ih =>
    rcases List.mem_cons.mp hz with rfl | hz
    · exact ⟨_, List.mem_cons_self, hx⟩
    · obtain ⟨x, hmem, hx⟩ := ih hz
      exact ⟨x, List.mem_cons_of_mem _ hmem, hx⟩

/-- An entry for each property that is listed, whose variant is equal to this one. -/
structure Covers (V : PropertiesVariant I) (ws : Index I → V.type.Val)
    (ys : List (Bytes × V.type.Val)) : Prop where
  names : ∀ i, (I.property i).name ∈ ys.map Prod.fst ↔ (I.property i).listed = true
  entries : ∀ p ∈ ys, ∃ i, (I.property i).listed = true ∧ p.1 = (I.property i).name ∧
    Equal V.type (ws i) p.2

theorem covers_of_equal {zs : List (Bytes × V.type.Val)}
    (hzs : List.Forall₂ (fun p q => p.1 = q.1 ∧ Equal V.type p.2 q.2) (entries V ws) zs)
    (hperm : zs.Perm ys) : Covers V ws ys := by
  refine ⟨fun i => ?_, fun p hp => ?_⟩
  · have hnames : (entries V ws).map Prod.fst = I.listed.map (fun i => (I.property i).name) := by
      unfold entries
      rw [List.map_map]
      rfl
    rw [← (hperm.map Prod.fst).mem_iff, ← keys_equal hzs, hnames, ← mem_listed]
    constructor
    · intro hmem
      obtain ⟨j, hj, hname⟩ := List.mem_map.mp hmem
      exact name_injective hname ▸ hj
    · exact List.mem_map_of_mem
  · obtain ⟨q, hq, hname, he⟩ := exists_of_forall₂ hzs (hperm.mem_iff.mpr hp)
    obtain ⟨i, hi, rfl⟩ := List.mem_map.mp hq
    exact ⟨i, mem_listed.mp hi, hname.symm, he⟩

/-- The client reads these variants. -/
theorem getAllCompletes_sent (hr : RoundTrip V.type)
    (hnames : ∀ i, Sendable lib.validUtf8 (I.property i).name)
    (hencode : ∀ i, encode V.type (ws i) = boxed _ (o.fields i))
    (hws : ∀ i, Storable lib V.type (ws i)) :
    ∃ ys, Proxy.getAllCompletes h errnos V.type (allSent o) none = .ok ys ∧ Covers V ws ys.val := by
  have hmap : RoundTrip (Proxy.allProperties V.type) := ⟨⟨nofun, nofun, nofun⟩, hr⟩
  have hstored : StorableTuple lib [Proxy.allProperties V.type] (sentMap V ws, ()) := by
    refine ⟨fun p hp => ?_, trivial⟩
    obtain ⟨i, -, rfl⟩ := List.mem_map.mp hp
    exact ⟨hnames i, hws i⟩
  have hitems := written_items hstored
  obtain ⟨⟨ys, ⟨⟩⟩, hread, he⟩ := @completes_returned lib h [Proxy.allProperties V.type] errnos
    ⟨hmap, trivial⟩ (sentMap V ws, ()) hstored
  unfold returned at hread
  rw [hitems] at hread
  change Proxy.completes h errnos _ (.methodReturn
    [encode (Proxy.allProperties V.type) (sentMap V ws)]) none = _ at hread
  rw [encode_sentMap hencode] at hread
  obtain ⟨zs, hzs, hperm⟩ := he.1
  exact ⟨ys, congrArg (Except.map Prod.fst) hread, covers_of_equal hzs hperm⟩

/-- Variants that hold what they should. What is not among them stays. -/
theorem unpackInto_ok
    (hys : ∀ p ∈ ys, ∃ i v, p.1 = (I.property i).name ∧ (V.place i).get _ p.2 = some v ∧
      Equal _ (o.fields i) v) :
    ∃ result, unpackInto V start ys = .ok result ∧
      (∀ i, Equal _ (o.fields i) (start i) ∨ (I.property i).name ∈ ys.map Prod.fst →
        Equal _ (o.fields i) (result i)) ∧
      ∀ i, (I.property i).name ∉ ys.map Prod.fst → result i = start i := by
  induction ys generalizing start with
  | nil => exact ⟨start, rfl, fun i hi => hi.resolve_right List.not_mem_nil, fun i _ => rfl⟩
  | cons p ys ih =>
    obtain ⟨⟨i, v, hname, hget, he⟩, hys⟩ := List.forall_mem_cons.mp hys
    obtain ⟨result, hresult, hequal, hkept⟩ := @ih (Function.update start i v) hys
    refine ⟨result, ?_, fun j hj => hequal j ?_, fun j hj => ?_⟩
    · rw [unpackInto, hname, find_name]
      simp only [hget]
      exact hresult
    · by_cases hji : j = i
      · subst hji
        rw [Function.update_self]
        exact .inl he
      · rw [Function.update_of_ne hji]
        rcases hj with hj | hj
        · exact .inl hj
        · rcases List.mem_cons.mp hj with hj | hj
          · exact absurd (name_injective (hj.trans hname)) hji
          · exact .inr hj
    · rw [List.map_cons, List.mem_cons, not_or] at hj
      have hji : j ≠ i := fun heq => hj.1 (heq ▸ hname.symm)
      rw [hkept j hj.2, Function.update_of_ne hji]

/-- Some variants do not hold what they should, and the first of these is complained about. -/
theorem unpackInto_wrong {Bad : Index I → Prop}
    (hys : ∀ p ∈ ys, ∃ i, p.1 = (I.property i).name ∧ (Bad i ↔ (V.place i).get _ p.2 = none))
    (hbad : ∃ i, Bad i ∧ (I.property i).name ∈ ys.map Prod.fst) :
    ∃ i, Bad i ∧ unpackInto V start ys = .error ⟨(I.property i).name⟩ := by
  induction ys generalizing start with
  | nil =>
    obtain ⟨i, -, hmem⟩ := hbad
    cases hmem
  | cons p ys ih =>
    obtain ⟨⟨i, hname, hiff⟩, hys⟩ := List.forall_mem_cons.mp hys
    rw [unpackInto, hname, find_name]
    cases hget : (V.place i).get _ p.2 with
    | none => exact ⟨i, hiff.mpr hget, by simp only [hget]⟩
    | some v =>
      simp only [hget]
      refine ih hys ?_
      obtain ⟨j, hj, hmem⟩ := hbad
      rcases List.mem_cons.mp hmem with hmem | hmem
      · obtain rfl := name_injective (hmem.trans hname)
        have hnone := hiff.mp hj
        rw [hget] at hnone
        cases hnone
      · exact ⟨j, hj, hmem⟩

/-- What a value becomes in a variant: the name of a value of an enum stands for that. -/
theorem becomes (p : Place t ts) {v : t.Val} (hv : Storable lib t v) :
    ∃ w : VariantVal ts, encodeAlternative ts w = boxed t v ∧ StorableAlternative lib ts ts w ∧
      (NoEnumName ts t v → w = p.put ts v) ∧
      (¬ NoEnumName ts t v → ∃ e, t ≠ .enum e ∧ ∃ (q : Place (.enum e) ts) (x : e.Val),
        w = q.put ts x) := by
  by_cases hn : NoEnumName ts t v
  · exact ⟨p.put ts v, encode_put p v, storable_put p hv hn, fun _ => rfl,
      fun hno => absurd hn hno⟩
  · cases t with
    | basic b =>
      cases b with
      | string =>
        simp only [NoEnumName, not_forall, not_not] at hn
        obtain ⟨e, he, x, rfl⟩ := hn
        obtain ⟨q⟩ := place_of_mem he
        refine ⟨q.put ts x, encode_put q x, storable_put q (t := .enum e) hv trivial,
          fun hyes => absurd rfl (hyes e he x), fun _ => ⟨e, nofun, q, x, rfl⟩⟩
      | _ => exact absurd trivial hn
    | _ => exact absurd trivial hn

theorem variant_storable {v : VariantVal (t :: ts)}
    (hv : StorableAlternative lib (t :: ts) (t :: ts) v) : Storable lib (.variant t ts) v := by
  cases v <;> exact hv

/-- A property that is listed with the name of a value of an enum. -/
def Mistaken (V : PropertiesVariant I) (o : Object I) (i : Index I) : Prop :=
  (I.property i).listed = true ∧ ¬ NoEnumName V.alternatives _ (o.fields i)

/-- What the client makes of an object: values equal to those of the properties that are listed,
and its defaults for the others. -/
def Mirrors (o : Object I) (defaults result : Fields I) : Prop :=
  ∀ i, if (I.property i).listed then Equal _ (o.fields i) (result i) else result i = defaults i

/-- How a client reads all properties of an object. -/
theorem completes_allSent (hsound : Sound lib I) (hd : V.alternatives.Pairwise Distinguishable)
    (hstored : ∀ i, Storable lib _ (o.fields i)) :
    ((∀ i, ¬ Mistaken V o i) → ∃ result, completes h errnos V start (allSent o) none = .ok result ∧
      Mirrors o start result) ∧
    ((∃ i, Mistaken V o i) → ∃ i, Mistaken V o i ∧
      completes h errnos V start (allSent o) none = .error (.unpack ⟨(I.property i).name⟩)) := by
  have hbecomes : ∀ i, ∃ w : VariantVal V.alternatives,
      encodeAlternative V.alternatives w = boxed _ (o.fields i) ∧
      StorableAlternative lib V.alternatives V.alternatives w ∧
      (NoEnumName V.alternatives _ (o.fields i) → w = (V.place i).put _ (o.fields i)) ∧
      (¬ NoEnumName V.alternatives _ (o.fields i) → ∃ e, (I.property i).type ≠ .enum e ∧
        ∃ (q : Place (.enum e) V.alternatives) (x : e.Val), w = q.put _ x) :=
    fun i => becomes (V.place i) (hstored i)
  choose ws hencode hws hheld hmistaken using hbecomes
  obtain ⟨ys, hread, hcovers⟩ := @getAllCompletes_sent I lib V h errnos o ws
    (roundTrip_variant hsound hd) hsound.names (fun i => encode_variant.trans (hencode i))
    (fun i => variant_storable (hws i))
  have hiff : ∀ p ∈ ys.val, ∃ i, p.1 = (I.property i).name ∧
      (Mistaken V o i ↔ (V.place i).get _ p.2 = none) ∧
      (¬ Mistaken V o i → ∃ v, (V.place i).get _ p.2 = some v ∧ Equal _ (o.fields i) v) := by
    intro p hp
    obtain ⟨i, hlisted, hname, he⟩ := hcovers.entries p hp
    refine ⟨i, hname, ?_⟩
    by_cases hm : Mistaken V o i
    · obtain ⟨e, hne, q, x, hx⟩ := hmistaken i hm.2
      obtain ⟨y, hy, -⟩ := equal_put q (hx ▸ equalAlternative_of_equal he)
      exact ⟨iff_of_true hm (hy ▸ get_put_ne _ _ hne y), fun hno => absurd hm hno⟩
    · have hput := hheld i (not_not.mp (not_and.mp hm hlisted))
      obtain ⟨y, hy, hequal⟩ := equal_put _ (hput ▸ equalAlternative_of_equal he)
      have hget : (V.place i).get _ p.2 = some y := hy ▸ get_put _ y
      exact ⟨iff_of_false hm (by rw [hget]; exact nofun), fun _ => ⟨y, hget, hequal⟩⟩
  unfold completes
  rw [hread]
  constructor
  · intro hnone
    obtain ⟨result, hresult, hequal, hkept⟩ := @unpackInto_ok I V o start ys.val (fun p hp => by
      obtain ⟨i, hname, -, hheld⟩ := hiff p hp
      obtain ⟨v, hv⟩ := hheld (hnone i)
      exact ⟨i, v, hname, hv⟩)
    refine ⟨result, congrArg (Except.mapError _) hresult, fun i => ?_⟩
    split
    · rename_i hlisted
      exact hequal i (.inr ((hcovers.names i).mpr hlisted))
    · rename_i hlisted
      exact hkept i (fun hmem => hlisted ((hcovers.names i).mp hmem))
  · rintro ⟨i, hi⟩
    obtain ⟨j, hj, hresult⟩ := @unpackInto_wrong I V start ys.val (Mistaken V o) (fun p hp => by
      obtain ⟨i, hname, hiff, -⟩ := hiff p hp
      exact ⟨i, hname, hiff⟩) ⟨i, hi, (hcovers.names i).mpr hi.1⟩
    exact ⟨j, hj, congrArg (Except.mapError _) hresult⟩

theorem busGetAll_request {bus : Bus} {preserved : Bool} {peer : Asio.YieldMethodCall.SdBus}
    {x : Proxy true true true preserved} {req : Asio.YieldMethodCall.Request}
    {header : Server.Transaction.Header} (hsound : Sound bus.lib I)
    (hx : Async.cStr preserved x.i = I.name) (hreq : x.getAllRequest bus.lib peer = .ok req) :
    busGetAll bus header req.items = (serveGetAll bus header : Callback (Object I) Unit) := by
  have hstored : StorableTuple bus.lib [.basic .cString] (I.name, ()) := ⟨hsound.name, trivial⟩
  have hitems := request_items hreq
  have hnamed : I.named I.name = true := decide_eq_true rfl
  rw [hx, written_items hstored] at hitems
  rw [hitems]
  simp only [encodeTuple, encode, busGetAll]
  exact if_pos hnamed

/-- A client that asks a generated server for all properties gets a value equal to each of
the object's that is neither explicit nor hidden, whatever the order of the reply is read in,
and the defaults of the others; unless the text of such a std::string property is the name of a
value of an enum that another property has, which is an error of such a property. The object
stays as it is. -/
theorem properties_read {bus : Bus} {s : Frame (Object I)} {preserved : Bool}
    (x : Proxy true true true preserved) (peer : Asio.YieldMethodCall.SdBus)
    (req : Asio.YieldMethodCall.Request) (header : Async.PropertyMirror.Header)
    (V : PropertiesVariant I) (defaults : Fields I) (hsound : Sound bus.lib I)
    (hd : V.alternatives.Pairwise Distinguishable)
    (hstored : ∀ i, Storable bus.lib _ (s.object.fields i))
    (hx : Async.cStr preserved x.i = I.name) (hreq : x.getAllRequest bus.lib peer = .ok req) :
    ∃ t reply, (busGetAll bus header.val req.items).exec s = (.ok (), t) ∧
      t.object = s.object ∧ t.sent = s.sent ++ [reply] ∧
      ((∀ i, ¬ Mistaken V s.object i) →
        ∃ result, completes h errnos V defaults reply none = .ok result ∧
          Mirrors s.object defaults result) ∧
      ((∃ i, Mistaken V s.object i) → ∃ i, Mistaken V s.object i ∧
        completes h errnos V defaults reply none = .error (.unpack ⟨(I.property i).name⟩)) := by
  obtain ⟨id, hserve⟩ := @exec_serveGetAll I bus s header hsound.roundTrip hstored
  rw [busGetAll_request hsound hx hreq, hserve]
  exact ⟨_, _, rfl, rfl, rfl, completes_allSent hsound hd hstored⟩

/-- An interface with a property of an enum type and a text. -/
def labelled : Interface :=
  ⟨[98], [⟨[107], .enum letters, [], [.explicit]⟩, ⟨[108], .basic .string, [], []⟩], by decide⟩

/-- The text is the name of the other value of the enum. -/
def mislabelled : Object labelled where
  emitted := []
  fields
    | ⟨0, _⟩ => (⟨0, Nat.zero_lt_two⟩ : letters.Val)
    | ⟨1, _⟩ => letters.toString ⟨1, Nat.one_lt_two⟩

def kindOrLabel : PropertiesVariant labelled where
  first := .basic .string
  rest := [.enum letters]
  place
    | ⟨0, _⟩ => .later _ _ (.here [])
    | ⟨1, _⟩ => .here _
  only := by
    refine List.forall_mem_cons.mpr ⟨⟨⟨1, Nat.one_lt_two⟩, rfl⟩, ?_⟩
    exact List.forall_mem_cons.mpr ⟨⟨⟨0, Nat.zero_lt_two⟩, rfl⟩, nofun⟩
  distinct := by simp

theorem sound_labelled : Sound someBus.lib labelled := by
  refine ⟨fun i => ?_, fun i => ?_, sendable_single (by decide), fun i => ?_⟩
  · match i with
    | ⟨0, _⟩ => trivial
    | ⟨1, _⟩ => exact basic_roundTrip (by decide)
  · match i with
    | ⟨0, _⟩ | ⟨1, _⟩ => rfl
  · match i with
    | ⟨0, _⟩ | ⟨1, _⟩ => exact sendable_single (by decide)

theorem sendable_letters (v : letters.Val) :
    Sendable someBus.lib.validUtf8 (letters.toString v) := by
  refine ⟨?_, rfl⟩
  revert v
  decide

theorem storable_mislabelled (i : Index labelled) :
    Storable someBus.lib _ (mislabelled.fields i) := by
  match i with
  | ⟨0, _⟩ | ⟨1, _⟩ => exact sendable_letters _

theorem distinguishable_kindOrLabel : kindOrLabel.alternatives.Pairwise Distinguishable := by
  refine List.pairwise_pair.mpr (.inr rfl)

def someFrame : Frame (Object labelled) := ⟨mislabelled, 0, none, [], none⟩

def someGetAll : Asio.YieldMethodCall.Request :=
  ⟨⟨[97], [47], cString Proxy.dbusPropIntf, cString ("GetAll".toUTF8.toList ++ [0])⟩,
    [.basic .string [98]]⟩

theorem properties_read_mislabelled :
    ∃ t reply, (busGetAll someBus someCall someGetAll.items).exec someFrame = (.ok (), t) ∧
      t.sent = [reply] ∧ ∃ i, completes newestFirst someErrnos kindOrLabel mislabelled.fields reply
        none = .error (.unpack ⟨(labelled.property i).name⟩) := by
  obtain ⟨t, reply, hexec, -, hsent, -, hwrong⟩ := @properties_read labelled newestFirst someErrnos
    someBus someFrame true someProxy peers someGetAll someHeader kindOrLabel mislabelled.fields
    sound_labelled distinguishable_kindOrLabel storable_mislabelled rfl rfl
  have hletters : .enum letters ∈ kindOrLabel.alternatives := by
    simp [kindOrLabel, PropertiesVariant.alternatives]
  obtain ⟨i, -, hi⟩ := hwrong ⟨⟨1, Nat.one_lt_two⟩, rfl,
    fun hno => hno letters hletters ⟨1, Nat.one_lt_two⟩ rfl⟩
  exact ⟨t, reply, hexec, hsent, i, hi⟩

end client

end Sdbusplus.Proofs.RemoteProperties
