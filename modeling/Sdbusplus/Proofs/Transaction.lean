import Sdbusplus.Server.Transaction

namespace Sdbusplus.Proofs.Transaction
open Message Server.Transaction

variable {name : Bytes} {hashString : Bytes → UInt64} {s t : Thread} {m : Header}
  {now c : UInt64}

theorem xor_cancel_left {a b c : UInt64} (h : a ^^^ b = a ^^^ c) : b = c := by
  have hxor : a ^^^ (a ^^^ b) = a ^^^ (a ^^^ c) := by rw [h]
  rwa [← UInt64.xor_assoc, ← UInt64.xor_assoc, UInt64.xor_self, UInt64.zero_xor,
    UInt64.zero_xor] at hxor

/-- For one bus, hash_combine tells all messages apart. -/
theorem combine_right_inj {a b c : UInt64} : combine a b = combine a c ↔ b = c := by
  constructor
  · intro h
    have hsum := xor_cancel_left h
    rwa [UInt64.add_left_inj, UInt64.add_left_inj, UInt64.add_left_inj] at hsum
  · intro h
    rw [h]

/-- The one message for which get_id makes up an id of its own. -/
def unset (a : UInt64) : UInt64 := a - a >>> (2 : UInt64) - a <<< (6 : UInt64) - 0x9e3779b9

theorem combine_unset (a : UInt64) : combine a (unset a) = 0 := by
  rw [combine, unset, UInt64.sub_add_cancel, UInt64.sub_add_cancel, UInt64.sub_add_cancel,
    UInt64.xor_self]

theorem combine_ne_zero {a b : UInt64} (h : b ≠ unset a) : combine a b ≠ 0 := by
  rw [← combine_unset a]
  exact fun heq => h (combine_right_inj.mp heq)

/-- A call and the replies to it have one hash. -/
theorem hashMessage_of_callCookie (hm : m.callCookie = some c) : hashMessage now m = .ok c := by
  obtain ⟨type, cookie, replyCookie⟩ := m
  unfold Header.callCookie at hm
  unfold hashMessage
  rcases type with e | (_ | _ | _ | _ | _)
  case ok.methodCall =>
    cases cookie with
    | error e => cases hm
    | ok d => cases hm; rfl
  case ok.methodReturn | ok.methodError =>
    cases replyCookie with
    | error e => cases hm
    | ok d => cases hm; rfl
  all_goals cases hm

theorem setId_of_callCookie {id : UInt64} (hm : m.callCookie = some c) :
    setId id ⟨name, hashString, now⟩ m = (.ok (), combine (hashString name) c) := by
  have hhash : hashMessage now m = .ok c := hashMessage_of_callCookie hm
  have htransaction : hashTransaction ⟨name, hashString, now⟩ m =
      .ok (combine (hashString name) c) := by
    unfold hashTransaction
    rw [hhash]
    rfl
  unfold setId
  rw [htransaction]

theorem setId_keeps {id : UInt64} {u : Surroundings} {e : Thrown} {value : UInt64}
    (hs : setId id u m = (.error e, value)) : value = id := by
  unfold setId at hs
  cases hhash : hashTransaction u m with
  | ok value =>
    rw [hhash] at hs
    cases hs
  | error e =>
    rw [hhash] at hs
    cases hs
    rfl

theorem getId_set {id time thread : UInt64} (h : id ≠ 0) : getId id time thread = (id, id) := by
  unfold getId
  rw [if_neg h]

/-- The id is the one that its origin gives, the one cookie and the value 0 aside. -/
def Given (hash1 : UInt64) : Origin → UInt64 → Prop
  | .unknown, _ => True
  | .cookie c, id => c ≠ unset hash1 → id = combine hash1 c
  | .value v, id => v ≠ 0 → id = v

/-- get_id gives such an id as it is. -/
theorem given_getId {hash1 id time thread : UInt64} {o : Origin} (h : Given hash1 o id) :
    Given hash1 o (getId id time thread).2 := by
  cases o with
  | unknown => trivial
  | cookie c =>
    intro hc
    have hid := h hc
    have hne : id ≠ 0 := hid ▸ combine_ne_zero hc
    rw [getId_set hne]
    exact hid
  | value v =>
    intro hv
    have hid := h hv
    have hne : id ≠ 0 := hid ▸ hv
    rw [getId_set hne]
    exact hid

/-- The id of a thread and all that get_id has returned. -/
structure Own (hash1 : UInt64) (s : Thread) : Prop where
  current : Given hash1 s.origin s.id
  observed : ∀ o ∈ s.observed, Given hash1 o.1 o.2

theorem given_callback {id : UInt64} (hset : setId s.id ⟨name, hashString, now⟩ m = (.ok (), id)) :
    Given (hashString name) m.origin id := by
  unfold Header.origin
  cases hm : m.callCookie with
  | none => trivial
  | some c =>
    rw [setId_of_callCookie hm] at hset
    cases hset
    exact fun _ => rfl

theorem own_step {e : Event} (h : Own (hashString name) s)
    (hs : step name hashString s e = some t) : Own (hashString name) t := by
  cases e with
  | callback m now =>
    simp only [step] at hs
    split at hs
    · rename_i id hset
      cases hs
      exact ⟨given_callback hset, h.observed⟩
    · rename_i e id hset
      cases hs
      obtain rfl := setId_keeps hset
      exact h
  | setId value =>
    cases hs
    exact ⟨fun _ => rfl, h.observed⟩
  | getId time thread =>
    cases hs
    have hgiven : Given (hashString name) s.origin (getId s.id time thread).2 :=
      given_getId h.current
    refine ⟨hgiven, fun o ho => ?_⟩
    rcases List.mem_append.mp ho with ho | ho
    · exact h.observed o ho
    · obtain rfl := List.mem_singleton.mp ho
      exact hgiven

theorem own_reachable (hr : (machine name hashString).Reachable s) : Own (hashString name) s :=
  hr.invariant ⟨trivial, nofun⟩ (fun _ _ _ h _ hs => own_step h hs)

/-- On every bus there is one cookie such that in every run, whatever is handled in
between, the ids seen while calls with other cookies are handled, or replies to them made,
are equal for equal cookies and different for different ones. A value that was set is seen
as it is, if it is not 0. -/
theorem transactions_told_apart (name : Bytes) (hashString : Bytes → UInt64) :
    ∃ z, ∀ s, (machine name hashString).Reachable s →
      (∀ c c' id id', (Origin.cookie c, id) ∈ s.observed → (Origin.cookie c', id') ∈ s.observed →
        c ≠ z → c' ≠ z → (id = id' ↔ c = c')) ∧
      ∀ v id, (Origin.value v, id) ∈ s.observed → v ≠ 0 → id = v := by
  refine ⟨unset (hashString name), fun s hr => ?_⟩
  have hown := own_reachable hr
  refine ⟨fun c c' id id' ho ho' hc hc' => ?_, fun v id ho hv => hown.observed _ ho hv⟩
  have hid : id = combine (hashString name) c := hown.observed _ ho hc
  have hid' : id' = combine (hashString name) c' := hown.observed _ ho' hc'
  rw [hid, hid']
  exact combine_right_inj

end Sdbusplus.Proofs.Transaction
