import Sdbusplus.Asio.SetProperty

namespace Sdbusplus.Proofs.SetProperty
open Message Asio.SetProperty Asio.SetProperty.Interface
open Asio (SetPropertyReturnValue)

variable {V : Type} {s : Interface V} {p : Callback V} {w : Write V} {value old : V}
  {i : Option V}

/-- The value that a write asks for, when there is one of the property's type. -/
def input (p : Callback V) : Write V → Option V
  | .setProperty _ value => p.type.cast value
  | .set m => m.toOption

/-- The setter takes the value asked for. -/
def accepted (p : Callback V) (old : V) : Option V → Bool
  | none => false
  | some v =>
    match (p.setFunction.func v old).1 with
    | .ok b => b
    | .error _ => false

/-- The stored value after a write. -/
def after (p : Callback V) (old : V) : Option V → V
  | none => old
  | some v => (p.setFunction.func v old).2

/-- The write is accepted, and operator== tells the values apart. -/
def changes (p : Callback V) (old : V) (i : Option V) : Bool :=
  accepted p old i && !p.equality.same old (after p old i)

/-- All that a write does. -/
def written (s : Interface V) (p : Callback V) (i : Option V) : Interface V :=
  { s.store p (after p (s.values p.value) i) with
    emitted := s.emitted ++ if changes p (s.values p.value) i then [p.name] else [] }

theorem after_rejected (h : accepted p old i = false) : after p old i = old := by
  cases i with
  | none => rfl
  | some v =>
    apply p.setFunction.unmodified
    intro hok
    simp [accepted, hok] at h

theorem store_self : s.store p (s.values p.value) = s := by
  have hvalues : (fun i => if i = p.value then s.values p.value else s.values i) = s.values := by
    funext i
    by_cases hi : i = p.value
    · rw [if_pos hi, hi]
    · rw [if_neg hi]
  rw [store, hvalues]

theorem find_property (hp : p ∈ s.properties) :
    s.properties.find? (fun element => element.name = p.name) = some p := by
  have hdistinct := s.distinct
  generalize s.properties = ps at hp hdistinct
  induction ps with
  | nil => cases hp
  | cons q ps ih =>
    obtain ⟨hq, hdistinct⟩ := List.nodup_cons.mp hdistinct
    rcases List.mem_cons.mp hp with rfl | hp
    · exact List.find?_cons_of_pos (by simp)
    · have hne : q.name ≠ p.name := fun heq => hq (heq ▸ List.mem_map_of_mem hp)
      rw [List.find?_cons_of_neg (by simpa using hne)]
      exact ih hp hdistinct

/-- What the two callback classes can return, given the stored value and the one asked for. -/
inductive Verdict (p : Callback V) (old : V) (i : Option V) :
    Except Thrown SetPropertyReturnValue → Prop
  | thrown (e : Thrown) (rejected : accepted p old i = false) : Verdict p old i (.error e)
  | fail (rejected : accepted p old i = false) : Verdict p old i (.ok .fail)
  | same (taken : accepted p old i = true)
      (equal : p.equality.same old (after p old i) = true) : Verdict p old i (.ok .sameValueUpdated)
  | updated (taken : accepted p old i = true)
      (apart : p.equality.same old (after p old i) = false) : Verdict p old i (.ok .valueUpdated)

theorem onSetMessage_verdict (m : Except Thrown V) :
    ∃ r, s.onSetMessage p m = (r, s.store p (after p (s.values p.value) m.toOption)) ∧
      Verdict p (s.values p.value) m.toOption r := by
  cases m with
  | error e =>
    refine ⟨.error e, ?_, .thrown e rfl⟩
    rw [onSetMessage]
    exact congrArg (Prod.mk _) store_self.symm
  | ok v =>
    cases hres : (p.setFunction.func v (s.values p.value)).1 with
    | error e =>
      refine ⟨.error e, by simp [onSetMessage, hres, after, Except.toOption], .thrown e ?_⟩
      simp [accepted, hres, Except.toOption]
    | ok b =>
      cases b with
      | false =>
        refine ⟨.ok .fail, by simp [onSetMessage, hres, after, Except.toOption], .fail ?_⟩
        simp [accepted, hres, Except.toOption]
      | true =>
        have htaken : accepted p (s.values p.value) (some v) = true := by simp [accepted, hres]
        cases hsame : p.equality.same (s.values p.value)
            (p.setFunction.func v (s.values p.value)).2 with
        | true =>
          exact ⟨.ok .sameValueUpdated, by simp [onSetMessage, hres, hsame, after, Except.toOption],
            .same htaken hsame⟩
        | false =>
          exact ⟨.ok .valueUpdated, by simp [onSetMessage, hres, hsame, after, Except.toOption],
            .updated htaken hsame⟩

/-- The two callback classes do the same. -/
theorem onSetValue_eq {v : V} (hcast : p.type.cast value = some v) :
    s.onSetValue p value = s.onSetMessage p (.ok v) := by
  rw [onSetValue, hcast]
  rfl

theorem onSetValue_verdict (value : V) :
    ∃ r, s.onSetValue p value = (r, s.store p (after p (s.values p.value) (p.type.cast value))) ∧
      Verdict p (s.values p.value) (p.type.cast value) r := by
  cases hcast : p.type.cast value with
  | none =>
    refine ⟨.error .other, ?_, .thrown .other rfl⟩
    rw [onSetValue, hcast]
    exact congrArg (Prod.mk _) store_self.symm
  | some v =>
    rw [onSetValue_eq hcast]
    exact onSetMessage_verdict (.ok v)

theorem written_silent (h : changes p (s.values p.value) i = false) :
    s.store p (after p (s.values p.value) i) = written s p i := by
  rw [written, h]
  simp [store]

theorem written_signal (hinit : s.isInitialized = true)
    (h : changes p (s.values p.value) i = true) :
    (s.store p (after p (s.values p.value) i)).signalProperty p.name = written s p i := by
  rw [written, h]
  simp [store, signalProperty, hinit]

theorem setHandler_written (hinit : s.isInitialized = true) (m : Except Thrown V) :
    (s.setHandler p m).2 = written s p m.toOption := by
  obtain ⟨r, heq, hr⟩ := onSetMessage_verdict (s := s) (p := p) m
  rw [setHandler, heq]
  cases hr with
  | thrown e rejected =>
    have hsilent := written_silent (s := s) (p := p) (by rw [changes, rejected]; rfl)
    cases e with
    | sdbusplus name description => exact hsilent
    | other => exact hsilent
  | fail rejected => exact written_silent (by rw [changes, rejected]; rfl)
  | same taken equal => exact written_silent (by rw [changes, equal, Bool.not_true, Bool.and_false])
  | updated taken apart => exact written_signal hinit (by rw [changes, taken, apart]; rfl)

theorem setProperty_cases (hp : p ∈ s.properties) (hinit : s.isInitialized = true)
    (changesOnly : Bool) (value : V) :
    (s.setProperty changesOnly p.name value).2 = written s p (p.type.cast value) ∧
    ((s.setProperty changesOnly p.name value).1 = .ok true ↔
      accepted p (s.values p.value) (p.type.cast value) = true ∧
        (p.equality.same (s.values p.value) (after p (s.values p.value) (p.type.cast value)) =
          false ∨ changesOnly = false)) := by
  obtain ⟨r, heq, hr⟩ := onSetValue_verdict (s := s) (p := p) value
  rw [setProperty, hinit, find_property hp]
  simp only [Bool.not_true, Bool.false_eq_true, if_false, heq]
  cases hr with
  | thrown e rejected =>
    exact ⟨written_silent (by rw [changes, rejected]; rfl), by simp [rejected]⟩
  | fail rejected =>
    exact ⟨written_silent (by rw [changes, rejected]; rfl), by simp [rejected]⟩
  | same taken equal =>
    refine ⟨written_silent (by rw [changes, equal, Bool.not_true, Bool.and_false]), ?_⟩
    simp [taken, equal]
  | updated taken apart =>
    exact ⟨written_signal hinit (by rw [changes, taken, apart]; rfl), by simp [taken, apart]⟩

theorem write_written (hp : p ∈ s.properties) (hinit : s.isInitialized = true) (w : Write V) :
    s.write p w = written s p (input p w) := by
  cases w with
  | setProperty changesOnly value => exact (setProperty_cases hp hinit changesOnly value).1
  | set m => exact setHandler_written hinit m

/-- A client that starts with a value and follows the writes. -/
def followAll (p : Callback V) (c : V × Interface V) (ws : List (Write V)) : V × Interface V :=
  ws.foldl (follow p) c

/-- The client holds the stored value, or one that operator== does not tell from it. -/
def Current (p : Callback V) (c : V × Interface V) : Prop :=
  c.1 = c.2.values p.value ∨ p.equality.same c.1 (c.2.values p.value) = true

theorem written_value : (written s p i).values p.value = after p (s.values p.value) i :=
  if_pos rfl

theorem follow_eq {c : V} (hp : p ∈ s.properties) (hinit : s.isInitialized = true)
    (hget : p.getFunction = nopGetValue) (w : Write V) :
    follow p (c, s) w = (if changes p (s.values p.value) (input p w) then
      after p (s.values p.value) (input p w) else c, written s p (input p w)) := by
  have hnew : (written s p (input p w)).emitted.drop s.emitted.length =
      if changes p (s.values p.value) (input p w) then [p.name] else [] := List.drop_left
  rw [follow]
  simp only [write_written hp hinit, hnew]
  cases changes p (s.values p.value) (input p w) with
  | false => rfl
  | true =>
    have hstore := store_self (s := written s p (input p w)) (p := p)
    rw [written_value] at hstore
    have hgot : (written s p (input p w)).getHandler p =
        (after p (s.values p.value) (input p w), written s p (input p w)) := by
      rw [getHandler, hget, nopGetValue, written_value, hstore]
    simpa using hgot

theorem follow_current {c : V} (hp : p ∈ s.properties) (hinit : s.isInitialized = true)
    (hget : p.getFunction = nopGetValue) (hc : Current p (c, s)) (w : Write V) :
    Current p (follow p (c, s) w) := by
  rw [follow_eq hp hinit hget, Current]
  simp only [written_value]
  cases hch : changes p (s.values p.value) (input p w) with
  | true => exact .inl rfl
  | false =>
    cases htaken : accepted p (s.values p.value) (input p w) with
    | false =>
      rw [after_rejected htaken]
      exact hc
    | true =>
      -- The new value was taken over in silence, so operator== does not tell it from the old.
      have hsame : p.equality.same (s.values p.value)
          (after p (s.values p.value) (input p w)) = true := by
        simpa [changes, htaken] using hch
      right
      rcases hc with hold | hold
      · rw [show c = s.values p.value from hold]
        exact hsame
      · exact p.equality.trans _ _ _ hold hsame

theorem followAll_current {c : V} (hp : p ∈ s.properties) (hinit : s.isInitialized = true)
    (hget : p.getFunction = nopGetValue) (hc : Current p (c, s)) (ws : List (Write V)) :
    Current p (followAll p (c, s) ws) := by
  induction ws generalizing c s with
  | nil => exact hc
  | cons w ws ih =>
    have hnext := follow_current hp hinit hget hc w
    rw [follow_eq hp hinit hget] at hnext
    rw [followAll, List.foldl_cons, follow_eq hp hinit hget]
    exact ih (s := written s p (input p w)) hp hinit hnext

theorem changes_iff (hidentity : ∀ a b, p.equality.same a b = true ↔ a = b) :
    changes p old i = true ↔ after p old i ≠ old := by
  rw [changes, Bool.and_eq_true, Bool.not_eq_true', ← Bool.not_eq_true, hidentity]
  constructor
  · intro h
    exact Ne.symm h.2
  · intro h
    cases htaken : accepted p old i with
    | true => exact ⟨rfl, Ne.symm h⟩
    | false => exact absurd (after_rejected htaken) h

/-- Both ways to write a property do the same with the same value: the setter decides, and
PropertiesChanged is sent when it took a value that operator== tells from the old one. So
a client that follows the signals is up to date, as far as operator== can tell. -/
theorem property_writes_observed (hp : p ∈ s.properties) (hinit : s.isInitialized = true)
    (hget : p.getFunction = nopGetValue) :
    (∀ changesOnly value v, p.type.cast value = some v →
      (s.setProperty changesOnly p.name value).2 = (s.setHandler p (.ok v)).2) ∧
    (∀ w, (s.write p w).values p.value = after p (s.values p.value) (input p w) ∧
      (s.write p w).emitted = s.emitted ++
        if changes p (s.values p.value) (input p w) then [p.name] else []) ∧
    (∀ ws, Current p (followAll p (s.values p.value, s) ws)) ∧
    (∀ changesOnly value, (s.setProperty changesOnly p.name value).1 = .ok true ↔
      accepted p (s.values p.value) (p.type.cast value) = true ∧
        (p.equality.same (s.values p.value) (after p (s.values p.value) (p.type.cast value)) =
          false ∨ changesOnly = false)) ∧
    -- Where operator== is the identity, this is about the stored value itself.
    ((∀ a b, p.equality.same a b = true ↔ a = b) →
      (∀ w, (s.write p w).emitted = s.emitted ++ [p.name] ↔
        (s.write p w).values p.value ≠ s.values p.value) ∧
      (∀ ws, (followAll p (s.values p.value, s) ws).1 =
        (followAll p (s.values p.value, s) ws).2.values p.value) ∧
      ∀ changesOnly value, (s.setProperty changesOnly p.name value).1 = .ok true ↔
        accepted p (s.values p.value) (p.type.cast value) = true ∧
          ((s.setProperty changesOnly p.name value).2.values p.value ≠ s.values p.value ∨
            changesOnly = false)) := by
  have hstart : Current p (s.values p.value, s) := .inl rfl
  have hcurrent := followAll_current hp hinit hget hstart
  refine ⟨fun changesOnly value v hcast => ?_, fun w => ?_, hcurrent,
    fun changesOnly value => (setProperty_cases hp hinit changesOnly value).2,
    fun hidentity => ⟨fun w => ?_, fun ws => ?_, fun changesOnly value => ?_⟩⟩
  · rw [(setProperty_cases hp hinit changesOnly value).1, setHandler_written hinit, hcast]
    rfl
  · rw [write_written hp hinit]
    exact ⟨written_value, rfl⟩
  · rw [write_written hp hinit, written_value, ← changes_iff hidentity, written]
    cases changes p (s.values p.value) (input p w) <;> simp
  · rcases hcurrent ws with hc | hc
    · exact hc
    · exact (hidentity _ _).mp hc
  · obtain ⟨hwritten, hreturns⟩ := setProperty_cases hp hinit changesOnly value
    rw [hreturns, hwritten, written_value, ← Bool.not_eq_true, hidentity, ne_comm]

/-- details::nop_set_value. -/
def nopSetter : Setter V where
  func newValue _ := (.ok true, newValue)
  unmodified _ _ h := absurd rfl h

/-- An interface with the property P alone, which has the default callbacks. -/
def single (equality : Equality V) (cast : V → Option V) (value : V) : Interface V where
  isInitialized := true
  properties := [⟨[80], ⟨[], cast⟩, equality, nopSetter, nopGetValue, 0⟩]
  distinct := by simp
  values := fun _ => value
  emitted := []

def identity [DecidableEq V] : Equality V where
  same a b := a = b
  trans a b c hab hbc := by simp_all

def byteProperty : Callback UInt8 := ⟨[80], ⟨[], some⟩, identity, nopSetter, nopGetValue, 0⟩

theorem property_writes_observed_byte :
    ((single identity some (7 : UInt8)).setProperty false [80] 9).2 =
      ((single identity some (7 : UInt8)).setHandler byteProperty (.ok 9)).2 ∧
    (followAll byteProperty (7, single identity some (7 : UInt8))
      [.set (.ok 9), .setProperty true 9, .set (.error .other), .setProperty false 8]).1 =
        (followAll byteProperty (7, single identity some (7 : UInt8))
          [.set (.ok 9), .setProperty true 9, .set (.error .other),
            .setProperty false 8]).2.values 0 := by
  have hp : byteProperty ∈ (single identity some (7 : UInt8)).properties :=
    List.mem_singleton.mpr rfl
  obtain ⟨hsame, -, -, -, hexact⟩ := property_writes_observed hp rfl rfl
  obtain ⟨-, hfollow, -⟩ := hexact (fun a b => decide_eq_true_iff)
  exact ⟨hsame false 9 9 rfl, hfollow _⟩

/-- operator== of double. -/
def doubleEquality : Equality (BitVec 64) where
  same := doubleSame
  trans a b c hab hbc := by
    unfold doubleSame at *
    split at hab
    · rename_i x y hx hy
      rw [hy] at hbc
      split at hbc
      · rename_i y' z hy' hz
        cases hy'
        rw [hx, hz]
        simp_all
      · cases hbc
    · cases hab

def doubleProperty : Callback (BitVec 64) :=
  ⟨[80], ⟨[], some⟩, doubleEquality, nopSetter, nopGetValue, 0⟩

/-- A NaN, 0.0 and -0.0. -/
def nan : BitVec 64 := 0x7ff8000000000000#64

def zero : BitVec 64 := 0#64

def minusZero : BitVec 64 := 0x8000000000000000#64

/-- A NaN that is written over itself is announced, and -0.0 over 0.0 is not. -/
theorem double_writes_misreported :
    (((single doubleEquality some nan).write doubleProperty (.setProperty true nan)).values 0 =
        (single doubleEquality some nan).values 0 ∧
      ((single doubleEquality some nan).write doubleProperty (.setProperty true nan)).emitted =
        [[80]] ∧
      ((single doubleEquality some nan).setProperty true [80] nan).1 = .ok true) ∧
    ((single doubleEquality some zero).write doubleProperty (.set (.ok minusZero))).values 0 ≠
        (single doubleEquality some zero).values 0 ∧
      ((single doubleEquality some zero).write doubleProperty (.set (.ok minusZero))).emitted =
        [] ∧
      (followAll doubleProperty (zero, single doubleEquality some zero)
        [.set (.ok minusZero)]).1 = zero ∧
      (followAll doubleProperty (zero, single doubleEquality some zero)
        [.set (.ok minusZero)]).2.values 0 = minusZero := by
  refine ⟨⟨rfl, rfl, rfl⟩, ?_, rfl, rfl, rfl⟩
  change minusZero ≠ zero
  decide

end Sdbusplus.Proofs.SetProperty
