import Sdbusplus.Asio.DbusInterface
import Sdbusplus.Message.ObjectPath

namespace Sdbusplus.Proofs.DbusInterface
open Message Asio Asio.DbusInterface

variable {V : Type} {s t u : DbusInterface V} {c : Call V} {e : Event V}
  {es : List (Event V)} {valid : Bytes → Bool}

/-- What an entry for each registered object should be. -/
def table (s : DbusInterface V) : List VtableEntry :=
  .start 0 :: (entriesOf s.propertyCallbacks propertyEntry ++
    entriesOf s.methodCallbacks methodEntry ++ entriesOf s.signals signalEntry)

/-- What sd-bus takes of the table: the entries before the first end. -/
def handed (s : DbusInterface V) : List VtableEntry :=
  s.vtable.elements.takeWhile (fun entry => entry ≠ .end_)

def Exposes (s : DbusInterface V) : Prop := handed s = table s

/-- How many objects are registered. -/
def registered (s : DbusInterface V) : Nat :=
  s.propertyCallbacks.size + s.methodCallbacks.size + s.signals.size

theorem length_table : (table s).length = 1 + registered s := by
  simp only [table, entriesOf, List.length_cons, List.length_append, List.length_mapIdx,
    registered, Vec.size]
  omega

theorem mem_entriesOf {α : Type} {v : Vec α} {entry : Vec.Addr → α → VtableEntry}
    {x : VtableEntry} (h : x ∈ entriesOf v entry) :
    ∃ i a, v.elements[i]? = some a ∧ x = entry (v.addr i) a := by
  obtain ⟨i, hi, hx⟩ := List.mem_mapIdx.mp h
  exact ⟨i, v.elements[i], List.getElem?_eq_getElem hi, hx.symm⟩

theorem table_no_end : ∀ entry ∈ table s, entry ≠ .end_ := by
  intro entry hentry heq
  subst heq
  simp only [table, List.mem_cons, List.mem_append] at hentry
  rcases hentry with h | (h | h) | h
  · cases h
  · obtain ⟨i, a, -, hx⟩ := mem_entriesOf h
    cases hx
  · obtain ⟨i, a, -, hx⟩ := mem_entriesOf h
    cases hx
  · obtain ⟨i, a, -, hx⟩ := mem_entriesOf h
    cases hx

/-- A table is read up to the first end in it. -/
theorem takeWhile_table {rest : List VtableEntry} :
    (table s ++ .end_ :: rest).takeWhile (fun entry => entry ≠ .end_) = table s := by
  rw [List.takeWhile_append_of_pos (fun entry h => by simpa using table_no_end entry h)]
  simp

theorem fillVtable_vtable : s.fillVtable.vtable.elements =
    s.vtable.elements ++ (table s.fillVtable ++ [.end_]) := by
  simp [fillVtable, table]

theorem fillVtable_registered : registered s.fillVtable = registered s := by
  simp [fillVtable, registered]

/-- The four vectors are as they were. -/
structure Kept (s t : DbusInterface V) : Prop where
  signals : t.signals = s.signals
  propertyCallbacks : t.propertyCallbacks = s.propertyCallbacks
  methodCallbacks : t.methodCallbacks = s.methodCallbacks
  vtable : t.vtable = s.vtable

theorem Kept.refl : Kept s s := ⟨rfl, rfl, rfl, rfl⟩

theorem Kept.trans (h : Kept s t) (h' : Kept t u) : Kept s u where
  signals := h'.signals.trans h.signals
  propertyCallbacks := h'.propertyCallbacks.trans h.propertyCallbacks
  methodCallbacks := h'.methodCallbacks.trans h.methodCallbacks
  vtable := h'.vtable.trans h.vtable

theorem Kept.table (h : Kept s t) : table t = table s := by
  rw [DbusInterface.table, h.signals, h.propertyCallbacks, h.methodCallbacks]
  rfl

theorem Kept.registered (h : Kept s t) : registered t = registered s := by
  rw [DbusInterface.registered, h.signals, h.propertyCallbacks, h.methodCallbacks]
  rfl

/-- The signals of the ObjectManager interface among those sent. -/
def announced (s : DbusInterface V) : List Emission :=
  s.emitted.filter (fun emission => emission = .interfacesAdded ∨ emission = .interfacesRemoved)

/-- Besides the vectors the inner interface and its announcements are as they were. -/
structure Undisturbed (s t : DbusInterface V) : Prop extends Kept s t where
  interface : t.interface = s.interface
  announced : announced t = announced s

theorem Undisturbed.refl : Undisturbed s s := ⟨.refl, rfl, rfl⟩

theorem Undisturbed.trans (h : Undisturbed s t) (h' : Undisturbed t u) : Undisturbed s u where
  toKept := h.toKept.trans h'.toKept
  interface := h'.interface.trans h.interface
  announced := h'.announced.trans h.announced

theorem undisturbed_values {f : Nat → V} : Undisturbed s { s with values := f } :=
  ⟨⟨rfl, rfl, rfl, rfl⟩, rfl, rfl⟩

theorem signalProperty_undisturbed {name : Bytes} :
    Undisturbed s (s.signalProperty name).2 := by
  unfold signalProperty
  split
  · exact .refl
  · refine ⟨⟨rfl, rfl, rfl, rfl⟩, rfl, ?_⟩
    simp [announced]

theorem setProperty_undisturbed [DecidableEq V] {changesOnly : Bool} {name : Bytes} {value : V} :
    Undisturbed s (s.setProperty changesOnly name value).2 := by
  unfold setProperty
  split
  · exact .refl
  split
  · exact .refl
  split
  · exact .refl
  dsimp only
  split
  · exact undisturbed_values.trans signalProperty_undisturbed
  · exact undisturbed_values
  · exact undisturbed_values

theorem announce_undisturbed (elements : List (PropertyCallback V)) :
    Undisturbed s (elements.foldl (fun s element => (s.signalProperty element.name).2) s) := by
  induction elements generalizing s with
  | nil => exact .refl
  | cons element elements ih => exact signalProperty_undisturbed.trans ih

/-- The object after sd_bus_add_object_vtable took its table. -/
def install (s : DbusInterface V) : DbusInterface V :=
  { s.fillVtable with
    interface := some ⟨s.fillVtable.vtable.addr 0, false⟩
    emitted := s.fillVtable.emitted ++ [.interfacesAdded] }

theorem kept_install : Kept s.fillVtable (install s) := ⟨rfl, rfl, rfl, rfl⟩

/-- What initialize() does, by the object it is called on and the answer of sd-bus. -/
theorem initialize_cases (r : Int) (skip : Bool) :
    (s.interface ≠ none ∧ s.initializeInterface r skip = (.returned false, s)) ∨
    (s.interface = none ∧ r < 0 ∧ s.initializeInterface r skip =
      (.sdBusError (-r) "sd_bus_add_object_vtable", s.fillVtable)) ∨
    (s.interface = none ∧ 0 ≤ r ∧ ∃ t, s.initializeInterface r skip = (.returned true, t) ∧
      Undisturbed (install s) t) := by
  unfold initializeInterface isInitialized
  by_cases hinit : s.interface = none
  · right
    rw [hinit, Option.isSome_none, if_neg (by simp)]
    dsimp only
    by_cases hr : r < 0
    · exact .inl ⟨rfl, hr, if_pos hr⟩
    · refine .inr ⟨rfl, Int.not_lt.mp hr, ?_⟩
      rw [if_neg hr]
      split
      · exact ⟨_, rfl, .refl⟩
      · exact ⟨_, rfl, announce_undisturbed _⟩
  · left
    refine ⟨hinit, if_pos ?_⟩
    exact Option.isSome_iff_ne_none.mpr hinit

/-- A call of initialize() that sd_bus_add_object_vtable makes throw, if it gets there. -/
def refused : Event V → Bool
  | .call (.initializeInterface r _) => r < 0
  | _ => false

/-- A call of initialize() that sd_bus_add_object_vtable lets succeed, if it gets there. -/
def accepted : Event V → Bool
  | .call (.initializeInterface r _) => 0 ≤ r
  | _ => false

/-- A call that registers something while the interface is not initialised. -/
def registers (valid : Bytes → Bool) : Event V → Bool
  | .call (.registerPropertyR name _ _ _) => valid name
  | .call (.registerPropertyRw name _ _ _ _) => valid name
  | .call (.registerSignal name _) => valid name
  | .call (.registerMethod ..) => true
  | _ => false

/-- What a registration adds to. -/
inductive Registers (s t : DbusInterface V) : Prop
  | property (p : PropertyCallback V) (values : Nat → V)
      (eq : t = { s with values, propertyCallbacks := s.propertyCallbacks.emplaceBack p })
  | method (m : MethodCallback)
      (eq : t = { s with methodCallbacks := s.methodCallbacks.emplaceBack m })
  | signal (g : Signal) (eq : t = { s with signals := s.signals.emplaceBack g })

/-- Everything that a step does. -/
inductive Stepped (valid : Bytes → Bool) (s : DbusInterface V) (e : Event V)
    (t : DbusInterface V) : Prop
  | register (h : registers valid e = true) (fresh : s.interface = none) (changes : Registers s t)
  | refuse (h : refused e = true) (fresh : s.interface = none) (eq : t = s.fillVtable)
  | accept (h : accepted e = true) (fresh : s.interface = none)
      (installed : Undisturbed (install s) t)
  | nothing (h : s.interface = none →
      registers valid e = false ∧ refused e = false ∧ accepted e = false)
      (kept : Undisturbed s t)
  | destroy (h : e = .destroy) (eq : t = s.destroy)

theorem nothing_of_initialized (h : s.interface ≠ none) : Stepped valid s e s :=
  .nothing (fun hnone => absurd hnone h) .refl

/-- A registration adds its object or, if it returns false, nothing. -/
theorem register_stepped {b : Bool} (hreg : registers valid e = b) (href : refused e = false)
    (hacc : accepted e = false) (hadd : Registers s u) :
    Stepped valid s e (if s.isInitialized then (Outcome.returned false, s)
      else if !b then (Outcome.returned false, s) else (Outcome.returned true, u)).2 := by
  split
  · rename_i h
    exact nothing_of_initialized (Option.isSome_iff_ne_none.mp h)
  · rename_i h
    split
    · rename_i hb
      exact .nothing (fun _ => ⟨hreg.trans (by simpa using hb), href, hacc⟩) .refl
    · rename_i hb
      exact .register (hreg.trans (by simpa using hb)) (Option.not_isSome_iff_eq_none.mp h) hadd

theorem initialize_stepped {r : Int} {skip : Bool} :
    Stepped valid s (.call (.initializeInterface r skip)) (s.initializeInterface r skip).2 := by
  rcases initialize_cases (s := s) r skip with
    ⟨hinit, heq⟩ | ⟨hfresh, hr, heq⟩ | ⟨hfresh, hr, t, heq, ht⟩
  · rw [heq]
    exact nothing_of_initialized hinit
  · rw [heq]
    exact .refuse (decide_eq_true hr) hfresh rfl
  · rw [heq]
    exact .accept (decide_eq_true hr) hfresh ht

theorem perform_stepped [DecidableEq V] : Stepped valid s (.call c) (s.perform valid c).2 := by
  cases c with
  | registerPropertyR name type property flags =>
    exact register_stepped rfl rfl rfl (.property _ _ rfl)
  | registerPropertyRw name type property flags setFunction =>
    exact register_stepped rfl rfl rfl (.property _ _ rfl)
  | registerSignal name signature => exact register_stepped rfl rfl rfl (.signal _ rfl)
  | registerMethod name argType resultType flags =>
    exact register_stepped (b := true) rfl rfl rfl (.method _ rfl)
  | initializeInterface r skip => exact initialize_stepped
  | setProperty changesOnly name value =>
    exact .nothing (fun _ => ⟨rfl, rfl, rfl⟩) setProperty_undisturbed
  | signalProperty name =>
    exact .nothing (fun _ => ⟨rfl, rfl, rfl⟩) signalProperty_undisturbed

theorem step_stepped [DecidableEq V] (hs : step valid s e = some t) : Stepped valid s e t := by
  cases e with
  | call c =>
    simp only [step] at hs
    split at hs <;> cases hs
    exact perform_stepped
  | destroy =>
    simp only [step] at hs
    split at hs <;> cases hs
    exact .destroy rfl rfl

theorem registers_of_refused (h : refused e = true) : registers valid e = false := by
  cases e with
  | call c => cases c <;> first | rfl | cases h
  | destroy => cases h

/-- An initialised object stays one. -/
theorem Stepped.fresh (hs : Stepped valid s e t) (ht : t.interface = none) :
    s.interface = none := by
  cases hs with
  | register _ fresh _ => exact fresh
  | refuse _ fresh _ => exact fresh
  | accept _ fresh _ => exact fresh
  | nothing _ kept => exact kept.interface.symm.trans ht
  | destroy _ eq =>
    rw [eq] at ht
    exact ht

theorem Stepped.count (hs : Stepped valid s e t) (ht : t.interface = none) :
    registered t = registered s + if registers valid e then 1 else 0 := by
  cases hs with
  | register h _ changes =>
    rw [if_pos h]
    cases changes with
    | property p values eq =>
      simp only [registered, eq, Vec.size_emplaceBack]
      omega
    | method m eq =>
      simp only [registered, eq, Vec.size_emplaceBack]
      omega
    | signal g eq =>
      simp only [registered, eq, Vec.size_emplaceBack]
      omega
  | refuse h _ eq =>
    rw [if_neg (Bool.not_eq_true _ ▸ registers_of_refused h), eq]
    exact fillVtable_registered
  | accept _ _ installed =>
    rw [installed.interface] at ht
    cases ht
  | nothing h kept =>
    rw [if_neg (Bool.not_eq_true _ ▸ (h (kept.interface.symm.trans ht)).1)]
    exact kept.toKept.registered
  | destroy h eq =>
    rw [h, eq]
    rfl

/-- An object from the call of initialize() that threw on, while it stays uninitialised. -/
structure Attempted (s t : DbusInterface V) : Prop where
  signals : s.signals.Grows t.signals
  propertyCallbacks : s.propertyCallbacks.Grows t.propertyCallbacks
  methodCallbacks : s.methodCallbacks.Grows t.methodCallbacks
  begun : ∃ rest, t.vtable.elements = table s ++ .end_ :: rest

theorem Attempted.kept (h : Attempted s t) (hk : Kept t u) : Attempted s u where
  signals := hk.signals ▸ h.signals
  propertyCallbacks := hk.propertyCallbacks ▸ h.propertyCallbacks
  methodCallbacks := hk.methodCallbacks ▸ h.methodCallbacks
  begun := hk.vtable ▸ h.begun

theorem Attempted.fillVtable (h : Attempted s t) : Attempted s t.fillVtable where
  signals := h.signals.shrinkToFit
  propertyCallbacks := h.propertyCallbacks.shrinkToFit
  methodCallbacks := h.methodCallbacks.shrinkToFit
  begun := by
    obtain ⟨rest, hrest⟩ := h.begun
    rw [fillVtable_vtable, hrest]
    exact ⟨rest ++ (table t.fillVtable ++ [.end_]), by simp⟩

theorem attempted_fillVtable (h : s.vtable.elements = []) :
    Attempted s.fillVtable s.fillVtable where
  signals := .refl Vec.shrinkToFit_tight
  propertyCallbacks := .refl Vec.shrinkToFit_tight
  methodCallbacks := .refl Vec.shrinkToFit_tight
  begun := ⟨[], by rw [fillVtable_vtable, h, List.nil_append]⟩

theorem Stepped.attempted (hs : Stepped valid s e t) (h : Attempted u s)
    (ht : t.interface = none) : Attempted u t := by
  cases hs with
  | register _ _ changes =>
    cases changes with
    | property p values eq =>
      rw [eq]
      exact ⟨h.signals, h.propertyCallbacks.emplaceBack, h.methodCallbacks, h.begun⟩
    | method m eq =>
      rw [eq]
      exact ⟨h.signals, h.propertyCallbacks, h.methodCallbacks.emplaceBack, h.begun⟩
    | signal g eq =>
      rw [eq]
      exact ⟨h.signals.emplaceBack, h.propertyCallbacks, h.methodCallbacks, h.begun⟩
  | refuse _ _ eq =>
    rw [eq]
    exact h.fillVtable
  | accept _ _ installed =>
    rw [installed.interface] at ht
    cases ht
  | nothing _ kept => exact h.kept kept.toKept
  | destroy _ eq =>
    rw [eq]
    exact h.kept ⟨rfl, rfl, rfl, rfl⟩

/-- No table is begun before initialize() gets to fill one. -/
theorem Stepped.empty (hs : Stepped valid s e t) (h : s.vtable.elements = [])
    (hrefused : refused e = false) (ht : t.interface = none) : t.vtable.elements = [] := by
  cases hs with
  | register _ _ changes =>
    cases changes with
    | property p values eq => rw [eq, h]
    | method m eq => rw [eq, h]
    | signal g eq => rw [eq, h]
  | refuse h' _ _ =>
    rw [h'] at hrefused
    cases hrefused
  | accept _ _ installed =>
    rw [installed.interface] at ht
    cases ht
  | nothing _ kept => rw [kept.vtable, h]
  | destroy _ eq => rw [eq]; exact h

section Runs
variable [Inhabited V] [DecidableEq V]

/-- While it stays uninitialised, an object keeps track of what is registered. -/
theorem run_count (hrun : (machine valid).run s es = some t) (ht : t.interface = none) :
    s.interface = none ∧ registered t = registered s + es.countP (registers valid) := by
  induction es generalizing s with
  | nil =>
    cases hrun
    exact ⟨ht, rfl⟩
  | cons e es ih =>
    obtain ⟨u, hu, hrun⟩ := Option.bind_eq_some_iff.mp hrun
    obtain ⟨hfresh, hcount⟩ := ih hrun
    have hstep := step_stepped hu
    refine ⟨hstep.fresh hfresh, ?_⟩
    rw [hcount, hstep.count hfresh, List.countP_cons]
    omega

theorem run_attempted (hrun : (machine valid).run s es = some t) (ht : t.interface = none)
    (h : Attempted u s) : Attempted u t := by
  induction es generalizing s with
  | nil =>
    cases hrun
    exact h
  | cons e es ih =>
    obtain ⟨v, hv, hrun⟩ := Option.bind_eq_some_iff.mp hrun
    exact ih hrun ((step_stepped hv).attempted h (run_count hrun ht).1)

theorem run_empty (hrun : (machine valid).run s es = some t) (ht : t.interface = none)
    (h : s.vtable.elements = []) (hrefused : ∀ e ∈ es, refused e = false) :
    t.vtable.elements = [] := by
  induction es generalizing s with
  | nil =>
    cases hrun
    exact h
  | cons e es ih =>
    obtain ⟨v, hv, hrun⟩ := Option.bind_eq_some_iff.mp hrun
    rw [List.forall_mem_cons] at hrefused
    have hempty := (step_stepped hv).empty h hrefused.1 (run_count hrun ht).1
    exact ih hrun hempty hrefused.2

end Runs

theorem Stepped.refused (hs : Stepped valid s e t) (h : refused e = true)
    (ht : s.interface = none) : t = s.fillVtable := by
  cases hs with
  | register hreg _ _ =>
    rw [registers_of_refused h] at hreg
    cases hreg
  | refuse _ _ eq => exact eq
  | accept hacc _ _ =>
    cases e with
    | call c =>
      cases c <;> first | cases h | skip
      have hneg := of_decide_eq_true h
      have hpos := of_decide_eq_true hacc
      omega
    | destroy => cases h
  | nothing hno _ =>
    rw [(hno ht).2.1] at h
    cases h
  | destroy he _ =>
    rw [he] at h
    cases h

/-- The first table begun is the table of an object that registered nothing more. -/
theorem Attempted.table_eq_iff (h : Attempted s t) :
    table s = table t ↔ registered s = registered t := by
  constructor
  · intro heq
    have hlen := congrArg List.length heq
    rw [length_table, length_table] at hlen
    omega
  · intro heq
    have hsignals := h.signals.size_le
    have hproperties := h.propertyCallbacks.size_le
    have hmethods := h.methodCallbacks.size_le
    simp only [registered] at heq
    have hkept := h.signals.eq_of_size (by omega)
    rw [table, table, h.signals.eq_of_size (by omega), h.propertyCallbacks.eq_of_size (by omega),
      h.methodCallbacks.eq_of_size (by omega)]

theorem Attempted.handed (h : Attempted s t) : handed t = table s := by
  obtain ⟨rest, hrest⟩ := h.begun
  rw [DbusInterface.handed, hrest, takeWhile_table]

theorem Kept.exposes (h : Kept s t) : Exposes t ↔ Exposes s := by
  rw [Exposes, Exposes, h.table, DbusInterface.handed, DbusInterface.handed, h.vtable]

/-- Something was registered after an initialize() that threw. -/
def registersAfterRefusal (valid : Bytes → Bool) (es : List (Event V)) : Bool :=
  (es.dropWhile (fun e => !refused e)).any (registers valid)

theorem fillVtable_exposes [Inhabited V] [DecidableEq V]
    (hrun : (machine valid).run initial es = some s) (hs : s.interface = none) :
    Exposes s.fillVtable ↔ registersAfterRefusal valid es = false := by
  have hbefore : ∀ e ∈ es.takeWhile (fun e => !refused e), refused e = false := by
    intro e he
    simpa using List.all_eq_true.mp List.all_takeWhile e he
  have hsplit := List.takeWhile_append_dropWhile (p := fun e => !refused e) (l := es)
  cases hrest : es.dropWhile (fun e => !refused e) with
  | nil =>
    rw [hrest, List.append_nil] at hsplit
    rw [hsplit] at hbefore
    rw [registersAfterRefusal, hrest]
    have hempty := run_empty hrun hs rfl hbefore
    exact ⟨fun _ => rfl, fun _ => (attempted_fillVtable hempty).handed⟩
  | cons e bs =>
    have he : refused e = true := by
      have hhead := List.head?_dropWhile_not (fun e => !refused e) es
      rw [hrest] at hhead
      simpa using hhead
    rw [hrest] at hsplit
    rw [← hsplit] at hrun
    obtain ⟨u, hu, hrun⟩ := Machine.run_split hrun
    obtain ⟨v, hv, hrun⟩ := Option.bind_eq_some_iff.mp hrun
    obtain ⟨hvfresh, hcount⟩ := run_count hrun hs
    have hstep := step_stepped hv
    have hufresh := hstep.fresh hvfresh
    have hfill := hstep.refused he hufresh
    subst hfill
    -- The table that was begun then stays in front, and what is registered only grows.
    have hattempted := (run_attempted hrun hs
      (attempted_fillVtable (run_empty hu hufresh rfl hbefore))).fillVtable
    rw [Exposes, hattempted.handed, hattempted.table_eq_iff, fillVtable_registered (s := s), hcount,
      registersAfterRefusal, hrest, List.any_cons, registers_of_refused he, Bool.false_or]
    constructor
    · intro heq
      have hzero : bs.countP (registers valid) = 0 := by omega
      rw [List.countP_eq_zero] at hzero
      simpa using hzero
    · intro hnone
      have hzero : bs.countP (registers valid) = 0 := by
        rw [List.countP_eq_zero]
        simpa using hnone
      omega

theorem Stepped.initialized (hs : Stepped valid s e t) (h : s.interface ≠ none) :
    Kept s t ∧ t.interface ≠ none := by
  cases hs with
  | register _ fresh _ => exact absurd fresh h
  | refuse _ fresh _ => exact absurd fresh h
  | accept _ fresh _ => exact absurd fresh h
  | nothing _ kept => exact ⟨kept.toKept, kept.interface ▸ h⟩
  | destroy _ eq => exact eq ▸ ⟨⟨rfl, rfl, rfl, rfl⟩, h⟩

theorem run_initialized [Inhabited V] [DecidableEq V]
    (hrun : (machine valid).run s es = some t) (h : s.interface ≠ none) :
    Kept s t ∧ t.interface ≠ none := by
  induction es generalizing s with
  | nil =>
    cases hrun
    exact ⟨.refl, h⟩
  | cons e es ih =>
    obtain ⟨u, hu, hrun⟩ := Option.bind_eq_some_iff.mp hrun
    obtain ⟨hkept, hinit⟩ := (step_stepped hu).initialized h
    obtain ⟨hrest, hlast⟩ := ih hrun hinit
    exact ⟨hkept.trans hrest, hlast⟩

/-- The calls that register something. -/
def isRegistration : Call V → Bool
  | .registerPropertyR .. => true
  | .registerPropertyRw .. => true
  | .registerSignal .. => true
  | .registerMethod .. => true
  | _ => false

theorem registration_refused [DecidableEq V] (h : s.interface ≠ none)
    (hc : isRegistration c = true) : s.perform valid c = (.returned false, s) := by
  have hinit : s.isInitialized = true := Option.isSome_iff_ne_none.mpr h
  cases c with
  | registerPropertyR name type property flags => exact if_pos hinit
  | registerPropertyRw name type property flags setFunction => exact if_pos hinit
  | registerSignal name signature => exact if_pos hinit
  | registerMethod name argType resultType flags => exact if_pos hinit
  | initializeInterface r skip => cases hc
  | setProperty changesOnly name value => cases hc
  | signalProperty name => cases hc

section Final
variable [Inhabited V] [DecidableEq V]

/-- From here on nothing changes the vectors, and nothing more is registered. -/
def Final (valid : Bytes → Bool) (s : DbusInterface V) : Prop :=
  ∀ es t, (machine valid).run s es = some t →
    Kept s t ∧ ∀ c, isRegistration c = true → t.perform valid c = (.returned false, t)

/-- When initialize() returns true, the table exposes just what is registered if nothing
was registered after an initialize() that threw; the vectors are final in any case. -/
theorem exposes_registered (r : Int) (skip : Bool)
    (hrun : (machine valid).run initial es = some s)
    (hinit : s.initializeInterface r skip = (.returned true, t)) :
    (Exposes t ∧ Final valid t) ↔ registersAfterRefusal valid es = false := by
  rcases initialize_cases (s := s) r skip with
    ⟨-, heq⟩ | ⟨-, -, heq⟩ | ⟨hfresh, -, u, heq, hu⟩
  · rw [heq] at hinit
    cases hinit
  · rw [heq] at hinit
    cases hinit
  · rw [heq] at hinit
    cases hinit
    have hkept : Kept s.fillVtable t := kept_install.trans hu.toKept
    have hsome : t.interface ≠ none := by
      rw [hu.interface]
      exact nofun
    have hfinal : Final valid t := by
      intro later v hlater
      obtain ⟨hk, hv⟩ := run_initialized hlater hsome
      exact ⟨hk, fun c hc => registration_refused hv hc⟩
    rw [hkept.exposes, fillVtable_exposes hrun hfresh]
    exact ⟨fun h => h.1, fun h => ⟨h, hfinal⟩⟩

end Final

/-- What a valid member name is by its documentation. -/
def memberName (name : Bytes) : Bool :=
  0 < name.length && name.length ≤ 255 &&
    name.all (fun c => ObjectPath.isalnum c || c = ObjectPath.underscore) &&
    name.head?.any (fun c => !(48 ≤ c && c ≤ 57))

/-- The type of the properties that are bytes. -/
def byteType : PropertyType UInt8 := ⟨[121], some⟩

/-- The property "A". -/
def registersProperty : Event UInt8 := .call (.registerPropertyR [65] byteType 7 0x20)

/-- The method "M" without arguments. -/
def registersMethod : Event UInt8 := .call (.registerMethod [77] [] [] 0)

/-- A failed attempt with everything registered before it. -/
def retries : List (Event UInt8) :=
  [registersProperty, registersMethod, .call (.initializeInterface (-17) false)]

theorem exposes_registered_retries :
    ∃ s t, (machine memberName).run initial retries = some s ∧
      s.initializeInterface 0 false = (.returned true, t) ∧ Exposes t := by
  have hnone : registersAfterRefusal memberName retries = false := rfl
  exact ⟨_, _, rfl, rfl, ((exposes_registered 0 false rfl rfl).mpr hnone).1⟩

/-- A method registered after a failed attempt is not in the table that sd-bus gets. -/
theorem registered_not_exposed :
    ∃ s t, (machine memberName).run initial
        [registersProperty, .call (.initializeInterface (-17) false), registersMethod] = some s ∧
      s.initializeInterface 0 false = (.returned true, t) ∧ ¬ Exposes t ∧
      (table t).length = 3 ∧ (handed t).length = 2 := by
  refine ⟨_, _, rfl, rfl, fun h => ?_, rfl, rfl⟩
  exact absurd (congrArg List.length h) (by decide)

end Sdbusplus.Proofs.DbusInterface
