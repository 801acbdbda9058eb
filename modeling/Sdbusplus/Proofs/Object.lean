import Sdbusplus.Server.Object

namespace Sdbusplus.Proofs.Object
open Server Server.Object

variable {ι : Type} {i j : ι} {is : List ι}

/-- What the lookup of emit_added finds, said by the interfaces below a class. -/
inductive Finds : List ι → Lookup ι → Prop
  | nothing : Finds [] .nothing
  | found (i : ι) : Finds [i] (.found i)
  | ambiguous (i j : ι) (is : List ι) : Finds (i :: j :: is) .ambiguous

theorem Finds.merge {js : List ι} {l l' : Lookup ι} (h : Finds is l) (h' : Finds js l') :
    Finds (is ++ js) (l.merge l') := by
  cases h with
  | nothing => exact h'
  | found i =>
    cases h' with
    | nothing => exact .found i
    | found j => exact .ambiguous i j []
    | ambiguous j k js => exact .ambiguous i j (k :: js)
  | ambiguous i j is => cases h' <;> exact .ambiguous i j _

mutual
theorem lookup_finds (a : Arg ι) : Finds a.interfaces a.lookup := by
  match a with
  | .type none => exact .nothing
  | .type (some i) => exact .found i
  | .object args => exact lookupBases_finds args
theorem lookupBases_finds (args : List (Arg ι)) : Finds (interfacesOf args) (lookupBases args) := by
  match args with
  | [] => exact .nothing
  | a :: as => exact (lookup_finds a).merge (lookupBases_finds as)
end

def Signal.about [DecidableEq ι] (i : ι) : Signal ι → Bool
  | .interfacesAdded j | .interfacesRemoved j => i = j
  | .objectAdded | .objectRemoved => false

def rounds (i : ι) (n : Nat) : List (Signal ι) :=
  (List.replicate n [Signal.interfacesAdded i, .interfacesRemoved i]).flatten

theorem rounds_succ (n : Nat) :
    rounds i (n + 1) = rounds i n ++ [.interfacesAdded i, .interfacesRemoved i] := by
  simp [rounds, List.replicate_succ']

variable [DecidableEq ι] {s t : Object ι}

theorem emitAdded_flag : (s.emitAdded i).interfaceAdded i = true := by
  unfold emitAdded
  split
  · assumption
  · simp

theorem emitAdded_of_flag (h : s.interfaceAdded i = true) : s.emitAdded i = s := by
  simp [emitAdded, h]

mutual
/-- A class is asked for its only interface twice, and the flag of the interface makes
the second time nothing. -/
theorem tryEmit_eq (a : Arg ι) (s : Object ι) : s.tryEmit a = a.interfaces.foldl emitAdded s := by
  match a with
  | .type none => rfl
  | .type (some i) => rfl
  | .object args =>
    have hl := lookupBases_finds args
    simp only [tryEmit, Arg.lookup, Arg.interfaces, maybeEmitIfaceAdded_eq args]
    generalize interfacesOf args = is, lookupBases args = l at hl ⊢
    cases hl with
    | nothing => rfl
    | found i => simp [emitAdded_of_flag emitAdded_flag]
    | ambiguous i j is => rfl
theorem maybeEmitIfaceAdded_eq (args : List (Arg ι)) (s : Object ι) :
    s.maybeEmitIfaceAdded args = (interfacesOf args).foldl emitAdded s := by
  match args with
  | [] => rfl
  | a :: as =>
    simp only [maybeEmitIfaceAdded, interfacesOf, List.foldl_append, tryEmit_eq a,
      maybeEmitIfaceAdded_eq as]
end

/-- From interfaces that are not announced, each announcement is sent. -/
theorem announce_emitted (hnd : is.Nodup) (hflag : ∀ i ∈ is, s.interfaceAdded i = false) :
    (is.foldl emitAdded s).emitted = s.emitted ++ is.map .interfacesAdded := by
  induction is generalizing s with
  | nil => simp
  | cons i is ih =>
    obtain ⟨hi, hnd⟩ := List.nodup_cons.mp hnd
    have hfresh := hflag i List.mem_cons_self
    have hs : s.emitAdded i = { s with
        emitted := s.emitted ++ [.interfacesAdded i]
        interfaceAdded := Function.update s.interfaceAdded i true } := by
      simp [emitAdded, hfresh]
    have hrest : ∀ j ∈ is, (s.emitAdded i).interfaceAdded j = false := by
      intro j hj
      have hne : j ≠ i := fun h => hi (h ▸ hj)
      rw [hs]
      simpa [hne] using hflag j (List.mem_cons_of_mem i hj)
    rw [List.foldl_cons, ih hnd hrest, hs]
    simp

/-- The signals that one interface has sent. -/
def signalsOf (i : ι) (s : Object ι) : List (Signal ι) := s.emitted.filter (Signal.about i)

/-- The signals of an interface are rounds of Added and Removed, the last round open just
while the flag of the interface is set. -/
inductive Toggled (i : ι) (s : Object ι) : Prop
  | closed (n : Nat) (flag : s.interfaceAdded i = false) (signals : signalsOf i s = rounds i n)
  | opened (n : Nat) (flag : s.interfaceAdded i = true)
      (signals : signalsOf i s = rounds i n ++ [.interfacesAdded i])

theorem Toggled.congr (h : Toggled i s) (hflag : t.interfaceAdded i = s.interfaceAdded i)
    (hsignals : signalsOf i t = signalsOf i s) : Toggled i t := by
  cases h with
  | closed n flag signals => exact .closed n (hflag.trans flag) (hsignals.trans signals)
  | opened n flag signals => exact .opened n (hflag.trans flag) (hsignals.trans signals)

theorem Toggled.emitAdded (h : Toggled j s) (i : ι) : Toggled j (s.emitAdded i) := by
  cases hflag : s.interfaceAdded i with
  | true => rwa [emitAdded_of_flag hflag]
  | false =>
    by_cases hij : j = i
    · subst hij
      cases h with
      | closed n _ signals =>
        apply Toggled.opened n emitAdded_flag
        simpa [Object.emitAdded, hflag, signalsOf, Signal.about] using signals
      | opened n flag _ =>
        rw [hflag] at flag
        cases flag
    · apply h.congr
      · simp [Object.emitAdded, hflag, hij]
      · simp [Object.emitAdded, hflag, signalsOf, Signal.about, hij]

theorem emitRemoved_flag :
    (s.emitRemoved i).interfaceAdded j = (s.interfaceAdded j && decide (j ≠ i)) := by
  by_cases hij : j = i
  · subst hij
    cases hflag : s.interfaceAdded j <;> simp [Object.emitRemoved, hflag]
  · cases hflag : s.interfaceAdded i <;> simp [Object.emitRemoved, hflag, hij]

theorem Toggled.emitRemoved (h : Toggled j s) (i : ι) : Toggled j (s.emitRemoved i) := by
  cases hflag : s.interfaceAdded i with
  | false => simpa [Object.emitRemoved, hflag] using h
  | true =>
    by_cases hij : j = i
    · subst hij
      cases h with
      | closed n flag _ =>
        rw [hflag] at flag
        cases flag
      | opened n _ signals =>
        apply Toggled.closed (n + 1)
        · simp [emitRemoved_flag]
        · simp only [signalsOf] at signals
          simp [Object.emitRemoved, hflag, signalsOf, Signal.about, rounds_succ, signals]
    · apply h.congr
      · simp [emitRemoved_flag, hij]
      · simp [Object.emitRemoved, hflag, signalsOf, Signal.about, hij]

/-- Nothing is sent for the object as a whole, now or later. -/
structure Quiet (s : Object ι) : Prop where
  signalstate : s.signalstate = .emitNoSignals
  noObjectAdded : .objectAdded ∉ s.emitted
  noObjectRemoved : .objectRemoved ∉ s.emitted

theorem Quiet.emitRemoved (h : Quiet s) (i : ι) : Quiet (s.emitRemoved i) := by
  obtain ⟨hstate, hadded, hremoved⟩ := h
  cases hflag : s.interfaceAdded i with
  | false => simpa [Object.emitRemoved, hflag] using ⟨hstate, hadded, hremoved⟩
  | true => constructor <;> simp [Object.emitRemoved, hflag, hstate, hadded, hremoved]

theorem Quiet.emitAdded (h : Quiet s) (i : ι) : Quiet (s.emitAdded i) := by
  obtain ⟨hstate, hadded, hremoved⟩ := h
  cases hflag : s.interfaceAdded i with
  | true => simpa [Object.emitAdded, hflag] using ⟨hstate, hadded, hremoved⟩
  | false => constructor <;> simp [Object.emitAdded, hflag, hstate, hadded, hremoved]

omit [DecidableEq ι] in
theorem Quiet.emitObjectAdded (h : Quiet s) : s.emitObjectAdded = s := by
  simp [Object.emitObjectAdded, h.signalstate]

variable {o : ObjectType ι}

/-- What holds of an object whose interfaces are announced one by one. -/
structure Announcing (s : Object ι) : Prop where
  toggled : ∀ i, Toggled i s
  quiet : Quiet s

theorem Announcing.perform (h : Announcing s) (c : Call o) : Announcing (s.perform c) := by
  cases c with
  | emitAdded i _ => exact ⟨fun j => (h.toggled j).emitAdded i, h.quiet.emitAdded i⟩
  | emitRemoved i _ => exact ⟨fun j => (h.toggled j).emitRemoved i, h.quiet.emitRemoved i⟩
  | emitObjectAdded => rwa [Object.perform, h.quiet.emitObjectAdded]

theorem Announcing.performAll (h : Announcing s) (calls : List (Call o)) :
    Announcing (s.performAll calls) := by
  induction calls generalizing s with
  | nil => exact h
  | cons c calls ih => exact ih (h.perform c)

theorem Announcing.removeAll (h : Announcing s) (is : List ι) :
    Announcing (is.foldl emitRemoved s) := by
  induction is generalizing s with
  | nil => exact h
  | cons i is ih =>
    exact ih ⟨fun j => (h.toggled j).emitRemoved i, h.quiet.emitRemoved i⟩

theorem removeAll_flag :
    (is.foldl emitRemoved s).interfaceAdded i = (s.interfaceAdded i && decide (i ∉ is)) := by
  induction is generalizing s with
  | nil => simp
  | cons j is ih =>
    rw [List.foldl_cons, ih, emitRemoved_flag, Bool.and_assoc]
    simp [Bool.decide_and]

theorem Announcing.destroy (h : Announcing s) (o : ObjectType ι) :
    Announcing (destroy o s) ∧ ∀ i ∈ o.interfaces, (destroy o s).interfaceAdded i = false := by
  simp only [Object.destroy, if_pos h.quiet.signalstate]
  refine ⟨h.removeAll _, fun i hi => ?_⟩
  have hmem : i ∈ o.interfaces.reverse := List.mem_reverse.mpr hi
  rw [removeAll_flag, decide_eq_false (not_not_intro hmem), Bool.and_false]

theorem construct_eq {r : ι → Int} {act : Action} (h : construct o r act = .ok s) :
    s = composed.checkAction o.args act := by
  unfold construct at h
  split at h
  · cases h
  · cases h
    rfl

theorem composed_emitted : ((composed : Object ι).maybeEmitIfaceAdded o.args).emitted =
    o.interfaces.map .interfacesAdded := by
  rw [maybeEmitIfaceAdded_eq, announce_emitted o.distinct (fun _ _ => rfl)]
  exact List.nil_append _

theorem Toggled.announce (h : Toggled i s) (is : List ι) :
    Toggled i (is.foldl Object.emitAdded s) := by
  induction is generalizing s with
  | nil => exact h
  | cons j is ih => exact ih (h.emitAdded j)

theorem composed_announcing :
    Announcing ((composed : Object ι).checkAction o.args .emitInterfaceAdded) := by
  have hcomposed : ∀ i, Toggled i (composed : Object ι) := fun _ => .closed 0 rfl rfl
  constructor
  · intro i
    apply Toggled.congr ((hcomposed i).announce o.interfaces)
    · rw [checkAction, maybeEmitIfaceAdded_eq]
      rfl
    · rw [checkAction, maybeEmitIfaceAdded_eq]
      rfl
  · constructor
    · rfl
    · simp [checkAction, composed_emitted]
    · simp [checkAction, composed_emitted]

/-- Each leaf announces itself once when the outermost object is built with
emit_interface_added. Whatever is called on the leaves then, by the end of the destructor
each has taken back as often as it announced, in turns, and nothing was said of the object. -/
theorem interfaces_announced_once {r : ι → Int}
    (hs : construct o r .emitInterfaceAdded = .ok s) :
    (∀ i ∈ o.interfaces, s.emitted.count (.interfacesAdded i) = 1) ∧
    (∀ e ∈ s.emitted, ∃ i ∈ o.interfaces, e = .interfacesAdded i) ∧
    ∀ calls : List (Call o),
      let t := destroy o (s.performAll calls)
      (∀ i ∈ o.interfaces, ∃ n, signalsOf i t = rounds i n) ∧
        .objectAdded ∉ t.emitted ∧ .objectRemoved ∉ t.emitted := by
  have hs := construct_eq hs
  have hemitted : s.emitted = o.interfaces.map .interfacesAdded := by
    rw [hs]
    exact composed_emitted
  have hannouncing : Announcing s := hs ▸ composed_announcing
  refine ⟨fun i hi => ?_, fun e he => ?_, fun calls => ?_⟩
  · have hnd : s.emitted.Nodup := by
      rw [hemitted]
      exact o.distinct.map (fun _ _ h => Signal.interfacesAdded.inj h)
    apply List.count_eq_one_of_mem hnd
    rw [hemitted]
    exact List.mem_map_of_mem hi
  · rw [hemitted] at he
    obtain ⟨i, hi, rfl⟩ := List.mem_map.mp he
    exact ⟨i, hi, rfl⟩
  · obtain ⟨hend, hflags⟩ := (hannouncing.performAll calls).destroy o
    refine ⟨fun i hi => ?_, hend.quiet.noObjectAdded, hend.quiet.noObjectRemoved⟩
    cases hend.toggled i with
    | closed n _ signals => exact ⟨n, signals⟩
    | opened n flag _ =>
      rw [hflags i hi] at flag
      cases flag

/-- A class without interface and two nested objects: the first inherits one emit_added(),
in the second two of them are ambiguous. -/
def nested : ObjectType Nat where
  args := [.type none, .object [.object [.type (some 0)], .type none],
    .object [.type (some 1), .type (some 2)]]
  distinct := by decide

def toggles : List (Call nested) :=
  [.emitAdded 1 (by decide), .emitRemoved 1 (by decide), .emitRemoved 1 (by decide),
    .emitAdded 1 (by decide)]

theorem interfaces_announced_once_nested :
    ∃ s, construct nested (fun _ => 0) .emitInterfaceAdded = .ok s ∧
      (∀ i ∈ [0, 1, 2], s.emitted.count (.interfacesAdded i) = 1) ∧
      ∃ n, signalsOf 1 (destroy nested (s.performAll toggles)) = rounds 1 n := by
  have hs : construct nested (fun _ => 0) .emitInterfaceAdded =
      .ok (composed.checkAction nested.args .emitInterfaceAdded) := rfl
  obtain ⟨hone, -, hend⟩ := interfaces_announced_once hs
  exact ⟨_, hs, hone, (hend toggles).1 1 (by decide)⟩

end Sdbusplus.Proofs.Object
