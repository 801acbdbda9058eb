import Sdbusplus.Proofs.DbusInterface

namespace Sdbusplus.Proofs.Announcements
open Message Asio Asio.DbusInterface Proofs.DbusInterface

variable {V : Type} {s t : DbusInterface V} {e : Event V} {es : List (Event V)}
  {valid : Bytes → Bool} {b : Bool}

/-- What a living object has announced, given whether sd-bus accepted its table. -/
inductive Announces (s : DbusInterface V) : Bool → Prop
  | silent (fresh : s.interface = none) (none : announced s = []) : Announces s false
  | added (i : Interface) (installed : s.interface = some i) (plain : i.interfaceAdded = false)
      (one : announced s = [.interfacesAdded]) : Announces s true

/-- The ObjectManager signals are none, or one InterfacesAdded and one InterfacesRemoved. -/
def Paired (s : DbusInterface V) : Prop :=
  announced s = [] ∨ announced s = [.interfacesAdded, .interfacesRemoved]

theorem Announces.congr (h : Announces s b) (hi : t.interface = s.interface)
    (ha : announced t = announced s) : Announces t b := by
  cases h with
  | silent fresh none => exact .silent (hi.trans fresh) (ha.trans none)
  | added i installed plain one => exact .added i (hi.trans installed) plain (ha.trans one)

theorem announced_install : announced (install s) = announced s ++ [.interfacesAdded] := by
  simp [announced, install, fillVtable]

theorem Announces.install (h : Announces s b) (fresh : s.interface = none) :
    Announces (install s) true := by
  cases h with
  | silent _ none => exact .added _ rfl rfl (by rw [announced_install, none, List.nil_append])
  | added i installed _ _ =>
    rw [fresh] at installed
    cases installed

theorem registers_not_accepted (h : registers valid e = true) : accepted e = false := by
  cases e with
  | call c => cases c <;> first | rfl | cases h
  | destroy => cases h

theorem refused_not_accepted (h : refused e = true) : accepted e = false := by
  cases e with
  | call c =>
    cases c <;> first | rfl | skip
    have hneg := of_decide_eq_true h
    exact decide_eq_false (by omega)
  | destroy => cases h

/-- The destructor is the last step. -/
theorem step_announces (hs : Stepped valid s e t) (h : Announces s b)
    (he : e ≠ .destroy) : Announces t (b || accepted e) := by
  cases hs with
  | register hreg fresh changes =>
    rw [registers_not_accepted hreg, Bool.or_false]
    cases changes with
    | property p values eq => exact eq ▸ h.congr rfl rfl
    | method m eq => exact eq ▸ h.congr rfl rfl
    | signal g eq => exact eq ▸ h.congr rfl rfl
  | refuse href fresh eq =>
    rw [refused_not_accepted href, Bool.or_false]
    exact eq ▸ h.congr rfl rfl
  | accept hacc fresh installed =>
    rw [hacc, Bool.or_true]
    exact (h.install fresh).congr installed.interface installed.announced
  | nothing hno kept =>
    have ht := h.congr kept.interface kept.announced
    cases b with
    | false =>
      cases h with
      | silent fresh _ => rwa [(hno fresh).2.2]
    | true => exact ht
  | destroy h' _ => exact absurd h' he

theorem destroy_announced (h : Announces s b) :
    announced s.destroy = announced s ++ [.interfacesRemoved] := by
  cases h with
  | silent fresh _ => simp [announced, destroy, fresh]
  | added i installed plain _ =>
    -- The inner interface never announced itself, so it takes nothing back.
    simp [announced, destroy, installed, Interface.emitRemoved, plain]

theorem destroy_paired (h : Announces s b) : Paired s.destroy ↔ b = true := by
  rw [Paired, destroy_announced h]
  cases h with
  | silent _ none => simp [none]
  | added _ _ _ one => simp [one]

theorem step_alive [DecidableEq V] (hs : step valid s e = some t) :
    s.alive = true ∧ (t.alive = true → e ≠ .destroy) := by
  cases e with
  | call c =>
    simp only [step] at hs
    split at hs <;> cases hs
    rename_i halive
    exact ⟨halive, fun _ => by simp⟩
  | destroy =>
    simp only [step] at hs
    split at hs <;> cases hs
    rename_i halive
    exact ⟨halive, fun h => by cases h⟩

variable [Inhabited V] [DecidableEq V]

theorem run_alive (hrun : (machine valid).run s es = some t) (ht : t.alive = true) :
    s.alive = true ∧ ∀ e ∈ es, e ≠ .destroy := by
  induction es generalizing s with
  | nil =>
    cases hrun
    exact ⟨ht, by simp⟩
  | cons e es ih =>
    obtain ⟨u, hu, hrun⟩ := Option.bind_eq_some_iff.mp hrun
    obtain ⟨halive, hes⟩ := ih hrun
    obtain ⟨hs, he⟩ := step_alive hu
    exact ⟨hs, List.forall_mem_cons.mpr ⟨he halive, hes⟩⟩

theorem run_announces (hrun : (machine valid).run s es = some t) (hes : ∀ e ∈ es, e ≠ .destroy)
    (h : Announces s b) : Announces t (b || es.any accepted) := by
  induction es generalizing s b with
  | nil =>
    cases hrun
    rwa [List.any_nil, Bool.or_false]
  | cons e es ih =>
    obtain ⟨u, hu, hrun⟩ := Option.bind_eq_some_iff.mp hrun
    rw [List.forall_mem_cons] at hes
    rw [List.any_cons, ← Bool.or_assoc]
    exact ih hrun hes.2 (step_announces (step_stepped hu) h hes.1)

/-- Over the whole life of an interface its announcements are paired just when some
initialize() got it accepted by sd-bus; otherwise only its removal is announced. -/
theorem announcements_paired (hrun : (machine valid).run initial (es ++ [.destroy]) = some t) :
    Paired t ↔ es.any accepted = true := by
  obtain ⟨s, hs, hrun⟩ := Machine.run_split hrun
  obtain ⟨u, hu, hlast⟩ := Option.bind_eq_some_iff.mp hrun
  cases hlast
  have hdestroy : step valid s .destroy = some t := hu
  have halive := (step_alive hdestroy).1
  have hannounces := run_announces hs (run_alive hs halive).2 (.silent rfl rfl)
  simp only [step, if_pos halive, Option.some.injEq] at hdestroy
  subst hdestroy
  rw [destroy_paired hannounces, Bool.false_or]

/-- A first attempt that throws, a second that succeeds, and one too many. -/
def attempts : List (Event UInt8) :=
  [registersProperty, .call (.initializeInterface (-17) false),
    .call (.initializeInterface 0 false), .call (.setProperty false [65] 9),
    .call (.initializeInterface 0 false)]

theorem announcements_paired_attempts :
    ∃ t, (machine memberName).run initial (attempts ++ [.destroy]) = some t ∧ Paired t := by
  have hrun : ∃ t, (machine memberName).run initial (attempts ++ [.destroy]) = some t := ⟨_, rfl⟩
  have haccepted : attempts.any accepted = true := rfl
  obtain ⟨t, ht⟩ := hrun
  exact ⟨t, ht, (announcements_paired ht).mpr haccepted⟩

/-- An interface that was never initialised announces its removal. -/
theorem removal_unpaired :
    ∃ t : DbusInterface UInt8, (machine memberName).run initial
        [registersProperty, .call (.initializeInterface (-17) false), .destroy] = some t ∧
      announced t = [.interfacesRemoved] ∧ ¬ Paired t := by
  refine ⟨_, rfl, rfl, ?_⟩
  rintro (h | h)
  · cases h
  · cases h

end Sdbusplus.Proofs.Announcements
