import Sdbusplus.Server.Properties

namespace Sdbusplus.Proofs.PropertiesByName
open Server.Properties

variable {lib : CppTypes} {I : Interface} {o : Object lib} {p q : Property}
  {val : PropertiesVariant lib I} {skipSignal : Bool} {name : String}

/-! ## One call -/

/-- The object when a setter is done. -/
def written (I : Interface) (p : Property) (value : lib.Val (p.type lib)) (skipSignal : Bool)
    (o : Object lib) : Object lib :=
  if o.fields p = value then o
  else
    { o with
      fields := Function.update o.fields p value
      emitted := if skipSignal then o.emitted else o.emitted ++ [⟨o.path, I.name, [p.name]⟩] }

theorem setProperty_run (value : lib.Val (p.type lib)) :
    (setProperty I p value skipSignal).run.run o =
      (.ok ((written I p value skipSignal o).fields p), written I p value skipSignal o) := by
  have hget : ∀ f : Object lib → Call lib (lib.Val (p.type lib)),
      (get >>= f).run.run o = (f o).run.run o := fun _ => rfl
  rw [setProperty, hget, written]
  by_cases h : o.fields p = value
  · rw [if_neg (not_not.mpr h), if_pos h]
    rfl
  · rw [if_pos h, if_neg h]
    cases skipSignal <;> rfl

/-- What comes after a call that returned. -/
theorem call_bind {α β : Type} {x : Call lib α} {f : α → Call lib β} {a : α} {o' : Object lib}
    (h : x.run.run o = (.ok a, o')) : (x >>= f).run.run o = (f a).run.run o' := by
  have hcont : (x >>= f).run.run o =
      (ExceptT.bindCont f (x.run.run o).1).run (x.run.run o).2 := rfl
  rw [hcont, h]
  rfl

theorem setPropertyByName_known (h : p ∈ I.properties) :
    (setPropertyByName p.name val skipSignal).run.run o =
      match val.get (p.type lib) with
      | .ok v => (.ok (), written I p v skipSignal o)
      | .error e => (.error e, o) := by
  have hd := I.distinct
  rw [setPropertyByName]
  generalize I.properties = ps at h hd
  induction ps with
  | nil => cases h
  | cons r rest ih =>
    rw [setByName]
    obtain ⟨hr, hd⟩ := List.nodup_cons.mp hd
    by_cases hname : p.name = r.name
    · have hp : p = r := by
        obtain rfl | hmem := List.mem_cons.mp h
        · rfl
        · exact absurd (hname ▸ List.mem_map_of_mem hmem) hr
      subst hp
      rw [if_pos rfl]
      cases hval : val.get (p.type lib) with
      | error e => rfl
      | ok v =>
        have hset := @setProperty_run lib I o p skipSignal v
        exact call_bind hset
    · obtain rfl | hmem := List.mem_cons.mp h
      · exact absurd rfl hname
      · rw [if_neg hname]
        exact ih hmem hd

theorem setPropertyByName_unknown (h : ∀ p ∈ I.properties, p.name ≠ name) :
    (setPropertyByName name val skipSignal).run.run o = (.ok (), o) := by
  rw [setPropertyByName]
  generalize I.properties = ps at h
  induction ps with
  | nil => rfl
  | cons r rest ih =>
    obtain ⟨hr, hrest⟩ := List.forall_mem_cons.mp h
    rw [setByName, if_neg (Ne.symm hr)]
    exact ih hrest

theorem getByName_mem (hd : (I.properties.map Property.name).Nodup) (hp : p ∈ I.properties)
    (ps : List Property) (hps : ∀ q ∈ ps, q ∈ I.properties) (h : p ∈ ps) :
    getByName o p.name ps hps = ⟨p.type lib, type_mem lib hp, o.fields p⟩ := by
  induction ps with
  | nil => cases h
  | cons r rest ih =>
    rw [getByName]
    by_cases hname : p.name = r.name
    · have heq : p = r := List.inj_on_of_nodup_map hd hp (hps r List.mem_cons_self) hname
      subst heq
      rw [if_pos rfl]
    · rw [if_neg hname]
      exact ih _ ((List.mem_cons.mp h).resolve_left (fun heq => hname (heq ▸ rfl)))

theorem getPropertyByName_known (h : p ∈ I.properties) :
    getPropertyByName I o p.name = ⟨p.type lib, type_mem lib h, o.fields p⟩ :=
  getByName_mem I.distinct h I.properties _ h

/-! ## Values -/

theorem variant_eq {t : lib.T} {ht : t ∈ (propertiesVariant lib I).alternatives} {x : lib.Val t} :
    val.get t = .ok x ↔ val = ⟨t, ht, x⟩ := by
  obtain ⟨type, alternative, value⟩ := val
  rw [PropertiesVariant.get]
  by_cases h : type = t
  · subst h
    simp
  · simp [h]

theorem get_error {t : lib.T} (h : val.type ≠ t) : val.get t = .error .badVariantAccess :=
  dif_neg h

theorem get_ok {t : lib.T} (h : val.type = t) : ∃ x, val.get t = .ok x :=
  ⟨_, dif_pos h⟩

theorem written_same {value : lib.Val (p.type lib)} :
    (written I p value skipSignal o).fields p = value := by
  rw [written]
  split
  case isTrue h => exact h
  case isFalse h => exact Function.update_self p value o.fields

theorem written_other {value : lib.Val (p.type lib)} (h : q ≠ p) :
    (written I p value skipSignal o).fields q = o.fields q := by
  rw [written]
  split
  case isTrue h => rfl
  case isFalse hne => exact Function.update_of_ne h value o.fields

theorem written_emitted {value : lib.Val (p.type lib)} :
    (written I p value skipSignal o).emitted =
      if o.fields p ≠ value ∧ skipSignal = false then
        o.emitted ++ [⟨o.path, I.name, [p.name]⟩]
      else o.emitted := by
  by_cases h : o.fields p = value
  · rw [written, if_pos h, if_neg (fun hno => hno.1 h)]
  · rw [written, if_neg h]
    cases skipSignal <;> simp [h]

/-! ## Calls of setPropertyByName -/

/-- A call of setPropertyByName. -/
structure Write (lib : CppTypes) (I : Interface) where
  name : String
  val : PropertiesVariant lib I
  skipSignal : Bool

namespace Write

/-- What is returned or thrown, and the object after it. -/
def run (w : Write lib I) (o : Object lib) : Except BadVariantAccess Unit × Object lib :=
  (setPropertyByName w.name w.val w.skipSignal).run.run o

/-- A value of the property's type for it. -/
def sets (w : Write lib I) (p : Property) : Bool := w.name = p.name ∧ w.val.type = p.type lib

end Write

/-- The object after calls, whether they throw or not. -/
def runAll (o : Object lib) : List (Write lib I) → Object lib
  | [] => o
  | w :: ws => runAll (w.run o).2 ws

/-- What one call does. -/
structure Step (w : Write lib I) (o : Object lib) (p : Property) : Prop where
  returns : (w.run o).1 = .ok ()
  reads : getPropertyByName I (w.run o).2 p.name = w.val
  others : ∀ q ∈ I.properties, q ≠ p →
    getPropertyByName I (w.run o).2 q.name = getPropertyByName I o q.name
  announced : getPropertyByName I o p.name ≠ w.val → w.skipSignal = false →
    (w.run o).2.emitted = o.emitted ++ [⟨o.path, I.name, [p.name]⟩]
  silent : getPropertyByName I o p.name = w.val ∨ w.skipSignal = true →
    (w.run o).2.emitted = o.emitted

theorem run_sets {w : Write lib I} (hp : p ∈ I.properties) (h : w.sets p = true) :
    Step w o p := by
  obtain ⟨hname, htype⟩ := of_decide_eq_true h
  obtain ⟨x, hx⟩ := get_ok htype
  have hval : w.val = ⟨p.type lib, type_mem lib hp, x⟩ := variant_eq.mp hx
  have hrun : w.run o = (.ok (), written I p x w.skipSignal o) := by
    rw [Write.run, hname, setPropertyByName_known hp, hx]
  have hsame : getPropertyByName I o p.name = w.val ↔ o.fields p = x := by
    rw [getPropertyByName_known hp, hval]
    simp
  refine ⟨by rw [hrun], ?_, fun q hq hne => ?_, fun hne hsignal => ?_, fun hno => ?_⟩
  · rw [hrun, getPropertyByName_known hp, written_same, hval]
  · rw [hrun, getPropertyByName_known hq, getPropertyByName_known hq, written_other hne]
  · rw [hrun, written_emitted, if_pos ⟨fun heq => hne (hsame.mpr heq), hsignal⟩]
  · rw [hrun, written_emitted, if_neg]
    rintro ⟨hne, hsignal⟩
    obtain heq | hskip := hno
    · exact hne (hsame.mp heq)
    · rw [hskip] at hsignal
      cases hsignal

theorem run_wrong {w : Write lib I} (hp : p ∈ I.properties) (hname : w.name = p.name)
    (h : w.val.type ≠ p.type lib) : w.run o = (.error .badVariantAccess, o) := by
  rw [Write.run, hname, setPropertyByName_known hp, get_error h]

theorem run_unknown {w : Write lib I} (h : ∀ p ∈ I.properties, p.name ≠ w.name) :
    w.run o = (.ok (), o) :=
  setPropertyByName_unknown h

/-- A call that is not for the property, or not of its type, leaves it alone. -/
theorem run_keeps {w : Write lib I} (hp : p ∈ I.properties) (h : ¬ w.sets p = true) :
    getPropertyByName I (w.run o).2 p.name = getPropertyByName I o p.name := by
  by_cases hknown : ∃ q ∈ I.properties, q.name = w.name
  · obtain ⟨q, hq, hname⟩ := hknown
    by_cases htype : w.val.type = q.type lib
    · have hsets : w.sets q = true := decide_eq_true ⟨hname.symm, htype⟩
      refine (run_sets hq hsets).others p hp ?_
      rintro rfl
      exact h hsets
    · rw [run_wrong hq hname.symm htype]
  · have hunknown : ∀ q ∈ I.properties, q.name ≠ w.name :=
      fun q hq hname => hknown ⟨q, hq, hname⟩
    rw [run_unknown hunknown]

/-- What the property was last set to. -/
def lastWritten (p : Property) (ws : List (Write lib I)) : Option (PropertiesVariant lib I) :=
  (ws.filter (fun w => w.sets p)).getLast?.map Write.val

theorem runAll_reads (hp : p ∈ I.properties) (ws : List (Write lib I)) (o : Object lib) :
    getPropertyByName I (runAll o ws) p.name =
      (lastWritten p ws).getD (getPropertyByName I o p.name) := by
  induction ws generalizing o with
  | nil => rfl
  | cons w ws ih =>
    rw [runAll, ih, lastWritten, lastWritten]
    by_cases h : w.sets p = true
    · have hfilter : (w :: ws).filter (fun w => w.sets p) = w :: ws.filter (fun w => w.sets p) :=
        List.filter_cons_of_pos h
      rw [hfilter, List.getLast?_cons, (run_sets hp h).reads]
      cases (ws.filter (fun w => w.sets p)).getLast? <;> rfl
    · have hfilter : (w :: ws).filter (fun w => w.sets p) = ws.filter (fun w => w.sets p) :=
        List.filter_cons_of_neg h
      rw [hfilter, run_keeps hp h]

theorem alternatives_count (hp : p ∈ I.properties) :
    (propertiesVariant lib I).alternatives.count (p.type lib) = 1 := by
  apply List.count_eq_one_of_mem
  · rw [alternatives_eq]
    exact Distinct.nodup_eraseDups _
  · exact type_mem lib hp

/-- The properties of a server are a store by their names, with an announcement of each change. -/
theorem properties_store (lib : CppTypes) (I : Interface) :
    (∀ p ∈ I.properties, (propertiesVariant lib I).alternatives.count (p.type lib) = 1) ∧
    ∀ o : Object lib,
      (∀ (w : Write lib I), ∀ p ∈ I.properties, w.name = p.name →
        (w.val.type = p.type lib → Step w o p) ∧
        (w.val.type ≠ p.type lib → w.run o = (.error .badVariantAccess, o))) ∧
      (∀ w : Write lib I, (∀ p ∈ I.properties, p.name ≠ w.name) → w.run o = (.ok (), o)) ∧
      ∀ ws : List (Write lib I), ∀ p ∈ I.properties,
        getPropertyByName I (runAll o ws) p.name =
          (lastWritten p ws).getD (getPropertyByName I o p.name) := by
  refine ⟨fun p hp => alternatives_count hp, fun o => ⟨fun w p hp hname => ⟨fun htype => ?_,
    run_wrong hp hname⟩, fun w => run_unknown, fun ws p hp => runAll_reads hp ws o⟩⟩
  exact run_sets hp (decide_eq_true ⟨hname, htype⟩)

end Sdbusplus.Proofs.PropertiesByName
