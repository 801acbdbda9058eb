import Sdbusplus.Message.UnpackProperties

namespace Sdbusplus.Proofs.UnpackProperties
open Sdbusplus.UnpackProperties

section Container

variable {ι : Type} {Val : ι → Type} {container : Container Val} {key : String} {place : Nat}
  {v : Variant Val}

/-- The first element with a key. -/
structure First (container : Container Val) (key : String) (place : Nat) (v : Variant Val) :
    Prop where
  here : container[place]? = some (key, v)
  before : ∀ p < place, ∀ w, container[p]? ≠ some (key, w)

def Absent (container : Container Val) (key : String) : Prop := ∀ v, (key, v) ∉ container

theorem findProperty_first (hf : First container key place v) :
    findProperty container key = place := by
  obtain ⟨hlt, heq⟩ := List.getElem?_eq_some_iff.mp hf.here
  rw [findProperty, List.findIdx_eq hlt]
  refine ⟨by simp [heq], fun p hp => ?_⟩
  have hne := hf.before p hp container[p].2
  rw [List.getElem?_eq_getElem (by omega)] at hne
  simp only [decide_eq_false_iff_not]
  intro hkey
  exact hne (congrArg some (Prod.ext hkey rfl))

theorem findProperty_absent (ha : Absent container key) :
    container[findProperty container key]? = none := by
  have hno : ∀ kv ∈ container, decide (kv.1 = key) = false := by
    intro ⟨k, w⟩ hmem
    rw [decide_eq_false_iff_not]
    intro hk
    obtain rfl : k = key := hk
    exact ha w hmem
  rw [findProperty, List.findIdx_eq_length_of_false hno]
  simp

/-- A key is absent or occurs first somewhere. -/
theorem absent_or_first (container : Container Val) (key : String) :
    Absent container key ∨ ∃ place v, First container key place v := by
  cases hget : container[findProperty container key]? with
  | none =>
    refine .inl (fun w hmem => ?_)
    have hlt : findProperty container key < container.length :=
      List.findIdx_lt_length_of_exists ⟨_, hmem, by simp⟩
    rw [List.getElem?_eq_getElem hlt] at hget
    cases hget
  | some kv =>
    obtain ⟨k, v⟩ := kv
    have hk : decide (k = key) = true := List.findIdx_of_getElem?_eq_some
      (p := fun keyValue : String × Variant Val => decide (keyValue.1 = key)) hget
    obtain rfl := of_decide_eq_true hk
    refine .inr ⟨_, v, hget, fun p hp w hw => ?_⟩
    have hnot := List.not_of_lt_findIdx hp
    obtain ⟨hlt, heq⟩ := List.getElem?_eq_some_iff.mp hw
    simp [heq] at hnot

theorem First.unique {place' : Nat} {v' : Variant Val} (hf : First container key place v)
    (hf' : First container key place' v') : place = place' ∧ v = v' := by
  have hplace : place = place' := (findProperty_first hf).symm.trans (findProperty_first hf')
  subst hplace
  have h := hf.here.symm.trans hf'.here
  exact ⟨rfl, (Prod.mk.inj (Option.some.inj h)).2⟩

theorem Absent.not_first (ha : Absent container key) : ¬ First container key place v :=
  fun hf => ha v (List.mem_of_getElem? hf.here)

end Container

variable {ι Loc : Type} [DecidableEq ι] {Val : ι → Type} {decl : Loc → Output ι}
  {ε : Type} {container : Container Val} {r : Request Loc} {reason : UnpackErrorReason}
  {s : State Val decl} {onError : OnError ε Val decl}

/-- Why a request fails. -/
inductive Fails (decl : Loc → Output ι) (container : Container Val) (r : Request Loc) :
    UnpackErrorReason → Prop
  | wrongType {place : Nat} {v : Variant Val} (first : First container r.key place v)
      (other : getIf (decl r.output).type v = none) : Fails decl container r .wrongType
  | missing (absent : Absent container r.key) (plain : (decl r.output).kind = .plain) :
      Fails decl container r .missingProperty

/-- What holds of the variables when just these requests were met. -/
structure Delivered (container : Container Val) (requests : List (Request Loc))
    (m m' : (l : Loc) → (decl l).Stored Val) : Prop where
  present : ∀ r ∈ requests, ∀ place v, First container r.key place v →
    ∃ value, getIf (decl r.output).type v = some value ∧
      m' r.output = (decl r.output).store place value
  absent : ∀ r ∈ requests, Absent container r.key → m' r.output = m r.output
  frame : ∀ l, (∀ r ∈ requests, r.output ≠ l) → m' l = m l

theorem delivered_nil {m : (l : Loc) → (decl l).Stored Val} : Delivered container [] m m :=
  ⟨by simp, by simp, fun _ _ => rfl⟩

/-- Requests with other outputs leave what the first one got. -/
theorem delivered_cons {rs : List (Request Loc)} {m m₁ m₂ : (l : Loc) → (decl l).Stored Val}
    (h : Delivered container [r] m m₁) (h' : Delivered container rs m₁ m₂)
    (hne : ∀ q ∈ rs, q.output ≠ r.output) : Delivered container (r :: rs) m m₂ := by
  have hkept : m₂ r.output = m₁ r.output := h'.frame r.output hne
  refine ⟨?_, ?_, ?_⟩
  · intro q hq place v hf
    obtain rfl | hq := List.mem_cons.mp hq
    · rw [hkept]
      exact h.present q (by simp) place v hf
    · exact h'.present q hq place v hf
  · intro q hq ha
    obtain rfl | hq := List.mem_cons.mp hq
    · rw [hkept]
      exact h.absent q (by simp) ha
    · rw [h'.absent q hq ha]
      apply h.frame
      intro p hp
      rw [List.mem_singleton.mp hp]
      exact (hne q hq).symm
  · intro l hl
    rw [h'.frame l (fun q hq => hl q (List.mem_cons_of_mem r hq))]
    apply h.frame
    intro p hp
    rw [List.mem_singleton.mp hp]
    exact hl r List.mem_cons_self

/-- Either no request of a list fails, or one is the first that does. -/
theorem none_or_first_fails (decl : Loc → Output ι) (container : Container Val)
    (requests : List (Request Loc)) :
    (∀ q ∈ requests, ∀ reason, ¬ Fails decl container q reason) ∨
    ∃ before q after reason, requests = before ++ q :: after ∧
      (∀ b ∈ before, ∀ reason, ¬ Fails decl container b reason) ∧
      Fails decl container q reason := by
  induction requests with
  | nil => exact .inl (by simp)
  | cons r rs ih =>
    by_cases hr : ∃ reason, Fails decl container r reason
    · obtain ⟨reason, hf⟩ := hr
      exact .inr ⟨[], r, rs, reason, rfl, by simp, hf⟩
    · have hr' : ∀ reason, ¬ Fails decl container r reason := fun reason hf => hr ⟨reason, hf⟩
      obtain hall | ⟨before, q, after, reason, rfl, hok, hf⟩ := ih
      · exact .inl (List.forall_mem_cons.mpr ⟨hr', hall⟩)
      · exact .inr ⟨r :: before, q, after, reason, rfl, List.forall_mem_cons.mpr ⟨hr', hok⟩, hf⟩

variable [DecidableEq Loc]

theorem readProperty_fails (hf : Fails decl s.container r reason) :
    readProperty onError r s = reportError onError reason r.key s := by
  cases hf with
  | wrongType first other =>
    rw [readProperty, findProperty_first first]
    simp [first.here, other]
  | missing absent plain =>
    rw [readProperty]
    simp [findProperty_absent absent, plain]

theorem readProperty_delivers (hok : ∀ reason, ¬ Fails decl s.container r reason) :
    ∃ m, Delivered s.container [r] s.memory m ∧ ∀ (ε : Type) (onError : OnError ε Val decl),
      readProperty onError r s = (.ok true, { s with memory := m }) := by
  obtain ha | ⟨place, v, hf⟩ := absent_or_first s.container r.key
  · have hkind : (decl r.output).kind ≠ .plain := fun hp => hok _ (.missing ha hp)
    refine ⟨s.memory, ⟨?_, fun _ _ _ => rfl, fun _ _ => rfl⟩, ?_⟩
    · intro q hq place v hf
      rw [List.mem_singleton.mp hq] at hf
      exact absurd hf ha.not_first
    · intro ε onError
      rw [readProperty]
      simp [findProperty_absent ha, hkind]
  · cases hget : getIf (decl r.output).type v with
    | none => exact absurd (.wrongType hf hget) (hok _)
    | some value =>
      refine ⟨Function.update s.memory r.output ((decl r.output).store place value),
        ⟨?_, ?_, ?_⟩, ?_⟩
      · intro q hq place' v' hf'
        obtain rfl := List.mem_singleton.mp hq
        obtain ⟨rfl, rfl⟩ := hf.unique hf'
        exact ⟨value, hget, Function.update_self ..⟩
      · intro q hq ha
        rw [List.mem_singleton.mp hq] at ha
        exact absurd hf ha.not_first
      · intro l hl
        exact Function.update_of_ne (hl r (List.mem_singleton_self r)).symm _ _
      · intro ε onError
        rw [readProperty, findProperty_first hf]
        simp [hf.here, hget]

/-- An error ends the traversal, whether the callback throws or returns. -/
theorem readProperties_reports {q : Request Loc} {rs : List (Request Loc)}
    (hf : Fails decl s.container q reason) :
    readProperties onError q rs s = reportError onError reason q.key s := by
  cases rs with
  | nil => exact readProperty_fails hf
  | cons p rs =>
    rw [readProperties, readProperty_fails hf, reportError]
    cases onError reason q.key s with
    | mk result t => cases result <;> rfl

theorem readProperties_succeeds {rs : List (Request Loc)}
    (hok : ∀ q ∈ r :: rs, ∀ reason, ¬ Fails decl s.container q reason)
    (hnodup : ((r :: rs).map Request.output).Nodup) :
    ∃ m, Delivered s.container (r :: rs) s.memory m ∧ ∀ (ε : Type) (onError : OnError ε Val decl),
      readProperties onError r rs s = (.ok true, { s with memory := m }) := by
  induction rs generalizing r s with
  | nil => exact readProperty_delivers (hok r List.mem_cons_self)
  | cons p rs ih =>
    obtain ⟨hnot, hnodup⟩ := List.nodup_cons.mp hnodup
    obtain ⟨m₁, hm₁, hread⟩ := readProperty_delivers (hok r List.mem_cons_self)
    obtain ⟨m₂, hm₂, hrest⟩ := ih (s := { s with memory := m₁ })
      (fun q hq => hok q (List.mem_cons_of_mem r hq)) hnodup
    have hne : ∀ q ∈ p :: rs, q.output ≠ r.output := by
      intro q hq heq
      exact hnot (List.mem_map.mpr ⟨q, hq, heq⟩)
    refine ⟨m₂, delivered_cons hm₁ hm₂ hne, fun ε onError => ?_⟩
    rw [readProperties, hread]
    exact hrest ε onError

theorem readProperties_fails {q : Request Loc} {before after rs : List (Request Loc)}
    (hsplit : r :: rs = before ++ q :: after)
    (hok : ∀ b ∈ before, ∀ reason, ¬ Fails decl s.container b reason)
    (hf : Fails decl s.container q reason) (hnodup : ((r :: rs).map Request.output).Nodup) :
    ∃ m, Delivered s.container before s.memory m ∧ ∀ (ε : Type) (onError : OnError ε Val decl),
      readProperties onError r rs s = reportError onError reason q.key { s with memory := m } := by
  induction before generalizing r rs s with
  | nil =>
    obtain ⟨rfl, rfl⟩ := List.cons.inj hsplit
    exact ⟨s.memory, delivered_nil, fun _ _ => readProperties_reports hf⟩
  | cons b before ih =>
    obtain ⟨rfl, htail⟩ := List.cons.inj hsplit
    cases rs with
    | nil => simp at htail
    | cons p rs =>
      obtain ⟨hnot, hnodup⟩ := List.nodup_cons.mp hnodup
      obtain ⟨m₁, hm₁, hread⟩ := readProperty_delivers (hok r List.mem_cons_self)
      obtain ⟨m₂, hm₂, hrest⟩ := ih (s := { s with memory := m₁ }) htail
        (fun b hb => hok b (List.mem_cons_of_mem r hb)) hf hnodup
      have hne : ∀ b ∈ before, b.output ≠ r.output := by
        intro b hb heq
        have hmem : b ∈ p :: rs := htail ▸ List.mem_append_left _ hb
        exact hnot (List.mem_map.mpr ⟨b, hmem, heq⟩)
      refine ⟨m₂, delivered_cons hm₁ hm₂ hne, fun ε onError => ?_⟩
      rw [readProperties, hread]
      exact hrest ε onError

/-- How both forms end. If no request fails every output is delivered; otherwise the first
that fails is reported, once, those before it are delivered, and it and those after it
are left alone. -/
inductive FirstFailure (r : Request Loc) (rs : List (Request Loc)) (s : State Val decl) : Prop
  | succeeds (m : (l : Loc) → (decl l).Stored Val)
      (ok : ∀ q ∈ r :: rs, ∀ reason, ¬ Fails decl s.container q reason)
      (delivered : Delivered s.container (r :: rs) s.memory m)
      (throwing : unpackProperties r rs s = (.ok (), { s with memory := m }))
      (noThrow : unpackPropertiesNoThrow r rs s = (.ok true, { s with memory := m }))
  | fails (before : List (Request Loc)) (q : Request Loc) (after : List (Request Loc))
      (reason : UnpackErrorReason) (m : (l : Loc) → (decl l).Stored Val)
      (split : r :: rs = before ++ q :: after)
      (ok : ∀ b ∈ before, ∀ reason, ¬ Fails decl s.container b reason)
      (first : Fails decl s.container q reason)
      (delivered : Delivered s.container before s.memory m)
      (kept : ∀ a ∈ q :: after, m a.output = s.memory a.output)
      (throwing : unpackProperties r rs s =
        (.error (.of q.key reason), { s with memory := m }))
      (noThrow : unpackPropertiesNoThrow r rs s =
        (.ok false, { s with memory := m, calls := s.calls ++ [(reason, q.key)] }))

theorem unpack_first_failure (r : Request Loc) (rs : List (Request Loc)) (s : State Val decl)
    (hnodup : ((r :: rs).map Request.output).Nodup) : FirstFailure r rs s := by
  obtain hok | ⟨before, q, after, reason, hsplit, hok, hf⟩ :=
    none_or_first_fails decl s.container (r :: rs)
  · obtain ⟨m, hm, hread⟩ := readProperties_succeeds hok hnodup
    refine .succeeds m hok hm ?_ ?_
    · rw [unpackProperties, hread]
    · rw [unpackPropertiesNoThrow, hread]
  · obtain ⟨m, hm, hread⟩ := readProperties_fails hsplit hok hf hnodup
    refine .fails before q after reason m hsplit hok hf hm ?_ ?_ ?_
    · intro a ha
      apply hm.frame
      intro b hb heq
      rw [hsplit, List.map_append, List.nodup_append] at hnodup
      exact hnodup.2.2 _ (List.mem_map_of_mem hb) _ (List.mem_map_of_mem ha) heq
    · rw [unpackProperties, hread]
      rfl
    · rw [unpackPropertiesNoThrow, hread]
      rfl

/-- A std::string variable at `true` and a number at `false`. -/
def twoOutputs (l : Bool) : Output Bool := ⟨.plain, l⟩

/-- Two values of one key, which both are strings. -/
def twoValues : State (fun i : Bool => if i then String else Nat) twoOutputs where
  container := [("Key-1", some ⟨true, "string"⟩), ("Key-1", some ⟨true, "string2"⟩)]
  memory
    | true => ""
    | false => (0 : Nat)
  calls := []

theorem unpack_first_failure_twoValues :
    FirstFailure ⟨"Key-1", true⟩ [⟨"Key-1", false⟩] twoValues ∧
    (unpackPropertiesNoThrow ⟨"Key-1", true⟩ [⟨"Key-1", false⟩] twoValues).2.calls =
      [(.wrongType, "Key-1")] :=
  ⟨unpack_first_failure _ _ _ (by simp), rfl⟩

end Sdbusplus.Proofs.UnpackProperties
