import Sdbusplus.Base.Traverse
import Sdbusplus.Proofs.Property
import Sdbusplus.Tools.Path

namespace Sdbusplus.Proofs.Path
open Tools.Property Tools.Property.Path Traverse
open Property (asciiOnly)

variable {inflection : Inflection} {segment : Bool} {d s : PathDefinition} {p q : Path}
  {value v e : Text} {vs es : List Text} {name : Option Text}

/-! ## D-Bus object paths -/

def Element (e : Text) : Prop := e ≠ [] ∧ ∀ c ∈ e, c.isAlphanum = true ∨ c = '_'

def ValidPath (path : Text) : Prop :=
  path = ['/'] ∨ ∃ es : List Text, es ≠ [] ∧ (∀ e ∈ es, Element e) ∧ path = es.flatMap ('/' :: ·)

/-- Elements with '/' between them. -/
def ValidSegment (value : Text) : Prop :=
  ∃ es : List Text, es ≠ [] ∧ (∀ e ∈ es, Element e) ∧ value = ['/'].intercalate es

theorem Element.no_slash (h : Element e) : '/' ∉ e := by
  intro hmem
  obtain hc | hc := h.2 '/' hmem
  · simp at hc
  · simp at hc

theorem validSegment_iff : ValidSegment value ↔ ∀ e ∈ value.splitOn '/', Element e := by
  refine ⟨fun ⟨es, hne, hes, hvalue⟩ => ?_, fun h => ?_⟩
  · rw [hvalue, List.splitOn_intercalate '/' (fun e he => (hes e he).no_slash) hne]
    exact hes
  · exact ⟨value.splitOn '/', List.splitOn_ne_nil _ _, h, (List.intercalate_splitOn '/').symm⟩

theorem flatMap_slash (h : es ≠ []) : es.flatMap ('/' :: ·) = '/' :: ['/'].intercalate es := by
  induction es with
  | nil => exact absurd rfl h
  | cons e es ih =>
    by_cases hes : es = []
    · simp [hes]
    · rw [List.flatMap_cons, ih hes, List.intercalate_cons_of_ne_nil hes]
      simp

theorem validSegment_ne_nil (h : ValidSegment value) : value ≠ [] := by
  rintro rfl
  have helement := validSegment_iff.mp h [] (by simp)
  exact helement.1 rfl

/-- Except for the root, a path is '/' with a segment. -/
theorem validPath_cons : ValidPath ('/' :: value) ∧ '/' :: value ≠ ['/'] ↔ ValidSegment value := by
  refine ⟨fun ⟨hpath, hroot⟩ => ?_, fun h => ⟨.inr ?_, fun hroot => ?_⟩⟩
  · obtain ⟨es, hne, hes, hvalue⟩ := hpath.resolve_left hroot
    rw [flatMap_slash hne] at hvalue
    exact ⟨es, hne, hes, (List.cons.inj hvalue).2⟩
  · obtain ⟨es, hne, hes, rfl⟩ := h
    exact ⟨es, hne, hes, (flatMap_slash hne).symm⟩
  · exact validSegment_ne_nil h (List.cons.inj hroot).2

theorem ValidPath.slash (h : ValidPath value) : ∃ rest, value = '/' :: rest := by
  obtain rfl | ⟨es, hne, -, rfl⟩ := h
  · exact ⟨[], rfl⟩
  · exact ⟨_, flatMap_slash hne⟩

theorem validSegment_append (h : ValidSegment value) (hv : ValidSegment v) :
    ValidSegment (value ++ '/' :: v) := by
  rw [validSegment_iff, List.splitOn_append_cons_self]
  intro e he
  obtain he | he := List.mem_append.mp he
  · exact validSegment_iff.mp h e he
  · exact validSegment_iff.mp hv e he

/-! ## Validation -/

theorem checkElements_iff : checkElements value es = .ok () ↔ ∀ e ∈ es, Element e := by
  induction es with
  | nil => simp [checkElements, pure, Except.pure]
  | cons e es ih =>
    rw [checkElements, List.forall_mem_cons]
    by_cases hempty : e.length = 0
    · rw [if_pos hempty]
      exact iff_of_false nofun (fun h => h.1.1 (List.length_eq_zero_iff.mp hempty))
    · rw [if_neg hempty]
      by_cases hillegal : e.any illegal = true
      · rw [if_pos hillegal]
        refine iff_of_false nofun (fun h => ?_)
        obtain ⟨c, hc, hbad⟩ := List.any_eq_true.mp hillegal
        have hgood := h.1.2 c hc
        simp [illegal] at hbad
        simp [hbad] at hgood
      · rw [if_neg hillegal, ih]
        refine (and_iff_right ⟨fun h => hempty (by simp [h]), fun c hc => ?_⟩).symm
        by_contra hbad
        apply hillegal
        refine List.any_eq_true.mpr ⟨c, hc, ?_⟩
        simpa [illegal] using hbad

def Valid (segment : Bool) (value : Text) : Prop :=
  if segment then ValidSegment value else ValidPath value ∧ value ≠ ['/']

theorem splitOn_slash (rest : Text) : ('/' :: rest).splitOn '/' = [] :: rest.splitOn '/' :=
  List.splitOn_append_cons_self [] rest

theorem validate_path {first : Char} {rest : Text} :
    validate false (first :: rest) = .ok () ↔
      ValidPath (first :: rest) ∧ first :: rest ≠ ['/'] := by
  by_cases hfirst : first = '/'
  · subst hfirst
    rw [validPath_cons, validSegment_iff, ← @checkElements_iff ('/' :: rest), validate]
    simp [splitOn_slash]
  · refine iff_of_false ?_ (fun ⟨hpath, _⟩ => ?_)
    · simp [validate, hfirst]
    · obtain ⟨rest', hrest⟩ := hpath.slash
      exact hfirst (List.cons.inj hrest).1

theorem validate_segment {first : Char} {rest : Text} :
    validate true (first :: rest) = .ok () ↔ ValidSegment (first :: rest) := by
  rw [validSegment_iff]
  by_cases hfirst : first = '/'
  · subst hfirst
    refine iff_of_false (by simp [validate]) (fun h => ?_)
    have hempty := h [] (by simp [splitOn_slash])
    exact hempty.1 rfl
  · rw [← @checkElements_iff (first :: rest), validate]
    simp [hfirst]

theorem validate_iff : validate segment value = .ok () ↔ Valid segment value := by
  cases value with
  | nil =>
    refine iff_of_false (by simp [validate]) (fun h => ?_)
    cases segment with
    | false =>
      obtain ⟨rest, hrest⟩ := ValidPath.slash h.1
      cases hrest
    | true => exact validSegment_ne_nil h rfl
  | cons first rest =>
    cases segment with
    | false => exact validate_path
    | true => exact validate_segment

/-- The value of a path or segment, which for a segment comes from its name if it is empty. -/
def valueOf (inflection : Inflection) (segment : Bool) (d : PathDefinition) : Option Text :=
  if segment = true ∧ d.given.2 = [] then d.given.1.map (NamedElement.snakeCase inflection)
  else some d.given.2

theorem defaultValue_iff :
    (defaultValue inflection segment d.given.1 d.given.2 = .ok v ∧ Valid segment v) ↔
      valueOf inflection segment d = some v ∧ Valid segment v := by
  refine and_congr_left (fun hv => ?_)
  rw [defaultValue.eq_def, valueOf]
  by_cases hempty : d.given.2 = []
  · rw [if_pos (List.length_eq_zero_iff.mpr hempty)]
    cases segment with
    | false =>
      refine iff_of_false nofun (fun h => ?_)
      simp only [Bool.false_eq_true, false_and, if_false, Option.some.injEq] at h
      obtain ⟨rest, hrest⟩ := ValidPath.slash hv.1
      rw [hempty] at h
      rw [← h] at hrest
      cases hrest
    | true =>
      rw [if_pos rfl, if_pos ⟨rfl, hempty⟩]
      cases d.given.1 with
      | none => simp
      | some name => simp [pure, Except.pure]
  · rw [if_neg (fun h => hempty (List.length_eq_zero_iff.mp h)), if_neg (fun h => hempty h.2)]
    simp [pure, Except.pure]

/-! ## Construction -/

theorem construct_eq (segment : Bool) (d : PathDefinition) :
    construct inflection segment d =
      defaultValue inflection segment d.given.1 d.given.2 >>= fun value =>
        validate segment value >>= fun _ =>
          constructAll inflection d.segments >>= fun segments =>
            pure (.mk value (d.given.1.getD "unnamed".toList) segments) := by
  cases d
  rw [construct]
  rfl

theorem construct_iff : construct inflection segment d = .ok p ↔
    ∃ v ps, valueOf inflection segment d = some v ∧ Valid segment v ∧
      constructAll inflection d.segments = .ok ps ∧
      p = .mk v (d.given.1.getD "unnamed".toList) ps := by
  rw [construct_eq]
  simp only [bind_ok]
  refine ⟨fun ⟨v, hv, _, hvalid, ps, hps, hp⟩ => ?_, fun ⟨v, ps, hv, hvalid, hps, hp⟩ => ?_⟩
  · have hboth := defaultValue_iff.mp ⟨hv, validate_iff.mp hvalid⟩
    exact ⟨v, ps, hboth.1, hboth.2, hps, (Except.ok.inj hp).symm⟩
  · have hboth := defaultValue_iff.mpr ⟨hv, hvalid⟩
    exact ⟨v, hboth.1, (), validate_iff.mpr hvalid, ps, hps, by rw [hp]; rfl⟩

theorem constructAll_iff {ds : List PathDefinition} {ps : List Path} :
    constructAll inflection ds = .ok ps ↔
      List.Forall₂ (fun d p => construct inflection true d = .ok p) ds ps := by
  induction ds generalizing ps with
  | nil =>
    rw [constructAll, List.forall₂_nil_left_iff]
    exact ⟨fun h => (Except.ok.inj h).symm, fun h => by rw [h]; rfl⟩
  | cons d ds ih =>
    rw [constructAll, List.forall₂_cons_left_iff]
    simp only [bind_ok, ih]
    refine ⟨fun ⟨p, hp, rest, hrest, heq⟩ => ⟨p, rest, hp, hrest, (Except.ok.inj heq).symm⟩,
      fun ⟨p, rest, hp, hrest, heq⟩ => ⟨p, hp, rest, hrest, by rw [heq]; rfl⟩⟩

theorem constructAll_ok {ds : List PathDefinition} :
    (∃ ps, constructAll inflection ds = .ok ps) ↔
      ∀ s ∈ ds, ∃ p, construct inflection true s = .ok p := by
  simp only [constructAll_iff]
  exact exists_forall₂

theorem construct_ok : (∃ p, construct inflection segment d = .ok p) ↔
    (∃ v, valueOf inflection segment d = some v ∧ Valid segment v) ∧
      ∀ s ∈ d.segments, ∃ p, construct inflection true s = .ok p := by
  rw [← constructAll_ok]
  simp only [construct_iff]
  refine ⟨fun ⟨p, v, ps, hv, hvalid, hps, _⟩ => ⟨⟨v, hv, hvalid⟩, ⟨ps, hps⟩⟩,
    fun ⟨⟨v, hv, hvalid⟩, ⟨ps, hps⟩⟩ => ⟨_, v, ps, hv, hvalid, hps, rfl⟩⟩

/-! ## Nested segments -/

/-- A segment at any depth of a path. -/
inductive Nested : PathDefinition → PathDefinition → Prop
  | here {s d : PathDefinition} (mem : s ∈ d.segments) : Nested s d
  | inner {s t d : PathDefinition} (mem : t ∈ d.segments) (later : Nested s t) : Nested s d

/-- The values along a chain of segments of the definition. -/
inductive Values (inflection : Inflection) : Bool → PathDefinition → List Text → Prop
  | here {segment : Bool} {d : PathDefinition} {v : Text}
      (value : valueOf inflection segment d = some v) : Values inflection segment d [v]
  | deeper {segment : Bool} {d s : PathDefinition} {v : Text} {vs : List Text}
      (value : valueOf inflection segment d = some v) (mem : s ∈ d.segments)
      (later : Values inflection true s vs) : Values inflection segment d (v :: vs)

/-- The same of a path that has been constructed. -/
inductive Chain : Path → List Text → Prop
  | here (p : Path) : Chain p [p.value]
  | deeper {p q : Path} {vs : List Text} (mem : q ∈ p.segments) (later : Chain q vs) :
      Chain p (p.value :: vs)

theorem segments_lt (h : s ∈ d.segments) : sizeOf s < sizeOf d := by
  cases d with
  | mk namespacePath instancePath value name segments =>
    have hlt := List.sizeOf_lt_of_mem h
    simp only [PathDefinition.segments, PathDefinition.mk.sizeOf_spec] at hlt ⊢
    omega

theorem construct_ok_of_nested (d : PathDefinition) (segment : Bool)
    (hvalue : ∃ v, valueOf inflection segment d = some v ∧ Valid segment v)
    (hnested : ∀ s, Nested s d → ∃ v, valueOf inflection true s = some v ∧ ValidSegment v) :
    ∃ p, construct inflection segment d = .ok p := by
  rw [construct_ok]
  refine ⟨hvalue, fun s hs => ?_⟩
  exact construct_ok_of_nested s true (hnested s (.here hs))
    (fun t ht => hnested t (.inner hs ht))
termination_by sizeOf d
decreasing_by exact segments_lt hs

theorem nested_of_construct (h : Nested s d)
    (hok : ∃ p, construct inflection segment d = .ok p) :
    ∃ v, valueOf inflection true s = some v ∧ ValidSegment v := by
  induction h generalizing segment with
  | here mem => exact (construct_ok.mp ((construct_ok.mp hok).2 _ mem)).1
  | inner mem later ih => exact ih ((construct_ok.mp hok).2 _ mem)

theorem construct_segments (h : construct inflection segment d = .ok p) :
    valueOf inflection segment d = some p.value ∧ Valid segment p.value ∧
      List.Forall₂ (fun s q => construct inflection true s = .ok q) d.segments p.segments := by
  obtain ⟨v, ps, hv, hvalid, hps, rfl⟩ := construct_iff.mp h
  exact ⟨hv, hvalid, constructAll_iff.mp hps⟩

theorem values_of_chain (h : Chain p vs) (hok : construct inflection segment d = .ok p) :
    Values inflection segment d vs := by
  induction h generalizing segment d with
  | here p => exact .here (construct_segments hok).1
  | deeper mem later ih =>
    obtain ⟨hv, -, hps⟩ := construct_segments hok
    obtain ⟨s, hs, hq⟩ := mem_right hps mem
    exact .deeper hv hs (ih hq)

theorem chain_of_values (h : Values inflection segment d vs)
    (hok : construct inflection segment d = .ok p) : Chain p vs := by
  induction h generalizing p with
  | here value =>
    rw [Option.some.inj (value.symm.trans (construct_segments hok).1)]
    exact .here p
  | deeper value mem later ih =>
    obtain ⟨hv, -, hps⟩ := construct_segments hok
    obtain ⟨q, hq, hsq⟩ := mem_left hps mem
    rw [Option.some.inj (value.symm.trans hv)]
    exact .deeper hq (ih hsq)

theorem Chain.ne_nil (h : Chain p vs) : vs ≠ [] := by cases h <;> simp

theorem join_cons (v : Text) (h : vs ≠ []) : join "/" (v :: vs) = v ++ '/' :: join "/" vs := by
  rw [join, List.intercalate_cons_of_ne_nil h]
  simp [join]

theorem chain_segment (h : Chain p vs) (hok : construct inflection true d = .ok p) :
    ValidSegment (join "/" vs) := by
  induction h generalizing d with
  | here p =>
    rw [join, List.intercalate_singleton]
    exact (construct_segments hok).2.1
  | deeper mem later ih =>
    obtain ⟨-, hvalid, hps⟩ := construct_segments hok
    obtain ⟨s, -, hq⟩ := mem_right hps mem
    rw [join_cons _ later.ne_nil]
    exact validSegment_append hvalid (ih hq)

theorem validPath_append (h : ValidPath value) (hroot : value ≠ ['/']) (hv : ValidSegment v) :
    ValidPath (value ++ '/' :: v) := by
  obtain ⟨rest, rfl⟩ := h.slash
  exact (validPath_cons.mpr (validSegment_append (validPath_cons.mp ⟨h, hroot⟩) hv)).1

theorem chain_path (h : Chain p vs) (hok : construct inflection false d = .ok p) :
    ValidPath (join "/" vs) := by
  obtain ⟨-, hvalid, hps⟩ := construct_segments hok
  cases h with
  | here =>
    rw [join, List.intercalate_singleton]
    exact hvalid.1
  | deeper mem later =>
    obtain ⟨s, -, hq⟩ := mem_right hps mem
    rw [join_cons _ later.ne_nil]
    exact validPath_append hvalid.1 hvalid.2 (chain_segment later hq)

theorem valueOf_root (d : PathDefinition) : valueOf inflection false d = some d.given.2 :=
  if_neg (fun h => Bool.false_ne_true h.1)

/-- A path is made exactly of a valid path that is not the root and of valid segments, and then
every chain of its segments is a valid path again. -/
theorem paths_valid (inflection : Inflection) (d : PathDefinition) :
    ((∃ p, construct inflection false d = .ok p) ↔
      (ValidPath d.given.2 ∧ d.given.2 ≠ ['/']) ∧
        ∀ s, Nested s d → ∃ v, valueOf inflection true s = some v ∧ ValidSegment v) ∧
    ∀ p, construct inflection false d = .ok p →
      ∀ vs, (Chain p vs ↔ Values inflection false d vs) ∧
        (Chain p vs → ValidPath (join "/" vs)) := by
  refine ⟨⟨fun hok => ?_, fun ⟨hvalid, hnested⟩ => ?_⟩, fun p hok vs => ?_⟩
  · obtain ⟨v, hv, hvalid⟩ := (construct_ok.mp hok).1
    rw [valueOf_root] at hv
    rw [Option.some.inj hv]
    exact ⟨hvalid, fun s hs => nested_of_construct hs hok⟩
  · exact construct_ok_of_nested d false ⟨_, valueOf_root d, hvalid⟩ hnested
  · exact ⟨⟨fun h => values_of_chain h hok, fun h => chain_of_values h hok⟩,
      fun h => chain_path h hok⟩

/-- The root path is no path of the generator, and a segment that is given as empty is one. -/
theorem root_and_empty_segment :
    construct asciiOnly false (.mk none none (some ['/']) (some ['R']) []) =
      .error (.valueError "Paths cannot have consecutive /: / ".toList) ∧
    construct asciiOnly false (.mk none none (some ['/', 'a']) (some ['R'])
      [.mk none none (some []) (some ['F']) []]) =
        .ok (.mk ['/', 'a'] ['R'] [.mk ['f'] ['F'] []]) ∧
    ¬ ∀ d, (∃ p, construct asciiOnly false d = .ok p) ↔
      ValidPath d.given.2 ∧ ∀ s, Nested s d → ValidSegment s.given.2 := by
  have hroot : construct asciiOnly false (.mk none none (some ['/']) (some ['R']) []) =
      .error (.valueError "Paths cannot have consecutive /: / ".toList) := by
    rw [construct_eq]
    rfl
  refine ⟨hroot, ?_, fun h => ?_⟩
  · have hname : NamedElement.snakeCase asciiOnly ['F'] = ['f'] :=
      NamedElement.fixupName_free (by decide)
    have hsegment : ∀ c : Char, c.isAlphanum = true → ValidSegment [c] := by
      refine fun c hc => ⟨[[c]], by simp, ?_, rfl⟩
      simp [Element, hc]
    have hinner : construct asciiOnly true (.mk none none (some []) (some ['F']) []) =
        .ok (.mk ['f'] ['F'] []) :=
      construct_iff.mpr ⟨['f'], [], congrArg some hname, hsegment 'f' rfl, rfl, rfl⟩
    refine construct_iff.mpr ⟨['/', 'a'], [.mk ['f'] ['F'] []], rfl, ?_, ?_, rfl⟩
    · exact validPath_cons.mpr (hsegment 'a' rfl)
    · exact constructAll_iff.mpr (.cons hinner .nil)
  · have hnested : ∀ s, ¬ Nested s (.mk none none (some ['/']) (some ['R']) []) := by
      intro s hs
      cases hs with
      | here mem => cases mem
      | inner mem later => cases mem
    obtain ⟨p, hp⟩ := (h (.mk none none (some ['/']) (some ['R']) [])).mpr
      ⟨.inl rfl, fun s hs => absurd hs (hnested s)⟩
    rw [hroot] at hp
    cases hp

end Sdbusplus.Proofs.Path
