import Sdbusplus.Base.Traverse
import Sdbusplus.Proofs.Property
import Sdbusplus.Proofs.Replace

namespace Sdbusplus.Proofs.EnumHeaders
open Replacement Tools.Property Traverse TypeNames Property Replace

variable {yaml : PyYaml} {inflection : Inflection} {t : TypeTree} {n : DottedName}
  {interface : Option Text} {text a b : Text}

/-- The interface that a name that is not local has its enumeration in. -/
def interfaceOf (n : DottedName) : Text := ['.'].intercalate (n.first :: n.others.dropLast)

/-- The same for a local name of an interface. -/
def interfaceIn (name : Text) (n : DottedName) : Text :=
  ['.'].intercalate (name :: n.others.dropLast)

/-- The enumerations that a type refers to. -/
def enums : TypeTree → List DottedName
  | .base _ => []
  | .enum n => [n]
  | .container _ _ _ members => (List.ofFn (fun i => enums (members i))).flatten

/-- The generator gives the enumeration the name of a local one. -/
def RendersLocal (inflection : Inflection) (n : DottedName) : Prop :=
  ∃ r, parseTypeTuple inflection (TypeTree.enum n).tuple = .ok r ∧ localEnumMagic.toList <+: r

/-- The generator has no header for the enumeration. -/
def TreatedLocal (n : DottedName) : Prop := tupleHeaders none (TypeTree.enum n).tuple = .ok []

/-! ## Names -/

theorem intercalate_concat (first : Text) {others : List Text} (h : others ≠ []) :
    ['.'].intercalate (first :: others) =
      ['.'].intercalate (first :: others.dropLast) ++ '.' :: others.getLast h := by
  induction others generalizing first with
  | nil => exact absurd rfl h
  | cons part parts ih =>
    by_cases hparts : parts = []
    · subst hparts
      simp [List.intercalate_cons_cons]
    · rw [List.intercalate_cons_cons, ih part hparts, List.dropLast_cons_of_ne_nil hparts,
        List.intercalate_cons_cons, List.getLast_cons hparts]
      simp

theorem parentName_dotted (n : DottedName) (first : Text) :
    parentName (['.'].intercalate (first :: n.others)) =
      ['.'].intercalate (first :: n.others.dropLast) := by
  rw [intercalate_concat first n.dotted]
  apply parentName_append
  apply identifier_no_dot
  exact n.identifiers _ (List.mem_cons_of_mem _ (List.getLast_mem n.dotted))

theorem text_in (name : Text) (n : DottedName) :
    ['.'].intercalate (name :: n.others) = name ++ ['.'] ++ later n := by
  rw [List.intercalate_cons_of_ne_nil n.dotted]
  rfl

theorem renders_iff : RendersLocal inflection n ↔ n.first = self := by
  rw [RendersLocal, parseTypeTuple_tuple, TypeTree.cppType, enumCppName]
  by_cases h : n.first = self
  · rw [if_pos h]
    refine iff_of_true ⟨_, rfl, ?_⟩ h
    refine ⟨"::".toList ++ replace selfDot (localEnumMagic ++ "::").toList (later n), ?_⟩
    rw [← List.append_assoc]
    rfl
  · rw [if_neg h]
    refine iff_of_false ?_ h
    rintro ⟨r, hr, hp⟩
    obtain rfl := Except.ok.inj hr
    rw [join, List.intercalate_cons_cons] at hp
    obtain ⟨tail, htail⟩ := hp
    have hhead := congrArg List.head? htail
    revert hhead
    simp [localEnumMagic]

theorem enumHeader_of_absent (h : ¬ selfDot <:+: text) :
    enumHeader interface text = [NamedElement.headerFile (parentName text) "common"] :=
  if_neg (fun hc => h (contains_iff.mp hc))

theorem enumHeader_none (h : selfDot <:+: text) : enumHeader none text = [] :=
  if_pos (contains_iff.mpr h)

theorem enumHeader_some (h : selfDot <:+: text) {name : Text} (hname : name ≠ []) :
    enumHeader (some name) text =
      [NamedElement.headerFile (parentName (replace selfDot (name ++ ".".toList) text))
        "common"] := by
  have hc : contains text "self.".toList = true := contains_iff.mpr h
  rw [enumHeader.eq_def, if_pos hc]
  cases name with
  | nil => exact absurd rfl hname
  | cons c cs => rfl

theorem treated_iff : TreatedLocal n ↔ selfDot <:+: n.text := by
  rw [TreatedLocal, TypeTree.tuple, tupleHeaders, if_pos rfl]
  by_cases h : selfDot <:+: n.text
  · rw [enumHeader_none h]
    exact iff_of_true rfl h
  · rw [enumHeader_of_absent h]
    exact iff_of_false (by simp) h

/-! ## Headers of a type -/

theorem tupleHeaders_of_ne {first : Option Text} (h : first ≠ some "enum".toList)
    (rest : List TypeTuple) :
    tupleHeaders interface (.mk first rest) = tuplesHeaders interface rest := by
  rw [tupleHeaders.eq_def]
  exact if_neg h

theorem tuplesHeaders_map (ts : List TypeTree)
    (h : ∀ t ∈ ts, tupleHeaders interface t.tuple =
      .ok ((enums t).flatMap (fun n => enumHeader interface n.text))) :
    tuplesHeaders interface (ts.map TypeTree.tuple) =
      .ok ((ts.flatMap enums).flatMap (fun n => enumHeader interface n.text)) := by
  induction ts with
  | nil => rfl
  | cons t ts ih =>
    obtain ⟨ht, hts⟩ := List.forall_mem_cons.mp h
    rw [List.map_cons, tuplesHeaders, ht, ih hts, List.flatMap_cons, List.flatMap_append]
    rfl

theorem tupleHeaders_tuple (interface : Option Text) (t : TypeTree) :
    tupleHeaders interface t.tuple =
      .ok ((enums t).flatMap (fun n => enumHeader interface n.text)) := by
  induction t with
  | base b =>
    have hb : some b.name.toList ≠ some "enum".toList := by cases b <;> simp [BaseType.name]
    rw [TypeTree.tuple, tupleHeaders_of_ne hb]
    rfl
  | enum n =>
    rw [TypeTree.tuple, tupleHeaders, if_pos rfl]
    simp [enums]
  | container c k takes members ih =>
    have hc : some c.name.toList ≠ some "enum".toList := by cases c <;> simp [Container.name]
    have hmap := tuplesHeaders_map (List.ofFn members) (List.forall_mem_ofFn_iff.mpr ih)
    rw [List.map_ofFn, @List.flatMap_def _ _ (List.ofFn members), List.map_ofFn] at hmap
    rw [TypeTree.tuple, tupleHeaders_of_ne hc]
    exact hmap

theorem enumHeaders_printed {typeName : Text} (h : Printed t typeName) :
    enumHeaders yaml (some typeName) interface =
      .ok ((enums t).flatMap (fun n => enumHeader interface n.text)) := by
  rw [← tupleHeaders_tuple, enumHeaders]
  · rw [read_printed h]
    rfl
  · exact h.ne_nil

theorem header_mem {typeName : Text} (h : Printed t typeName) (hn : n ∈ enums t) :
    ∃ headers, enumHeaders yaml (some typeName) interface = .ok headers ∧
      ∀ header ∈ enumHeader interface n.text, header ∈ headers :=
  ⟨_, enumHeaders_printed h, fun _ hmem => List.mem_flatMap.mpr ⟨n, hn, hmem⟩⟩

/-- enum_includes leaves no header out. -/
theorem includes_mem {entries : List (Option Text)} {includes headers : List Text}
    {e : Option Text} (h : Interface.enumIncludes yaml entries = .ok includes) (he : e ∈ entries)
    (hheaders : enumHeaders yaml e none = .ok headers) : ∀ header ∈ headers, header ∈ includes := by
  rw [Interface.enumIncludes] at h
  obtain ⟨results, hmap, h⟩ := bind_ok.mp h
  obtain rfl := Except.ok.inj h
  obtain ⟨r, hr, heq⟩ := mem_left (mapM_iff.mp hmap) he
  obtain rfl := Except.ok.inj (hheaders.symm.trans heq)
  exact fun header hmem => mem_sortedSet.mpr (List.mem_flatten.mpr ⟨_, hr, hmem⟩)

/-! ## Local and other enumerations -/

theorem leadingOnly_local (h : n.first = self) :
    LeadingOnly n.text ↔ ¬ selfDot <:+: later n := by
  rw [local_text h, leadingOnly_front]

theorem leadingOnly_nonlocal (h : n.first ≠ self) :
    LeadingOnly n.text ↔ ¬ selfDot <:+: n.text :=
  leadingOnly_other (fun hp => h ((first_self_iff n).mpr hp))

theorem expand_iff (name : Text) (h : n.first = self) :
    replace selfDot (name ++ ".".toList) n.text = ['.'].intercalate (name :: n.others) ↔
      ¬ selfDot <:+: later n ∨ name = self := by
  rw [local_text h, text_in]
  exact expand_front_iff

/-- The reference has its header among the ones of the type. -/
structure Included (yaml : PyYaml) (inflection : Inflection) (t : TypeTree) (n : DottedName) :
    Prop where
  agree : RendersLocal inflection n ↔ TreatedLocal n
  nonlocal : ¬ RendersLocal inflection n → ∀ typeName, Printed t typeName →
    (∀ interface, ∃ headers, enumHeaders yaml (some typeName) interface = .ok headers ∧
      NamedElement.headerFile (interfaceOf n) "common" ∈ headers) ∧
      ∀ entries includes, some typeName ∈ entries →
        Interface.enumIncludes yaml entries = .ok includes →
        NamedElement.headerFile (interfaceOf n) "common" ∈ includes
  expanded : RendersLocal inflection n → ∀ name, name ≠ [] →
    replace selfDot (name ++ ".".toList) n.text = ['.'].intercalate (name :: n.others) ∧
    tupleHeaders (some name) (TypeTree.enum n).tuple =
      .ok [NamedElement.headerFile (interfaceIn name n) "common"] ∧
    ∀ typeName, Printed t typeName →
      ∃ headers, enumHeaders yaml (some typeName) (some name) = .ok headers ∧
        NamedElement.headerFile (interfaceIn name n) "common" ∈ headers

theorem included_local (hn : n ∈ enums t) (h : n.first = self)
    (habsent : ¬ selfDot <:+: later n) : Included yaml inflection t n := by
  have hin : selfDot <:+: n.text := ((first_self_iff n).mp h).isInfix
  refine ⟨iff_of_true (renders_iff.mpr h) (treated_iff.mpr hin),
    fun hno => absurd (renders_iff.mpr h) hno, fun _ name hname => ?_⟩
  have hexpand := (expand_iff name h).mpr (.inl habsent)
  have hheader : enumHeader (some name) n.text =
      [NamedElement.headerFile (interfaceIn name n) "common"] := by
    rw [enumHeader_some hin hname, hexpand, parentName_dotted]
    rfl
  refine ⟨hexpand, ?_, fun typeName ht => ?_⟩
  · rw [tupleHeaders_tuple, enums, List.flatMap_singleton, hheader]
  · obtain ⟨headers, hok, hmem⟩ := header_mem ht hn
    exact ⟨headers, hok, hmem _ (by simp [hheader])⟩

theorem included_nonlocal (hn : n ∈ enums t) (h : n.first ≠ self)
    (habsent : ¬ selfDot <:+: n.text) : Included yaml inflection t n := by
  have hno : ¬ RendersLocal inflection n := fun hr => h (renders_iff.mp hr)
  refine ⟨iff_of_false hno (fun htreated => habsent (treated_iff.mp htreated)),
    fun _ typeName ht => ?_, fun hr => absurd hr hno⟩
  have hheaders : ∀ interface, ∃ headers,
      enumHeaders yaml (some typeName) interface = .ok headers ∧
        NamedElement.headerFile (interfaceOf n) "common" ∈ headers := by
    intro interface
    have hheader : enumHeader interface n.text =
        [NamedElement.headerFile (interfaceOf n) "common"] := by
      rw [enumHeader_of_absent habsent, DottedName.text, parentName_dotted]
      rfl
    obtain ⟨headers, hok, hmem⟩ := header_mem ht hn
    exact ⟨headers, hok, hmem _ (by rw [hheader]; exact List.mem_cons_self)⟩
  refine ⟨hheaders, fun entries includes he hincludes => ?_⟩
  obtain ⟨headers, hok, hin⟩ := hheaders none
  exact includes_mem hincludes he hok _ hin

theorem included_iff (hn : n ∈ enums t) : Included yaml inflection t n ↔ LeadingOnly n.text := by
  by_cases h : n.first = self
  · rw [leadingOnly_local h]
    refine ⟨fun hincluded => ?_, included_local hn h⟩
    have hexpanded := hincluded.expanded (renders_iff.mpr h) ['x'] (by simp)
    exact ((expand_iff ['x'] h).mp hexpanded.1).resolve_right (by simp [self])
  · rw [leadingOnly_nonlocal h]
    refine ⟨fun hincluded hin => h ?_, included_nonlocal hn h⟩
    exact renders_iff.mp (hincluded.agree.mpr (treated_iff.mpr hin))

/-- The headers are complete exactly for types with "self." in front of names only. -/
theorem enums_included_iff (yaml : PyYaml) (inflection : Inflection) (t : TypeTree) :
    (∀ n ∈ enums t, Included yaml inflection t n) ↔ ∀ n ∈ enums t, LeadingOnly n.text :=
  forall₂_congr fun _ hn => included_iff hn

def myselfE : DottedName where
  first := "a".toList
  others := ["myself".toList, "E".toList]
  dotted := by simp
  identifiers := by
    simp only [List.forall_mem_cons]
    exact ⟨⟨'a', [], rfl, rfl, by simp⟩, ⟨'m', "yself".toList, rfl, rfl, by simp⟩,
      ⟨'E', [], rfl, rfl, by simp⟩, by simp⟩

/-- A reference to a.myself.E has that interface in its C++ name and no header. -/
theorem myself_without_header :
    parseCppType wordsOnly asciiOnly (some "enum[a.myself.E]".toList) =
      .ok (some "sdbusplus::<NONLOCAL_ENUM>::a::Myself::E".toList) ∧
    enumHeaders wordsOnly (some "enum[a.myself.E]".toList) none = .ok [] ∧
    ¬ ∀ t, ∀ n ∈ enums t, Included wordsOnly asciiOnly t n := by
  have hprinted : Printed (.enum myselfE) "enum[a.myself.E]".toList :=
    printed_print 0 0 (.enum myselfE)
  have hnot : ¬ LeadingOnly myselfE.text := by
    intro hlead
    cases hlead "a.my".toList ['E'] rfl
  refine ⟨?_, ?_, fun hall => ?_⟩
  · rw [parse_printed hprinted]
    rfl
  · rw [enumHeaders_printed hprinted, enums, List.flatMap_singleton, enumHeader_none]
    exact ⟨"a.my".toList, ['E'], rfl⟩
  · exact hnot ((included_iff List.mem_cons_self).mp (hall (.enum myselfE) _ List.mem_cons_self))

end Sdbusplus.Proofs.EnumHeaders
