import Sdbusplus.Proofs.Replace

namespace Sdbusplus.Proofs.ErrorReferences
open Replacement Tools.Property Replace

variable {name error e interface part : Text}

/-! ## What a reference means -/

/-- The reference with the interface for a leading "self". -/
def leading (name error : Text) : Text :=
  if selfDot.isPrefixOf error then name ++ ".".toList ++ error.drop selfDot.length else error

/-- The reference is to the error of this name in the old style. -/
def Legacy (e interface part : Text) : Prop :=
  e = interface ++ ".Error.".toList ++ part ∧ '.' ∉ part

/-- A name of the interface as a directory. -/
def directory (interface : Text) : Text := join "/" (interface.splitOn '.')

def qualified (name : Text) : Text := join "::" (name.splitOn '.')

/-- The class is in the namespace of the events, which is the one of event.hpp. -/
def EventClass (e cls : Text) : Prop := cls = "sdbusplus::error::".toList ++ qualified e

/-- The class is in the namespace of the interface's errors, which is the one of error.hpp. -/
def LegacyClass (e cls : Text) : Prop :=
  ∃ interface part, Legacy e interface part ∧
    cls = "sdbusplus::".toList ++ qualified interface ++ "::Error::".toList ++ part

/-- The reference leads to a class of the header that is included for it. -/
structure Resolves (name error : Text) : Prop where
  expansion : Interface.expandSelf name error = leading name error
  event : directory (parentName (leading name error)) ++ "/event.hpp".toList ∈
      Interface.errorIncludes name [error] ↔
    EventClass (leading name error) (Interface.errorNamespacedClass name error)
  legacy : (∃ header ∈ Interface.errorIncludes name [error], "/error.hpp".toList <:+ header) ↔
    LegacyClass (leading name error) (Interface.errorNamespacedClass name error)
  header : ∀ interface part, Legacy (leading name error) interface part →
    directory interface ++ "/error.hpp".toList ∈ Interface.errorIncludes name [error]
  others : ∀ errors, error ∈ errors → ∀ header ∈ Interface.errorIncludes name [error],
    header ∈ Interface.errorIncludes name errors

/-! ## Expansion -/

theorem expandSelf_iff :
    Interface.expandSelf name error = leading name error ↔ name = self ∨ LeadingOnly error := by
  rw [Interface.expandSelf, leading]
  by_cases h : selfDot <+: error
  · obtain ⟨tail, rfl⟩ := h
    rw [if_pos (by simp), List.drop_left, leadingOnly_front, or_comm]
    exact expand_front_iff
  · rw [if_neg (by simpa using h), leadingOnly_other h]
    have hne : selfDot ≠ [] := by simp [selfDot]
    have hiff := (@replaced_replace selfDot (name ++ ".".toList) error hne).self_iff hne
    refine hiff.trans (or_comm.trans (or_congr_left ⟨self_of_dot, fun hname => ?_⟩))
    rw [hname]
    rfl

/-! ## Components -/

theorem last_dot (h : '.' ∈ e) : ∃ a b, e = a ++ '.' :: b ∧ '.' ∉ b := by
  obtain ⟨b, a, hrev, hb⟩ := List.eq_append_cons_of_mem (List.mem_reverse.mpr h)
  refine ⟨a.reverse, b.reverse, ?_, by simpa using hb⟩
  rw [← List.reverse_reverse e, hrev]
  simp

theorem splitOn_last {a b : Text} (hb : '.' ∉ b) :
    (a ++ '.' :: b).splitOn '.' = a.splitOn '.' ++ [b] := by
  rw [List.splitOn_append_cons_self, List.splitOn_eq_singleton hb]

theorem directory_parent (e : Text) :
    directory (parentName e) = join "/" (e.splitOn '.').dropLast := by
  by_cases h : '.' ∈ e
  · obtain ⟨a, b, rfl, hb⟩ := last_dot h
    rw [parentName_append hb, splitOn_last hb, List.dropLast_concat]
    rfl
  · rw [parentName, List.splitOn_eq_singleton h]
    rfl

theorem legacy_text {interface part : Text} :
    interface ++ ".Error.".toList ++ part =
      interface ++ '.' :: ("Error".toList ++ '.' :: part) := by
  simp

theorem splitOn_legacy (h : Legacy e interface part) :
    e.splitOn '.' = interface.splitOn '.' ++ ["Error".toList, part] := by
  obtain ⟨rfl, hpart⟩ := h
  have herror : "Error".toList.splitOn '.' = ["Error".toList] :=
    List.splitOn_eq_singleton (by simp)
  rw [legacy_text, List.splitOn_append_cons_self, splitOn_last hpart, herror]
  rfl

theorem Legacy.dotted (h : Legacy e interface part) : ".Error.".toList <:+: e :=
  ⟨interface, part, h.1.symm⟩

theorem error_of_dotted (h : ".Error.".toList <:+: e) : ".Error".toList <:+: e :=
  List.IsInfix.trans ⟨[], ['.'], rfl⟩ h

theorem join_concat (sep : String) {parts : List Text} (hparts : parts ≠ []) (a b : Text) :
    join sep (parts ++ [a, b]) = join sep parts ++ sep.toList ++ a ++ sep.toList ++ b := by
  induction parts with
  | nil => exact absurd rfl hparts
  | cons c cs ih =>
    by_cases hcs : cs = []
    · simp [join, hcs, List.intercalate_cons_cons]
    · have htail := ih hcs
      rw [join, join] at htail ⊢
      rw [List.cons_append, List.intercalate_cons_of_ne_nil (by simp), htail,
        List.intercalate_cons_of_ne_nil hcs]
      simp

/-! ## Headers and classes -/

theorem errorIncludes_self {header : Text} :
    header ∈ Interface.errorIncludes name [error] ↔ header = Interface.errorInclude name error := by
  rw [Interface.errorIncludes, mem_sortedSet, List.map_singleton, List.mem_singleton]

theorem errorInclude_dotted (he : Interface.expandSelf name error = e)
    (h : ".Error.".toList <:+: e) : Interface.errorInclude name error =
      join "/" (e.splitOn '.').dropLast.dropLast ++ "/error.hpp".toList := by
  rw [Interface.errorInclude, he, if_pos (contains_iff.mpr h)]

theorem errorInclude_plain (he : Interface.expandSelf name error = e)
    (h : ¬ ".Error.".toList <:+: e) : Interface.errorInclude name error =
      directory (parentName e) ++ "/event.hpp".toList := by
  rw [Interface.errorInclude, he, if_neg (fun hc => h (contains_iff.mp hc)), directory_parent]

theorem event_suffix {a b : Text} : a ++ "/event.hpp".toList ≠ b ++ "/error.hpp".toList := by
  intro h
  have hsuffix := List.append_inj_right' h (by simp)
  simp at hsuffix

theorem event_header_iff (he : Interface.expandSelf name error = e) :
    directory (parentName e) ++ "/event.hpp".toList = Interface.errorInclude name error ↔
      ¬ ".Error.".toList <:+: e := by
  by_cases h : ".Error.".toList <:+: e
  · rw [errorInclude_dotted he h]
    exact iff_of_false event_suffix (fun hno => hno h)
  · rw [errorInclude_plain he h]
    exact iff_of_true rfl h

theorem error_header_iff (he : Interface.expandSelf name error = e) :
    "/error.hpp".toList <:+ Interface.errorInclude name error ↔ ".Error.".toList <:+: e := by
  by_cases h : ".Error.".toList <:+: e
  · rw [errorInclude_dotted he h]
    exact iff_of_true (List.suffix_append _ _) h
  · rw [errorInclude_plain he h]
    refine iff_of_false ?_ h
    rintro ⟨b, hb⟩
    exact event_suffix hb.symm

theorem class_eq (he : Interface.expandSelf name error = e) :
    Interface.errorNamespacedClass name error = "sdbusplus::".toList ++
      qualified (if contains e ".Error".toList then e else "error.".toList ++ e) := by
  subst he
  rfl

theorem class_with_error (he : Interface.expandSelf name error = e)
    (h : ".Error".toList <:+: e) :
    Interface.errorNamespacedClass name error = "sdbusplus::".toList ++ qualified e := by
  rw [class_eq he, if_pos (contains_iff.mpr h)]

theorem qualified_error (e : Text) :
    qualified ("error.".toList ++ e) = "error".toList ++ "::".toList ++ qualified e := by
  have hdot : '.' ∉ "error".toList := by simp
  have hsplit : ("error.".toList ++ e).splitOn '.' = "error".toList :: e.splitOn '.' :=
    List.splitOn_append_cons_self_of_not_mem hdot e
  rw [qualified, hsplit, join, List.intercalate_cons_of_ne_nil (List.splitOn_ne_nil _ _)]
  rfl

theorem class_without_error (he : Interface.expandSelf name error = e)
    (h : ¬ ".Error".toList <:+: e) :
    EventClass e (Interface.errorNamespacedClass name error) := by
  rw [EventClass, class_eq he, if_neg (fun hc => h (contains_iff.mp hc)), qualified_error]
  simp

theorem event_class_iff (he : Interface.expandSelf name error = e) :
    EventClass e (Interface.errorNamespacedClass name error) ↔ ¬ ".Error".toList <:+: e := by
  refine ⟨fun hclass h => ?_, class_without_error he⟩
  have hlen := congrArg List.length ((class_with_error he h).symm.trans hclass)
  simp only [List.length_append] at hlen
  revert hlen
  simp

theorem legacy_class_iff (he : Interface.expandSelf name error = e) :
    LegacyClass e (Interface.errorNamespacedClass name error) ↔
      ∃ interface part, Legacy e interface part := by
  refine ⟨fun ⟨interface, part, h, _⟩ => ⟨interface, part, h⟩, fun ⟨interface, part, h⟩ => ?_⟩
  have hjoin := join_concat "::" (List.splitOn_ne_nil '.' interface) "Error".toList part
  refine ⟨interface, part, h, ?_⟩
  rw [class_with_error he (error_of_dotted h.dotted), qualified, splitOn_legacy h, hjoin]
  simp [qualified]

theorem legacy_header (he : Interface.expandSelf name error = e) (h : Legacy e interface part) :
    Interface.errorInclude name error = directory interface ++ "/error.hpp".toList := by
  rw [errorInclude_dotted he h.dotted, splitOn_legacy h, List.dropLast_append_of_ne_nil (by simp)]
  simp [directory]

/-- A reference leads to the included header exactly if "self." is at most its front, and ".Error"
is not in it or is, with a dot after it, what stands before the last component. -/
theorem resolves_iff (name error : Text) :
    Resolves name error ↔ (name = self ∨ LeadingOnly error) ∧
      (¬ ".Error".toList <:+: leading name error ∨
        ∃ interface part, Legacy (leading name error) interface part) := by
  rw [← expandSelf_iff]
  refine ⟨fun h => ⟨h.expansion, ?_⟩, fun ⟨he, h⟩ => ?_⟩
  · have hevent := h.event
    have hlegacy := h.legacy
    rw [errorIncludes_self, event_header_iff h.expansion, event_class_iff h.expansion] at hevent
    simp only [errorIncludes_self, exists_eq_left, error_header_iff h.expansion,
      legacy_class_iff h.expansion] at hlegacy
    by_cases herror : ".Error".toList <:+: leading name error
    · exact .inr (hlegacy.mp (not_not.mp (fun hno => hevent.mp hno herror)))
    · exact .inl herror
  · refine ⟨he, ?_, ?_, fun interface part hl => ?_, fun errors hmem header hheader => ?_⟩
    · rw [errorIncludes_self, event_header_iff he, event_class_iff he]
      refine not_congr ⟨error_of_dotted, fun herror => ?_⟩
      obtain ⟨interface, part, hl⟩ := h.resolve_left (fun hno => hno herror)
      exact hl.dotted
    · simp only [errorIncludes_self, exists_eq_left, error_header_iff he, legacy_class_iff he]
      refine ⟨fun hdotted => ?_, fun ⟨interface, part, hl⟩ => hl.dotted⟩
      exact h.resolve_left (fun hno => hno (error_of_dotted hdotted))
    · rw [errorIncludes_self, legacy_header he hl]
    · rw [errorIncludes_self] at hheader
      rw [hheader, Interface.errorIncludes, mem_sortedSet]
      exact List.mem_map_of_mem hmem

/-- A class of an event whose name begins with "Error" is looked for outside the namespace that
its header has it in, and "self." is expanded in the middle of a reference. -/
theorem references_without_class :
    Interface.errorIncludes "x.I".toList ["a.b.ErrorXyz".toList] = ["a/b/event.hpp".toList] ∧
    Interface.errorNamespacedClass "x.I".toList "a.b.ErrorXyz".toList =
      "sdbusplus::a::b::ErrorXyz".toList ∧
    Interface.errorNamespacedClass "x.I".toList "a.myself.E".toList =
      "sdbusplus::error::a::myx::I::E".toList ∧
    ¬ ∀ name error, Resolves name error := by
  have hinclude : Interface.errorInclude "x.I".toList "a.b.ErrorXyz".toList =
      "a/b/event.hpp".toList := by decide +kernel
  refine ⟨?_, by decide +kernel, by decide +kernel, fun h => ?_⟩
  · rw [Interface.errorIncludes, List.map_singleton, hinclude, sortedSet,
      List.Nodup.dedup (List.nodup_singleton _), List.mergeSort_singleton]
  · have hself : "x.I".toList = self ∨ LeadingOnly "a.myself.E".toList :=
      ((resolves_iff _ _).mp (h "x.I".toList "a.myself.E".toList)).1
    obtain hname | hlead := hself
    · revert hname
      decide +kernel
    · cases hlead "a.my".toList ['E'] rfl

end Sdbusplus.Proofs.ErrorReferences
