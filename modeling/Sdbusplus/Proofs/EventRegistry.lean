import Sdbusplus.Base.Traverse
import Sdbusplus.Proofs.Property
import Sdbusplus.Proofs.Replace
import Sdbusplus.Tools.EventRegistry

namespace Sdbusplus.Proofs.EventRegistry
open Replacement Traverse Tools.Property Tools.EventRegistry TypeNames Property Replace

variable {yaml : PyYaml} {inflection : Inflection} {t : TypeTree} {typeName interface name : Text}
  {n : ElementDefinition} {m : MetadataDefinition} {e : EventElement} {x : EventMetadata}

/-! ## Flags -/

/-- Every flag is one of the generator's. -/
def Known : Flags → Prop
  | .items flags => ∀ flag ∈ flags, ∃ entry ∈ flagsDict, flag = .str entry.1.toList
  | .notIterable => False

theorem cppFlag_ok {flag : Flag} :
    (∃ r, cppFlag flag = .ok r) ↔ ∃ entry ∈ flagsDict, flag = .str entry.1.toList := by
  cases flag with
  | str text =>
    rw [cppFlag]
    split
    case h_1 entry hfind =>
      have hname : entry.1.toList = text := by simpa using List.find?_some hfind
      exact iff_of_true ⟨_, rfl⟩ ⟨entry, List.mem_of_find?_eq_some hfind, by rw [hname]⟩
    case h_2 hfind =>
      refine iff_of_false nofun ?_
      rintro ⟨entry, hmem, hflag⟩
      have hnot := List.find?_eq_none.mp hfind entry hmem
      simp only [Flag.str.injEq] at hflag
      simp [hflag] at hnot
  | other text => exact iff_of_false nofun nofun
  | unhashable => exact iff_of_false nofun nofun

theorem orCppFlags_ok {flags : Flags} : (∃ r, orCppFlags flags = .ok r) ↔ Known flags := by
  cases flags with
  | items flags =>
    rw [Known, ← forall₂_congr fun _ _ => cppFlag_ok, ← mapM_ok]
    refine ⟨fun ⟨r, hr⟩ => ?_, fun ⟨cppFlags, h⟩ => ⟨_, bind_ok.mpr ⟨cppFlags, h, rfl⟩⟩⟩
    obtain ⟨cppFlags, h, -⟩ := bind_ok.mp hr
    exact ⟨cppFlags, h⟩
  | notIterable => exact iff_of_false nofun id

/-! ## Construction -/

theorem callWith_ok {keys : List Text} : callWith keys = .ok () ↔ "self".toList ∉ keys := by
  unfold callWith
  split
  case isTrue h => exact iff_of_false nofun (fun hno => hno h)
  case isFalse h => exact iff_of_true rfl h

theorem mapError_ok {α ε ε' : Type} {f : ε → ε'} {x : Except ε α} {a : α} :
    x.mapError f = .ok a ↔ x = .ok a := by
  cases x <;> simp [Except.mapError]

/-- What is made of a metadata entry whose type is a written one. -/
theorem constructMetadata_iff (h : Printed t m.type) :
    constructMetadata yaml inflection m = .ok x ↔ "self".toList ∉ m.others ∧
      ∃ cppFlags, orCppFlags m.flags = .ok cppFlags ∧
        x = ⟨m.name, some m.type, some (t.cppType inflection), cppFlags, m.primary⟩ := by
  unfold constructMetadata
  simp only [bind_ok, mapError_ok, parse_printed h]
  refine ⟨fun ⟨_, hcall, _, hparse, cppFlags, hflags, hx⟩ => ?_,
    fun ⟨hself, cppFlags, hflags, hx⟩ => ?_⟩
  · obtain rfl := Except.ok.inj hparse
    exact ⟨callWith_ok.mp hcall, cppFlags, hflags, (Except.ok.inj hx).symm⟩
  · exact ⟨(), callWith_ok.mpr hself, _, rfl, cppFlags, hflags, by rw [hx]; rfl⟩

theorem constructMetadata_ok (h : Printed t m.type) :
    (∃ x, constructMetadata yaml inflection m = .ok x) ↔
      "self".toList ∉ m.others ∧ Known m.flags := by
  simp only [constructMetadata_iff h, ← orCppFlags_ok]
  refine ⟨fun ⟨_, hself, cppFlags, hflags, _⟩ => ⟨hself, cppFlags, hflags⟩,
    fun ⟨hself, cppFlags, hflags⟩ => ⟨_, hself, cppFlags, hflags, rfl⟩⟩

theorem constructLanguages_ok : (∃ l, constructLanguages n = .ok l) ↔
    ∀ l, n.en = some l → "self".toList ∉ l.others := by
  rw [constructLanguages.eq_def]
  obtain ⟨hmap, hen⟩ | ⟨c, cs, hmap, hen⟩ := n.oneOf
  · obtain ⟨l, hl⟩ := Option.ne_none_iff_exists'.mp hen
    simp only [hmap, hl, constructLanguage, bind_ok, Option.some.injEq, forall_eq', ← callWith_ok]
    refine ⟨fun ⟨_, _, hcall, _⟩ => hcall, fun hcall => ⟨_, (), hcall, rfl⟩⟩
  · simp only [hmap, hen]
    exact iff_of_true ⟨_, rfl⟩ nofun

theorem constructElement_iff : constructElement yaml inflection n = .ok e ↔
    ∃ language metadata, constructLanguages n = .ok language ∧
      List.Forall₂ (fun m x => constructMetadata yaml inflection m = .ok x) n.metadata metadata ∧
      e = ⟨n.name, n.redfishMapping, language, metadata,
        registrySeverity (n.severity.getD .informational)⟩ := by
  unfold constructElement
  simp only [bind_ok, mapM_iff]
  refine ⟨fun ⟨language, hl, metadata, hm, he⟩ =>
      ⟨language, metadata, hl, hm, (Except.ok.inj he).symm⟩,
    fun ⟨language, metadata, hl, hm, he⟩ => ⟨language, hl, metadata, hm, by rw [he]; rfl⟩⟩

/-- A document of which the types are written ones. -/
structure Document where
  definition : EventsDefinition
  typed : ∀ n ∈ definition.errors ++ definition.events, ∀ m ∈ n.metadata, ∃ t, Printed t m.type

theorem constructElement_ok (h : ∀ m ∈ n.metadata, ∃ t, Printed t m.type) :
    (∃ e, constructElement yaml inflection n = .ok e) ↔
      (∀ l, n.en = some l → "self".toList ∉ l.others) ∧
        ∀ m ∈ n.metadata, "self".toList ∉ m.others ∧ Known m.flags := by
  have hmetadata : (∀ m ∈ n.metadata, ∃ x, constructMetadata yaml inflection m = .ok x) ↔
      ∀ m ∈ n.metadata, "self".toList ∉ m.others ∧ Known m.flags := by
    refine forall₂_congr fun m hm => ?_
    obtain ⟨t, ht⟩ := h m hm
    exact constructMetadata_ok ht
  rw [← constructLanguages_ok, ← hmetadata, ← exists_forall₂]
  simp only [constructElement_iff]
  refine ⟨fun ⟨_, language, metadata, hl, hm, _⟩ => ⟨⟨language, hl⟩, metadata, hm⟩,
    fun ⟨⟨language, hl⟩, metadata, hm⟩ => ⟨_, language, metadata, hl, hm, rfl⟩⟩

/-- The elements of the event are made of the ones of the document. -/
theorem construct_iff {y : EventsDefinition} {event : Event} :
    construct yaml inflection name y = .ok event ↔ "self".toList ∉ y.others ∧
      List.Forall₂ (fun n e => constructElement yaml inflection n = .ok e) y.errors event.errors ∧
      List.Forall₂ (fun n e => constructElement yaml inflection n = .ok e) y.events event.events ∧
      event.name = name ∧ event.version = y.version := by
  unfold construct
  simp only [bind_ok, mapM_iff, ← callWith_ok]
  refine ⟨fun ⟨_, hcall, errors, herrors, events, hevents, h⟩ => ?_,
    fun ⟨hcall, herrors, hevents, hname, hversion⟩ => ?_⟩
  · obtain rfl := Except.ok.inj h
    exact ⟨hcall, herrors, hevents, rfl, rfl⟩
  · refine ⟨(), hcall, event.errors, herrors, event.events, hevents, ?_⟩
    rw [← hname, ← hversion]
    rfl

theorem construct_ok (d : Document) :
    (∃ event, construct yaml inflection name d.definition = .ok event) ↔
      "self".toList ∉ d.definition.others ∧
      ∀ n ∈ d.definition.errors ++ d.definition.events,
        (∀ l, n.en = some l → "self".toList ∉ l.others) ∧
          ∀ m ∈ n.metadata, "self".toList ∉ m.others ∧ Known m.flags := by
  have helements := forall₂_congr fun n hn => @constructElement_ok yaml inflection n (d.typed n hn)
  rw [← helements, List.forall_mem_append, ← exists_forall₂, ← exists_forall₂]
  simp only [construct_iff]
  refine ⟨fun ⟨event, hself, herrors, hevents, _⟩ => ⟨hself, ⟨_, herrors⟩, ⟨_, hevents⟩⟩,
    fun ⟨hself, ⟨errors, herrors⟩, ⟨events, hevents⟩⟩ =>
      ⟨⟨name, d.definition.version, errors, events⟩, hself, herrors, hevents, rfl, rfl⟩⟩

/-! ## Types -/

/-- The types that have a registryName. -/
def Named : TypeTree → Prop
  | .base b => b ∈ [.int64, .uint64, .size, .double, .string, .objectPath]
  | .enum _ => True
  | .container _ _ _ _ => False

/-- The name that comes first in a type. -/
def head : TypeTree → Text
  | .base b => b.name.toList
  | .enum _ => "enum".toList
  | .container c _ _ _ => c.name.toList

theorem tuple_head (t : TypeTree) : ∃ ds, t.tuple = .mk (some (head t)) ds := by
  cases t with
  | base b => exact ⟨_, rfl⟩
  | enum n => exact ⟨_, rfl⟩
  | container c k takes members => exact ⟨_, rfl⟩

theorem getItem_head (t : TypeTree) : ∃ entry, getItem (some (head t)) = .ok entry := by
  cases t with
  | base b => exact ⟨_, getItem_base b⟩
  | enum n => exact ⟨_, getItem_enum⟩
  | container c k takes members => exact ⟨_, getItem_container c⟩

def registryName (t : TypeTree) : Option (String × String) :=
  registryNames.find? (fun entry => some entry.1.toList = some (head t))

theorem registryName_iff (t : TypeTree) : (∃ entry, registryName t = some entry) ↔ Named t := by
  cases t with
  | base b => cases b <;> simp [registryName, registryNames, head, BaseType.name, Named]
  | enum n => exact iff_of_true ⟨_, rfl⟩ trivial
  | container c k takes members =>
    cases c <;> simp [registryName, registryNames, head, Container.name, Named]

theorem registryType_printed (h : Printed t typeName) :
    registryType yaml (some typeName) =
      match registryName t with
      | some entry => .ok entry.2
      | none => .error (.keyError (some "registryName".toList)) := by
  obtain ⟨ds, htuple⟩ := tuple_head t
  obtain ⟨entry, hentry⟩ := getItem_head t
  rw [registryType]
  · rw [read_printed h, htuple]
    simp only [bind, Except.bind, hentry]
    rfl
  · exact h.ne_nil

theorem registryType_ok (h : Printed t typeName) :
    (∃ r, registryType yaml (some typeName) = .ok r) ↔ Named t := by
  rw [registryType_printed h, ← registryName_iff]
  cases registryName t with
  | none => exact iff_of_false nofun nofun
  | some entry => exact iff_of_true ⟨_, rfl⟩ ⟨entry, rfl⟩

/-! ## Messages -/

theorem schemaName_letters (h : SchemaName name) {c : Char} (hc : c ∈ name) :
    c.isAlphanum = true ∨ c = '\n' := by
  obtain ⟨valid, ⟨d, ds, rfl, hd, hds⟩, htail⟩ := h
  have hfirst : (d.isUpper || d.isLower || d.isDigit) = true := by simp [hd]
  have hvalid : ∀ c ∈ d :: ds, c.isAlphanum = true := List.forall_mem_cons.mpr ⟨hfirst, hds⟩
  obtain rfl | rfl := htail
  · exact .inl (hvalid c hc)
  · obtain hc | hc := List.mem_append.mp hc
    · exact .inl (hvalid c hc)
    · exact .inr (List.mem_singleton.mp hc)

theorem placeholder_placeholder (h : SchemaName name) :
    Placeholder '{' '}' '%' (placeholder name) := by
  have hnot : ∀ c : Char, c.isAlphanum = false → c ≠ '\n' → c ∉ name := by
    intro c hletter hline hmem
    obtain hc | hc := schemaName_letters h hmem
    · rw [hletter] at hc
      cases hc
    · exact hline hc
  exact ⟨name, rfl, hnot _ rfl (by simp), hnot _ rfl (by simp), hnot _ rfl (by simp)⟩

theorem argument_marked (i : Nat) : Marked '{' '%' (argument i) := by
  refine ⟨Nat.toDigits 10 (i + 1), rfl, fun hmem => ?_⟩
  obtain hc | hc := List.mem_cons.mp hmem
  · simp at hc
  · have hdigit := Nat.isDigit_of_mem_toDigits (by omega) (by omega) hc
    simp [Char.isDigit] at hdigit

/-- What each argument has for its placeholder, with its position. -/
def rules (args : List EventMetadata) : List (Text × Text) :=
  args.zipIdx.map (fun arg => (placeholder arg.1.name, argument arg.2))

theorem filled_foldl {rules : List (Text × Text)}
    (h : ∀ q ∈ rules, Placeholder '{' '}' '%' q.1 ∧ Marked '{' '%' q.2) (text : Text) :
    Filled rules text (rules.foldl (fun message q => replace q.1 q.2 message) text) := by
  induction rules generalizing text with
  | nil => exact .without_rules text
  | cons q rules ih =>
    obtain ⟨⟨hplace, hmark⟩, hrules⟩ := List.forall_mem_cons.mp h
    exact Filled.of_replaced (by simp) (by simp) hplace hmark (fun q hq => (hrules q hq).1)
      (replaced_replace hplace.ne_nil) (ih hrules _)

theorem registryMessage_filled {args : List EventMetadata}
    (h : ∀ x ∈ args, SchemaName x.name) (message : Text) :
    Filled (rules args) message (registryMessage args message) := by
  have hrules : ∀ q ∈ rules args, Placeholder '{' '}' '%' q.1 ∧ Marked '{' '%' q.2 := by
    intro q hq
    obtain ⟨arg, harg, rfl⟩ := List.mem_map.mp hq
    exact ⟨placeholder_placeholder (h _ (List.fst_mem_of_mem_zipIdx harg)), argument_marked _⟩
  have hfill := filled_foldl hrules message
  rwa [rules, List.foldl_map] at hfill

/-! ## The registry -/

/-- The element has a message of its own in the registry. -/
def Generated (e : EventElement) : Prop := ∀ c cs, e.redfishMap ≠ some (c :: cs)

/-- What the registry has of an element. -/
structure Described (yaml : PyYaml) (inflection : Inflection) (interface : Text)
    (e : EventElement) : Prop where
  types : ∀ x ∈ registryArgs e, ∃ r, registryType yaml x.typeName = .ok r
  event : ∃ r, registryEvent yaml inflection interface e = .ok r ∧
    r.numberOfArgs = (registryArgs e).length ∧ r.paramTypes.length = r.numberOfArgs ∧
    r.args.length = r.numberOfArgs ∧
    Filled (rules (registryArgs e)) e.language.message r.message

/-- The messages are those of the elements, and each has one under its name. -/
structure Collected (yaml : PyYaml) (inflection : Inflection) (interface : Text)
    (es : List EventElement) (messages : List (Text × RegistryEvent)) : Prop where
  source : ∀ item ∈ messages, ∃ e ∈ es, Generated e ∧ item.1 = e.name ∧
    registryEvent yaml inflection interface e = .ok item.2
  complete : ∀ e ∈ es, Generated e → ∃ item ∈ messages, item.1 = e.name

/-- The document is made an event, and the event a registry, with all that is to be in it. -/
def Produces (yaml : PyYaml) (inflection : Inflection) (name : Text) (year : Nat)
    (d : Document) : Prop :=
  ∃ event, construct yaml inflection name d.definition = .ok event ∧
    (∀ e ∈ event.errors ++ event.events, Described yaml inflection name e) ∧
    ∃ registry, exceptionRegistry yaml inflection year event = .ok registry ∧
      Collected yaml inflection name (event.errors ++ event.events) registry.messages

theorem registryEvent_iff {r : RegistryEvent} :
    registryEvent yaml inflection interface e = .ok r ↔ ∃ paramTypes args,
      List.Forall₂ (fun x r => registryType yaml x.typeName = .ok r) (registryArgs e) paramTypes ∧
      registryArgsMapping inflection interface e = .ok args ∧
      r = ⟨e.language.description.filter (fun d => d ≠ []),
        registryMessage (registryArgs e) e.language.message, registryResolution e.language,
        e.registrySev, (registryArgs e).length, paramTypes, interface ++ ".".toList ++ e.name,
        args⟩ := by
  unfold registryEvent
  simp only [bind_ok, mapM_iff]
  refine ⟨fun ⟨paramTypes, hp, args, ha, hr⟩ => ⟨paramTypes, args, hp, ha, (Except.ok.inj hr).symm⟩,
    fun ⟨paramTypes, args, hp, ha, hr⟩ => ⟨paramTypes, hp, args, ha, by rw [hr]; rfl⟩⟩

theorem registryArgsMapping_length {args : List (Text × Text)}
    (h : registryArgsMapping inflection interface e = .ok args) :
    args.length = (registryArgs e).length :=
  (mapM_iff.mp h).length_eq.symm

theorem registryArgsMapping_ok (h : ∀ x ∈ registryArgs e, ∃ r, x.cppTypeName = some r) :
    ∃ args, registryArgsMapping inflection interface e = .ok args := by
  refine mapM_ok.mpr fun x hx => ?_
  obtain ⟨r, hr⟩ := h x hx
  rw [hr]
  exact ⟨_, rfl⟩

theorem described_of_types (hnames : ∀ x ∈ registryArgs e, SchemaName x.name)
    (hcpp : ∀ x ∈ registryArgs e, ∃ r, x.cppTypeName = some r)
    (htypes : ∀ x ∈ registryArgs e, ∃ r, registryType yaml x.typeName = .ok r) :
    Described yaml inflection interface e := by
  obtain ⟨args, hargs⟩ := @registryArgsMapping_ok inflection interface e hcpp
  obtain ⟨paramTypes, hparams⟩ := exists_forall₂.mpr htypes
  refine ⟨htypes, _, registryEvent_iff.mpr ⟨paramTypes, args, hparams, hargs, rfl⟩, rfl, ?_, ?_, ?_⟩
  · exact hparams.length_eq.symm
  · exact registryArgsMapping_length hargs
  · exact registryMessage_filled hnames _

section dict

variable {α : Type} {key : Text} {value : α} {items : List (Text × α)} {item : Text × α}

theorem setItem_new (items : List (Text × α)) : (key, value) ∈ setItem key value items := by
  induction items with
  | nil => exact List.mem_cons_self
  | cons item items ih =>
    rw [setItem]
    split
    · exact List.mem_cons_self
    · exact List.mem_cons_of_mem item ih

theorem setItem_mem (h : item ∈ setItem key value items) : item = (key, value) ∨ item ∈ items := by
  induction items with
  | nil => exact .inl (List.mem_singleton.mp h)
  | cons first items ih =>
    rw [setItem] at h
    split at h
    · obtain h | h := List.mem_cons.mp h
      · exact .inl h
      · exact .inr (List.mem_cons_of_mem first h)
    · obtain rfl | h := List.mem_cons.mp h
      · exact .inr List.mem_cons_self
      · exact (ih h).imp_right (List.mem_cons_of_mem first)

/-- No key is lost. -/
theorem setItem_keeps (h : item ∈ items) : ∃ later ∈ setItem key value items, later.1 = item.1 := by
  induction items with
  | nil => cases h
  | cons first items ih =>
    rw [setItem]
    split
    case isTrue hkey =>
      obtain rfl | h := List.mem_cons.mp h
      · exact ⟨_, List.mem_cons_self, hkey.symm⟩
      · exact ⟨item, List.mem_cons_of_mem _ h, rfl⟩
    case isFalse hkey =>
      obtain rfl | h := List.mem_cons.mp h
      · exact ⟨item, List.mem_cons_self, rfl⟩
      · obtain ⟨later, hlater, heq⟩ := ih h
        exact ⟨later, List.mem_cons_of_mem _ hlater, heq⟩

end dict

/-- A message that is added replaces at most one of the same name. -/
theorem Collected.set {es : List EventElement} {messages : List (Text × RegistryEvent)}
    {r : RegistryEvent} (h : Collected yaml inflection interface es messages) (he : Generated e)
    (hr : registryEvent yaml inflection interface e = .ok r) :
    Collected yaml inflection interface (es ++ [e]) (setItem e.name r messages) := by
  refine ⟨fun item hitem => ?_, fun f hf hgen => ?_⟩
  · obtain rfl | hitem := setItem_mem hitem
    · exact ⟨e, by simp, he, rfl, hr⟩
    · obtain ⟨f, hf, hfacts⟩ := h.source item hitem
      exact ⟨f, List.mem_append_left [e] hf, hfacts⟩
  · obtain hf | hf := List.mem_append.mp hf
    · obtain ⟨item, hitem, hname⟩ := h.complete f hf hgen
      obtain ⟨later, hlater, heq⟩ := @setItem_keeps _ e.name r _ _ hitem
      exact ⟨later, hlater, heq.trans hname⟩
    · obtain rfl := List.mem_singleton.mp hf
      exact ⟨_, setItem_new messages, rfl⟩

theorem Collected.skip {es : List EventElement} {messages : List (Text × RegistryEvent)}
    (h : Collected yaml inflection interface es messages) (he : ¬ Generated e) :
    Collected yaml inflection interface (es ++ [e]) messages := by
  refine ⟨fun item hitem => ?_, fun f hf hgen => ?_⟩
  · obtain ⟨f, hf, hfacts⟩ := h.source item hitem
    exact ⟨f, List.mem_append_left [e] hf, hfacts⟩
  · obtain hf | hf := List.mem_append.mp hf
    · exact h.complete f hf hgen
    · exact absurd (List.mem_singleton.mp hf ▸ hgen) he

/-- One element of the loop. -/
theorem addElement_collects {es : List EventElement} {t : Tables}
    (h : Collected yaml inflection interface es t.messages)
    (he : Described yaml inflection interface e) :
    ∃ t', addElement yaml inflection interface t e = .ok t' ∧
      Collected yaml inflection interface (es ++ [e]) t'.messages := by
  obtain ⟨r, hr, -⟩ := he.event
  rw [addElement.eq_def]
  split
  case h_3 redfishMap hne hmap =>
    obtain ⟨paramTypes, args, -, hargs, -⟩ := registryEvent_iff.mp hr
    rw [registryMapping, hargs]
    refine ⟨_, rfl, h.skip fun hgen => ?_⟩
    obtain ⟨c, cs, rfl⟩ := List.exists_cons_of_ne_nil (fun hnil => hne hnil)
    exact hgen c cs hmap
  all_goals
    rename_i hmap
    rw [hr]
    exact ⟨_, rfl, h.set (by simp [Generated, hmap]) hr⟩

/-- The whole loop. -/
theorem addElements_collect {es done : List EventElement} {t : Tables}
    (h : Collected yaml inflection interface done t.messages)
    (hes : ∀ e ∈ es, Described yaml inflection interface e) :
    ∃ t', es.foldlM (addElement yaml inflection interface) t = .ok t' ∧
      Collected yaml inflection interface (done ++ es) t'.messages := by
  induction es generalizing done t with
  | nil => exact ⟨t, rfl, by rwa [List.append_nil]⟩
  | cons e es ih =>
    obtain ⟨he, hes⟩ := List.forall_mem_cons.mp hes
    obtain ⟨t₁, ht₁, hcollected⟩ := addElement_collects h he
    obtain ⟨t₂, ht₂, hall⟩ := ih hcollected hes
    refine ⟨t₂, ?_, by rwa [List.append_assoc] at hall⟩
    rw [List.foldlM_cons, ht₁]
    exact ht₂

theorem exceptionRegistry_collects {event : Event} (year : Nat)
    (h : ∀ e ∈ event.errors ++ event.events, Described yaml inflection event.name e) :
    ∃ registry, exceptionRegistry yaml inflection year event = .ok registry ∧
      Collected yaml inflection event.name (event.errors ++ event.events) registry.messages := by
  have hnone : Collected yaml inflection event.name [] [] := ⟨nofun, nofun⟩
  obtain ⟨tables, htables, hall⟩ := addElements_collect (t := ⟨[], []⟩) hnone h
  rw [exceptionRegistry, htables]
  exact ⟨_, rfl, hall⟩

/-! ## Documents -/

/-- Every argument is made of a primary metadata entry. -/
theorem registryArgs_source (htyped : ∀ m ∈ n.metadata, ∃ t, Printed t m.type)
    (hn : constructElement yaml inflection n = .ok e) (hx : x ∈ registryArgs e) :
    ∃ m ∈ n.metadata, m.primary = true ∧ x.name = m.name ∧ x.typeName = some m.type ∧
      ∃ r, x.cppTypeName = some r := by
  obtain ⟨language, metadata, -, hmetadata, rfl⟩ := constructElement_iff.mp hn
  obtain ⟨hx, hprimary⟩ := List.mem_filter.mp hx
  obtain ⟨m, hm, hconstruct⟩ := mem_right hmetadata hx
  obtain ⟨t, ht⟩ := htyped m hm
  obtain ⟨-, cppFlags, -, rfl⟩ := (constructMetadata_iff ht).mp hconstruct
  exact ⟨m, hm, hprimary, rfl, rfl, _, rfl⟩

theorem registryArgs_target (htyped : ∀ m ∈ n.metadata, ∃ t, Printed t m.type)
    (hn : constructElement yaml inflection n = .ok e) (hm : m ∈ n.metadata)
    (hprimary : m.primary = true) : ∃ x ∈ registryArgs e, x.typeName = some m.type := by
  obtain ⟨language, metadata, -, hmetadata, rfl⟩ := constructElement_iff.mp hn
  obtain ⟨x, hx, hconstruct⟩ := mem_left hmetadata hm
  obtain ⟨t, ht⟩ := htyped m hm
  obtain ⟨-, cppFlags, -, rfl⟩ := (constructMetadata_iff ht).mp hconstruct
  exact ⟨_, List.mem_filter.mpr ⟨hx, hprimary⟩, rfl⟩

/-- The type is a written one with a registryName. -/
def HasRegistryName (type : Text) : Prop := ∃ t, Printed t type ∧ Named t

theorem described_iff (htyped : ∀ m ∈ n.metadata, ∃ t, Printed t m.type)
    (hn : constructElement yaml inflection n = .ok e) :
    Described yaml inflection interface e ↔
      ∀ m ∈ n.metadata, m.primary = true → HasRegistryName m.type := by
  refine ⟨fun h m hm hprimary => ?_, fun h => ?_⟩
  · obtain ⟨x, hx, htype⟩ := registryArgs_target htyped hn hm hprimary
    obtain ⟨t, ht⟩ := htyped m hm
    have hok := h.types x hx
    rw [htype] at hok
    exact ⟨t, ht, (registryType_ok ht).mp hok⟩
  · apply described_of_types
    · intro x hx
      obtain ⟨m, -, -, hname, -⟩ := registryArgs_source htyped hn hx
      rw [hname]
      exact m.validName
    · intro x hx
      obtain ⟨m, -, -, -, -, hcpp⟩ := registryArgs_source htyped hn hx
      exact hcpp
    · intro x hx
      obtain ⟨m, hm, hprimary, -, htype, -⟩ := registryArgs_source htyped hn hx
      obtain ⟨t, ht, hnamed⟩ := h m hm hprimary
      rw [htype]
      exact (registryType_ok ht).mpr hnamed

/-- No key is called self, and flags and primary types are ones that the generator knows. -/
structure Supported (y : EventsDefinition) : Prop where
  keys : "self".toList ∉ y.others
  languages : ∀ n ∈ y.errors ++ y.events, ∀ l, n.en = some l → "self".toList ∉ l.others
  metadata : ∀ n ∈ y.errors ++ y.events, ∀ m ∈ n.metadata,
    "self".toList ∉ m.others ∧ Known m.flags
  types : ∀ n ∈ y.errors ++ y.events, ∀ m ∈ n.metadata, m.primary = true → HasRegistryName m.type

/-- A document has a registry with all its arguments exactly if it is supported. -/
theorem registry_iff (yaml : PyYaml) (inflection : Inflection) (name : Text) (year : Nat)
    (d : Document) : Produces yaml inflection name year d ↔ Supported d.definition := by
  have helements {event : Event} (h : construct yaml inflection name d.definition = .ok event) :
      List.Forall₂ (fun n e => constructElement yaml inflection n = .ok e)
        (d.definition.errors ++ d.definition.events) (event.errors ++ event.events) := by
    obtain ⟨-, herrors, hevents, -⟩ := construct_iff.mp h
    exact List.rel_append herrors hevents
  refine ⟨fun h => ?_, fun h => ?_⟩
  · obtain ⟨event, hevent, hdescribed, -⟩ := h
    obtain ⟨hself, hall⟩ := (construct_ok d).mp ⟨event, hevent⟩
    refine ⟨hself, fun n hn => (hall n hn).1, fun n hn => (hall n hn).2, fun n hn => ?_⟩
    obtain ⟨e, he, hconstruct⟩ := mem_left (helements hevent) hn
    exact (described_iff (d.typed n hn) hconstruct).mp (hdescribed e he)
  · obtain ⟨event, hevent⟩ := (@construct_ok yaml inflection name d).mpr
      ⟨h.keys, fun n hn => ⟨h.languages n hn, h.metadata n hn⟩⟩
    have hname : event.name = name := (construct_iff.mp hevent).2.2.2.1
    have hdescribed : ∀ e ∈ event.errors ++ event.events, Described yaml inflection name e := by
      intro e he
      obtain ⟨n, hn, hconstruct⟩ := mem_right (helements hevent) he
      exact (described_iff (d.typed n hn) hconstruct).mpr (h.types n hn)
    rw [← hname] at hdescribed
    obtain ⟨registry, hregistry, hcollected⟩ := exceptionRegistry_collects year hdescribed
    rw [hname] at hdescribed hcollected
    exact ⟨event, hevent, hdescribed, registry, hregistry, hcollected⟩

def ssizeMetadata : MetadataDefinition where
  name := "Size".toList
  type := "ssize".toList
  primary := true
  flags := .items []
  others := []
  validName := ⟨_, ⟨'S', "ize".toList, rfl, rfl, by simp⟩, .inl rfl⟩
  schemaType := .inl ⟨"size", by simp [schemaWords], ['s'], [], rfl⟩

/-- One event that is a message with the metadata in it. -/
def ssizeDocument : Document where
  definition := ⟨"1.0.0".toList, [],
    [⟨"Resized".toList, none, none, some ⟨none, "{Size}".toList, none, []⟩, [ssizeMetadata],
      .inl ⟨rfl, nofun⟩⟩], []⟩
  typed := by
    intro n hn m hm
    obtain rfl := List.mem_singleton.mp hn
    obtain rfl := List.mem_singleton.mp hm
    exact ⟨.base .ssize, printed_print 0 0 (.base .ssize)⟩

/-- The schema takes ssize for a type with "size" in it, and then there is no registry. -/
theorem ssize_without_registry :
    (∃ event, construct wordsOnly asciiOnly "a.I".toList ssizeDocument.definition = .ok event ∧
      exceptionRegistry wordsOnly asciiOnly 2024 event =
        .error (.keyError (some "registryName".toList))) ∧
    ¬ ∀ d, Produces wordsOnly asciiOnly "a.I".toList 2024 d := by
  have hprinted : Printed (.base .ssize) ssizeMetadata.type := printed_print 0 0 (.base .ssize)
  have htype : registryType wordsOnly (some ssizeMetadata.type) =
      .error (.keyError (some "registryName".toList)) := registryType_printed hprinted
  refine ⟨⟨⟨"a.I".toList, "1.0.0".toList, [], [⟨"Resized".toList, none,
    ⟨none, "{Size}".toList, none⟩, [⟨"Size".toList, some ssizeMetadata.type, some "ssize_t".toList,
      [], true⟩], "OK"⟩]⟩, ?_, ?_⟩, fun hall => ?_⟩
  · refine construct_iff.mpr ⟨by simp [ssizeDocument], .nil, .cons ?_ .nil, rfl, rfl⟩
    refine constructElement_iff.mpr ⟨_, _, rfl, .cons ?_ .nil, rfl⟩
    exact (constructMetadata_iff hprinted).mpr ⟨by simp [ssizeMetadata], [], rfl, rfl⟩
  · simp [exceptionRegistry, addElement, registryEvent, registryArgs, htype, bind, Except.bind]
  · have hsupported := (registry_iff _ _ _ _ _).mp (hall ssizeDocument)
    obtain ⟨t, ht, hnamed⟩ := hsupported.types _ List.mem_cons_self ssizeMetadata
      List.mem_cons_self rfl
    obtain ⟨r, hr⟩ := (@registryType_ok wordsOnly _ _ ht).mpr hnamed
    rw [htype] at hr
    cases hr

end Sdbusplus.Proofs.EventRegistry
