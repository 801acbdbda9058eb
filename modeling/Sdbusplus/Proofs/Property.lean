import Sdbusplus.Base.Traverse
import Sdbusplus.Proofs.TypeNames

namespace Sdbusplus.Proofs.Property
open FlowSequence Tools.Property Traverse TypeNames

variable {yaml : PyYaml} {inflection : Inflection} {t : TypeTree} {c : Container}

/-! ## What is accepted -/

/-- A tuple that the generator makes a C++ type of. Of an enumeration only the name of its
one entry counts, and structs and variants can be without members. -/
inductive Readable : TypeTuple → Prop
  | base (b : BaseType) : Readable (.mk (some b.name.toList) [])
  | enum (name : Text) (ds : List TypeTuple) :
      Readable (.mk (some "enum".toList) [.mk (some name) ds])
  | container (c : Container) (ds : List TypeTuple) (accepts : Accepts c ds.length)
      (members : ∀ d ∈ ds, Readable d) : Readable (.mk (some c.name.toList) ds)

theorem parses_of_readable {d : TypeTuple} (h : Readable d) :
    ∃ r, parseTypeTuple inflection d = .ok r := by
  induction h with
  | base b => exact ⟨_, parseTypeTuple_base b⟩
  | enum name ds => exact ⟨_, parseTypeTuple_enum name ds⟩
  | container c ds accepts members ih =>
    have hparts : ∃ parts, parseTypeTuples inflection ds = .ok parts := by
      clear accepts members
      induction ds with
      | nil => exact ⟨[], rfl⟩
      | cons d ds ihs =>
        obtain ⟨⟨r, hr⟩, hds⟩ := List.forall_mem_cons.mp ih
        obtain ⟨parts, hparts⟩ := ihs hds
        refine ⟨r :: parts, ?_⟩
        rw [parseTypeTuples, hr, hparts]
        rfl
    obtain ⟨parts, hparts⟩ := hparts
    rw [parseTypeTuple_container c ds accepts, hparts]
    exact ⟨_, rfl⟩

theorem getItem_of_parses {first : Option Text} {ds : List TypeTuple} {r : Text}
    (h : parseTypeTuple inflection (.mk first ds) = .ok r) :
    ∃ entry, getItem first = .ok entry := by
  rw [parseTypeTuple] at h
  obtain ⟨entry, hget, -⟩ := bind_ok.mp h
  exact ⟨entry, hget⟩

mutual

theorem readable_of_parses (d : TypeTuple) (r : Text) (h : parseTypeTuple inflection d = .ok r) :
    Readable d := by
  obtain ⟨first, rest⟩ := d
  obtain ⟨entry, hget⟩ := getItem_of_parses h
  obtain ⟨b, rfl, rfl⟩ | ⟨c, rfl, rfl⟩ | ⟨rfl, rfl⟩ := getItem_cases hget
  · cases rest with
    | nil => exact .base b
    | cons d ds =>
      rw [parseTypeTuple, getItem_base] at h
      cases h
  · by_cases hc : Accepts c rest.length
    · rw [parseTypeTuple_container c rest hc] at h
      cases hrest : parseTypeTuples inflection rest with
      | error e => rw [hrest] at h; cases h
      | ok parts => exact .container c rest hc (readable_of_parsesAll rest parts hrest)
    · rw [parseTypeTuple_rejected c rest hc] at h
      cases h
  · rw [parseTypeTuple, getItem_enum] at h
    match rest with
    | [.mk (some name) ds] => exact .enum name ds
    | [.mk none ds] => cases h
    | [] => cases h
    | d :: d' :: ds =>
      have hcount : ¬ (1 : Int) = (d :: d' :: ds).length := by
        simp only [List.length_cons]
        omega
      simp only [bind, Except.bind, hcount, ne_eq, not_false_eq_true, and_true] at h
      cases h

theorem readable_of_parsesAll (ds : List TypeTuple) (rs : List Text)
    (h : parseTypeTuples inflection ds = .ok rs) : ∀ d ∈ ds, Readable d := by
  cases ds with
  | nil => simp
  | cons d ds =>
    rw [parseTypeTuples] at h
    obtain ⟨r, hd, h⟩ := bind_ok.mp h
    obtain ⟨rs', hds, -⟩ := bind_ok.mp h
    exact List.forall_mem_cons.mpr ⟨readable_of_parses d r hd, readable_of_parsesAll ds rs' hds⟩

end

/-- Entries in which no list follows a list or is empty, structs and variants have a list,
and an enumeration has one dotted name in it. -/
inductive Tidy : List Node → Prop
  | nil : Tidy []
  | name (x : Text) (ns : List Node) (struct : x ≠ "struct".toList) (variant : x ≠ "variant".toList)
      (separate : Separate ns) (later : Tidy ns) : Tidy (.scalar x :: ns)
  | enum (n : DottedName) (ns : List Node) (separate : Separate ns) (later : Tidy ns) :
      Tidy (.scalar "enum".toList :: .list [.scalar n.text] :: ns)
  | list (x : Text) (inner ns : List Node) (enum : x ≠ "enum".toList) (nonempty : inner ≠ [])
      (inside : Tidy inner) (separate : Separate ns) (later : Tidy ns) :
      Tidy (.scalar x :: .list inner :: ns)

theorem preprocess_scalar (yaml : PyYaml) (x : Text) (ns : List Node) :
    preprocess (valuesOf yaml.isStr (.scalar x :: ns)) =
      .mk (if yaml.isStr x then some x else none) (details (valuesOf yaml.isStr ns)) ::
        preprocess (valuesOf yaml.isStr ns) := by
  rw [valuesOf, Value.ofNode]
  split <;> rfl

theorem preprocess_group (yaml : PyYaml) (x : Text) (inner ns : List Node) :
    preprocess (valuesOf yaml.isStr (.scalar x :: .list inner :: ns)) =
      .mk (if yaml.isStr x then some x else none) (preprocess (valuesOf yaml.isStr inner)) ::
        preprocess (valuesOf yaml.isStr ns) :=
  preprocess_scalar yaml x (.list inner :: ns)

theorem readable_name {first : Option Text} (h : Readable (.mk first [])) :
    (∃ b : BaseType, first = some b.name.toList) ∨ first = some "struct".toList ∨
      first = some "variant".toList := by
  cases h with
  | base b => exact .inl ⟨b, rfl⟩
  | container c ds accepts members =>
    cases c with
    | array | set | dict => cases accepts
    | struct => exact .inr (.inl rfl)
    | variant => exact .inr (.inr rfl)

theorem readable_list {first : Option Text} {ds : List TypeTuple} (h : Readable (.mk first ds))
    (hds : ds ≠ []) : first = some "enum".toList ∨
      ∃ c : Container, first = some c.name.toList ∧ Accepts c ds.length ∧ ∀ d ∈ ds, Readable d := by
  cases h with
  | base b => exact absurd rfl hds
  | enum name ds => exact .inl rfl
  | container c ds accepts members => exact .inr ⟨c, rfl, accepts, members⟩

theorem preprocess_types (yaml : PyYaml) (ts : List TypeTree) :
    preprocess (valuesOf yaml.isStr (ts.map TypeTree.nodes).flatten) = ts.map TypeTree.tuple :=
  preprocess_flatten yaml ts (fun t _ ns hns => preprocess_nodes yaml t ns hns)

theorem preprocess_ne_nil (yaml : PyYaml) {ns : List Node} (h : Tidy ns) (hns : ns ≠ []) :
    preprocess (valuesOf yaml.isStr ns) ≠ [] := by
  cases h with
  | nil => exact absurd rfl hns
  | name | enum | list => simp [preprocess_scalar]

theorem nodes_members (c : Container) (ts : List TypeTree) (h : c.Takes ts.length) :
    (TypeTree.container c ts.length h ts.get).nodes =
      [.scalar c.name.toList, .list (ts.map TypeTree.nodes).flatten] := by
  have hmap : List.ofFn (TypeTree.nodes ∘ ts.get) = ts.map TypeTree.nodes := by
    rw [← List.map_ofFn, List.ofFn_get]
  exact congrArg (fun nss => [Node.scalar c.name.toList, .list nss.flatten]) hmap

theorem some_of_ite {p : Prop} [Decidable p] {x y : Text}
    (h : (if p then some x else none) = some y) : x = y := by
  split at h
  · exact Option.some.inj h
  · cases h

/-- Tidy entries that are accepted are written types. -/
theorem types_of_tidy (yaml : PyYaml) {ns : List Node} (h : Tidy ns)
    (hr : ∀ d ∈ preprocess (valuesOf yaml.isStr ns), Readable d) :
    ∃ ts : List TypeTree, ns = (ts.map TypeTree.nodes).flatten := by
  induction h with
  | nil => exact ⟨[], rfl⟩
  | name x ns struct variant separate later ih =>
    rw [preprocess_scalar, details_separate _ separate] at hr
    obtain ⟨hname, hlater⟩ := List.forall_mem_cons.mp hr
    obtain ⟨ts, rfl⟩ := ih hlater
    obtain ⟨b, hb⟩ | hs | hv := readable_name hname
    · exact ⟨.base b :: ts, by rw [some_of_ite hb]; rfl⟩
    · exact absurd (some_of_ite hs) struct
    · exact absurd (some_of_ite hv) variant
  | enum n ns separate later ih =>
    rw [preprocess_group] at hr
    obtain ⟨ts, rfl⟩ := ih (List.forall_mem_cons.mp hr).2
    exact ⟨.enum n :: ts, rfl⟩
  | list x inner ns enum nonempty inside separate later ihInner ih =>
    rw [preprocess_group] at hr
    obtain ⟨hlist, hlater⟩ := List.forall_mem_cons.mp hr
    obtain ⟨ts, rfl⟩ := ih hlater
    obtain he | ⟨c, hc, accepts, members⟩ :=
      readable_list hlist (preprocess_ne_nil yaml inside nonempty)
    · exact absurd (some_of_ite he) enum
    · obtain ⟨ms, rfl⟩ := ihInner members
      rw [preprocess_types, List.length_map] at accepts
      have hpos : 0 < ms.length := by
        cases ms with
        | nil => exact absurd rfl nonempty
        | cons m ms => simp
      refine ⟨.container c ms.length (accepts.takes hpos) ms.get :: ts, ?_⟩
      rw [List.map_cons, List.flatten_cons, nodes_members, some_of_ite hc]
      rfl

/-- The parts of a type, and what comes after it, are tidy. -/
theorem tidy_flatten (ts : List TypeTree)
    (h : ∀ t ∈ ts, ∀ ns, Separate ns → Tidy ns → Tidy (t.nodes ++ ns)) :
    Tidy (ts.map TypeTree.nodes).flatten := by
  induction ts with
  | nil => exact .nil
  | cons t ts ih =>
    obtain ⟨ht, hts⟩ := List.forall_mem_cons.mp h
    exact ht _ (separate_flatten ts) (ih hts)

theorem tidy_nodes (t : TypeTree) (ns : List Node) (hns : Separate ns) (h : Tidy ns) :
    Tidy (t.nodes ++ ns) := by
  induction t generalizing ns with
  | base b =>
    refine .name _ _ ?_ ?_ hns h
    · cases b <;> decide
    · cases b <;> decide
  | enum n => exact .enum n ns hns h
  | container c n takes members ih =>
    have hinside := tidy_flatten (List.ofFn members) (List.forall_mem_ofFn_iff.mpr ih)
    rw [List.map_ofFn] at hinside
    refine .list _ _ _ ?_ ?_ hinside hns h
    · cases c <;> decide
    · intro hempty
      have hfirst := List.flatten_eq_nil_iff.mp hempty _
        (List.mem_ofFn.mpr ⟨⟨0, takes.pos⟩, rfl⟩)
      exact nodes_ne_nil _ hfirst

/-- One type name and no more. -/
inductive OneName : List Node → Prop
  | name (x : Text) : OneName [.scalar x]
  | list (x : Text) (inner : List Node) : OneName [.scalar x, .list inner]

theorem OneName.preprocess (yaml : PyYaml) {ns : List Node} (h : OneName ns) :
    ∃ d, preprocess (valuesOf yaml.isStr ns) = [d] := by
  cases h with
  | name x => exact ⟨_, preprocess_scalar yaml x []⟩
  | list x inner => exact ⟨_, preprocess_group yaml x inner []⟩

/-- A text in which nothing is skipped or left out. -/
structure Strict (typeName : Text) : Prop where
  plain : Plain typeName
  noTrailing : NoTrailing (lex (yamlText typeName))
  entries : ∃ ns, parse (lex (yamlText typeName)) = some ns ∧ OneName ns ∧ Tidy ns

/-- The first name that YAML loads from the text, with what is merged with it, is a type. -/
def Accepted (yaml : PyYaml) (typeName : Text) : Prop :=
  ∃ values d ds, yaml.safeLoad (yamlText typeName) = some values ∧
    preprocess values = d :: ds ∧ Readable d

theorem strict_of_printed {typeName : Text} (h : Printed t typeName) : Strict typeName := by
  have hparse := parse_yamlText t h.2
  refine ⟨h.1, ?_, t.nodes, hparse, ?_, ?_⟩
  · rw [lex_yamlText, h.2, spread_tokens]
    have := noTrailing_node (.list t.nodes) [] List.isChain_nil
    simpa [Node.tokens] using this
  · cases t with
    | base b => exact .name _
    | enum n => exact .list _ _
    | container c n takes members => exact .list _ _
  · have := tidy_nodes t [] (by intro inner rest h; cases h) .nil
    rwa [List.append_nil] at this

theorem printed_of_strict {typeName : Text} (ha : Accepted yaml typeName)
    (hs : Strict typeName) : ∃ t, Printed t typeName := by
  obtain ⟨values, d, ds, hload, hpre, hr⟩ := ha
  obtain ⟨hplain, hno, ns, hparse, hone, htidy⟩ := hs
  obtain ⟨ms, hms, rfl⟩ := yaml.only _ _ (plain_yamlText.mpr hplain) hload
  obtain rfl := Option.some.inj (hms.symm.trans hparse)
  obtain ⟨e, hone⟩ := hone.preprocess yaml
  have hall : ∀ e ∈ preprocess (valuesOf yaml.isStr ms), Readable e := by
    rw [hone] at hpre ⊢
    obtain ⟨rfl, -⟩ := List.cons.inj hpre
    simpa using hr
  obtain ⟨ts, hts⟩ := types_of_tidy yaml htidy hall
  obtain ⟨t, rfl⟩ : ∃ t, ts = [t] := by
    rw [hts, preprocess_types] at hone
    have hlength := congrArg List.length hone
    rw [List.length_map] at hlength
    exact List.length_eq_one_iff.mp hlength
  refine ⟨t, hplain, ?_⟩
  have htokens := (parse_iff hno).mp hparse
  have hnodes : ms = t.nodes := by simpa using hts
  rw [lex_yamlText, hnodes, Node.tokens, ← spread_tokens] at htokens
  exact spread_injective (by simpa using htokens)

/-! ## What is parsed -/

theorem typeTuple_ok {typeName : Text} {d : TypeTuple} : typeTuple yaml typeName = .ok d ↔
    ∃ values ds, yaml.safeLoad (yamlText typeName) = some values ∧ preprocess values = d :: ds := by
  rw [typeTuple]
  cases yaml.safeLoad (yamlText typeName) with
  | none => simp
  | some values => cases hpre : preprocess values <;> simp [hpre]

theorem parseCppType_ok {typeName : Text} (hne : typeName ≠ []) {r : Option Text} :
    parseCppType yaml inflection (some typeName) = .ok r ↔
      ∃ d cppTypeName, typeTuple yaml typeName = .ok d ∧
        parseTypeTuple inflection d = .ok cppTypeName ∧ r = some cppTypeName := by
  obtain ⟨c, cs, rfl⟩ := List.exists_cons_of_ne_nil hne
  rw [parseCppType]
  · simp only [bind_ok]
    constructor
    · rintro ⟨d, hread, cppTypeName, hparse, hr⟩
      exact ⟨d, cppTypeName, hread, hparse, (Except.ok.inj hr).symm⟩
    · rintro ⟨d, cppTypeName, hread, hparse, rfl⟩
      exact ⟨d, hread, cppTypeName, hparse, rfl⟩
  · simp

theorem parse_printed {typeName : Text} (h : Printed t typeName) :
    parseCppType yaml inflection (some typeName) = .ok (some (t.cppType inflection)) :=
  (parseCppType_ok h.ne_nil).mpr ⟨_, _, read_printed h, parseTypeTuple_tuple t, rfl⟩

/-- A name that is not empty is accepted exactly if its first entry is readable. -/
theorem parses_iff {typeName : Text} (hne : typeName ≠ []) :
    (∃ r, parseCppType yaml inflection (some typeName) = .ok r) ↔ Accepted yaml typeName := by
  simp only [parseCppType_ok hne]
  constructor
  · rintro ⟨r, d, cppTypeName, hread, hparse, -⟩
    obtain ⟨values, ds, hload, hpre⟩ := typeTuple_ok.mp hread
    exact ⟨values, d, ds, hload, hpre, readable_of_parses d cppTypeName hparse⟩
  · rintro ⟨values, d, ds, hload, hpre, hd⟩
    obtain ⟨cppTypeName, hparse⟩ := @parses_of_readable inflection d hd
    exact ⟨_, d, cppTypeName, typeTuple_ok.mpr ⟨values, ds, hload, hpre⟩, hparse, rfl⟩

/-- A text is rejected or a written type exactly if it is not empty and, where it is
accepted, strict. -/
theorem only_printed_iff {typeName : Text} :
    (∀ r, parseCppType yaml inflection (some typeName) = .ok r → ∃ t, Printed t typeName) ↔
      typeName ≠ [] ∧ (Accepted yaml typeName → Strict typeName) := by
  refine ⟨fun h => ?_, fun ⟨hne, hstrict⟩ r hr => ?_⟩
  · have hne : typeName ≠ [] := by
      intro hempty
      subst hempty
      obtain ⟨t, ht⟩ := h none rfl
      exact ht.ne_nil rfl
    refine ⟨hne, fun ha => ?_⟩
    obtain ⟨r, hr⟩ := (parses_iff hne).mpr ha
    obtain ⟨t, ht⟩ := h r hr
    exact strict_of_printed ht
  · have ha := (parses_iff hne).mp ⟨r, hr⟩
    exact printed_of_strict ha (hstrict ha)

/-- Every written type is read as the tree it is and made the C++ type of that tree. Any
other text is rejected, unless it is empty, or accepted without being strict. -/
theorem type_names_read (yaml : PyYaml) (inflection : Inflection) :
    (∀ t opening comma, Printed t (t.print opening comma)) ∧
    (∀ t typeName, Printed t typeName → typeTuple yaml typeName = .ok t.tuple ∧
      parseCppType yaml inflection (some typeName) = .ok (some (t.cppType inflection))) ∧
    ∀ typeName,
      (∀ r, parseCppType yaml inflection (some typeName) = .ok r → ∃ t, Printed t typeName) ↔
        typeName ≠ [] ∧ (Accepted yaml typeName → Strict typeName) :=
  ⟨fun t opening comma => printed_print opening comma t,
    fun _ _ h => ⟨read_printed h, parse_printed h⟩, fun _ => only_printed_iff⟩

/-- A scalar that begins like an identifier. -/
def beginsWord (s : Text) : Bool :=
  match s with
  | [] => false
  | c :: _ => c.isAlpha || c = '_'

theorem beginsWord_dotted (n : DottedName) : beginsWord n.text = true := by
  obtain ⟨d, ds, hfirst, hd, -⟩ := n.identifiers n.first List.mem_cons_self
  rw [DottedName.text, List.intercalate_cons_of_ne_nil n.dotted, hfirst]
  exact hd

/-- YAML as far as flow sequences of words go. -/
def wordsOnly : PyYaml where
  safeLoad text :=
    if text.all plainChar then (parse (lex text)).map (valuesOf beginsWord) else none
  isStr := beginsWord
  loads text nodes hplain _ hparse := by
    rw [if_pos (List.all_eq_true.mpr hplain), hparse]
    rfl
  only text values hplain hload := by
    rw [if_pos (List.all_eq_true.mpr hplain)] at hload
    obtain ⟨nodes, hparse, rfl⟩ := Option.map_eq_some_iff.mp hload
    exact ⟨nodes, hparse, rfl⟩
  keys := by decide
  dotted := beginsWord_dotted

/-- `([A-Z]+)([A-Z][a-z])` to `\1_\2`. -/
def splitAcronyms : Text → Text
  | a :: b :: c :: cs =>
    if a.isUpper && b.isUpper && c.isLower then a :: '_' :: splitAcronyms (b :: c :: cs)
    else a :: splitAcronyms (b :: c :: cs)
  | cs => cs

/-- `([a-z\d])([A-Z])` to `\1_\2`. -/
def splitWords : Text → Text
  | a :: b :: cs =>
    if (a.isLower || a.isDigit) && b.isUpper then a :: '_' :: splitWords (b :: cs)
    else a :: splitWords (b :: cs)
  | cs => cs

/-- `_(.)` to the character in upper case. -/
def joinWords : Text → Text
  | '_' :: c :: cs => c.toUpper :: joinWords cs
  | c :: cs => c :: joinWords cs
  | [] => []

/-- inflection as far as names in ASCII go. -/
def asciiOnly : Inflection where
  underscore name :=
    (splitWords (splitAcronyms name)).map (fun c => if c = '-' then '_' else c.toLower)
  camelize
    | [] => []
    | c :: cs => c.toUpper :: joinWords cs

/-- The rest of the entries is not looked at. -/
theorem wordsOnly_parse {typeName : Text} {ns : List Node} {ds : List TypeTuple} (t : TypeTree)
    (hne : typeName ≠ []) (hplain : typeName.all plainChar = true)
    (hparse : parse (lex (yamlText typeName)) = some ns)
    (hpre : preprocess (valuesOf wordsOnly.isStr ns) = t.tuple :: ds) :
    parseCppType wordsOnly inflection (some typeName) = .ok (some (t.cppType inflection)) := by
  have hload : wordsOnly.safeLoad (yamlText typeName) = some (valuesOf wordsOnly.isStr ns) := by
    have hall := List.all_eq_true.mpr (plain_yamlText.mpr (List.all_eq_true.mp hplain))
    simp only [wordsOnly, hall, hparse, if_true, Option.map_some]
  have hread : typeTuple wordsOnly typeName = .ok t.tuple :=
    typeTuple_ok.mpr ⟨_, ds, hload, hpre⟩
  exact (parseCppType_ok hne).mpr ⟨_, _, hread, parseTypeTuple_tuple t, rfl⟩

/-- No type is written with empty brackets. -/
theorem not_printed_brackets : ¬ Printed t "byte[]".toList := by
  intro h
  obtain ⟨ns, hparse, -, htidy⟩ := (strict_of_printed h).entries
  have hns : ns = [.scalar "byte".toList, .list []] := (Option.some.inj hparse).symm
  rw [hns] at htidy
  cases htidy with
  | name x ns struct variant separate later => exact separate [] [] rfl
  | list x inner ns enum nonempty inside separate later => exact nonempty rfl

def arrayOfInt32 : TypeTree := .container .array 1 rfl (fun _ => .base .int32)

theorem preprocess_array (ns : List Node) :
    preprocess (valuesOf yaml.isStr (arrayOfInt32.nodes ++ ns)) =
      arrayOfInt32.tuple :: preprocess (valuesOf yaml.isStr ns) := by
  have hname : yaml.isStr "array".toList = true := isStr_of_getItem yaml (getItem_container .array)
  have hinside := preprocess_types yaml [.base .int32]
  have hpre := preprocess_group yaml "array".toList [.scalar "int32".toList] ns
  rw [if_pos hname] at hpre
  exact hpre.trans (congrArg (fun ds => TypeTuple.mk _ ds :: _) hinside)

theorem preprocess_empty (ns : List Node) :
    preprocess (valuesOf yaml.isStr (.scalar "byte".toList :: .list [] :: ns)) =
      (TypeTree.base .byte).tuple :: preprocess (valuesOf yaml.isStr ns) := by
  have hname : yaml.isStr "byte".toList = true := isStr_of_getItem yaml (getItem_base .byte)
  have hpre := preprocess_group yaml "byte".toList [] ns
  rwa [if_pos hname] at hpre

/-- Further lists, further entries and empty brackets are skipped. -/
theorem skipped_entries :
    parseCppType wordsOnly asciiOnly (some "array[int32][string]".toList) =
      .ok (some "std::vector<int32_t>".toList) ∧
    parseCppType wordsOnly asciiOnly (some "int32, string".toList) =
      .ok (some "int32_t".toList) ∧
    parseCppType wordsOnly asciiOnly (some "byte[]".toList) = .ok (some "uint8_t".toList) ∧
    ¬ ∀ yaml inflection typeName r, parseCppType yaml inflection (some typeName) = .ok r →
      ∃ t, Printed t typeName := by
  have harray : parse (lex (yamlText "array[int32][string]".toList)) =
    some (arrayOfInt32.nodes ++ [.list [.scalar "string".toList]]) := rfl
  have hints : parse (lex (yamlText "int32, string".toList)) =
    some ([TypeTree.base .int32, .base .string].map TypeTree.nodes).flatten := rfl
  have hbyte : parse (lex (yamlText "byte[]".toList)) =
    some [.scalar "byte".toList, .list []] := rfl
  have hempty : parseCppType wordsOnly asciiOnly (some "byte[]".toList) =
      .ok (some "uint8_t".toList) :=
    wordsOnly_parse (.base .byte) (by simp) (by decide +kernel) hbyte (preprocess_empty [])
  refine ⟨?_, ?_, hempty, fun hall => ?_⟩
  · exact wordsOnly_parse arrayOfInt32 (by simp) (by decide +kernel) harray (preprocess_array _)
  · exact wordsOnly_parse (.base .int32) (by simp) (by decide +kernel) hints
      (preprocess_types wordsOnly _)
  · obtain ⟨t, ht⟩ := hall wordsOnly asciiOnly "byte[]".toList _ hempty
    exact not_printed_brackets ht

end Sdbusplus.Proofs.Property
