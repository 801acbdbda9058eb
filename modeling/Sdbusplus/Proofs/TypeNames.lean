import Mathlib.Data.List.OfFn
import Sdbusplus.Proofs.Replace
import Sdbusplus.Tools.Property

namespace Sdbusplus.Proofs.TypeNames
open FlowSequence Replacement Tools.Property Replace

inductive BaseType
  | byte
  | boolean
  | int16
  | uint16
  | int32
  | uint32
  | int64
  | uint64
  | size
  | ssize
  | double
  | unixfd
  | string
  | objectPath
  | signature
  deriving DecidableEq, Repr

namespace BaseType

def name : BaseType → String
  | byte => "byte"
  | boolean => "boolean"
  | int16 => "int16"
  | uint16 => "uint16"
  | int32 => "int32"
  | uint32 => "uint32"
  | int64 => "int64"
  | uint64 => "uint64"
  | size => "size"
  | ssize => "ssize"
  | double => "double"
  | unixfd => "unixfd"
  | string => "string"
  | objectPath => "object_path"
  | signature => "signature"

def cppName : BaseType → String
  | byte => "uint8_t"
  | boolean => "bool"
  | int16 => "int16_t"
  | uint16 => "uint16_t"
  | int32 => "int32_t"
  | uint32 => "uint32_t"
  | int64 => "int64_t"
  | uint64 => "uint64_t"
  | size => "size_t"
  | ssize => "ssize_t"
  | double => "double"
  | unixfd => "sdbusplus::message::unix_fd"
  | string => "std::string"
  | objectPath => "sdbusplus::object_path"
  | signature => "sdbusplus::message::signature"

end BaseType

inductive Container
  | array
  | set
  | dict
  | struct
  | variant
  deriving DecidableEq, Repr

namespace Container

def name : Container → String
  | array => "array"
  | set => "set"
  | dict => "dict"
  | struct => "struct"
  | variant => "variant"

def cppName : Container → String
  | array => "std::vector"
  | set => "std::set"
  | dict => "std::map"
  | struct => "std::tuple"
  | variant => "std::variant"

/-- How many members it can be written with. -/
def Takes : Container → Nat → Prop
  | array, n | set, n => n = 1
  | dict, n => n = 2
  | struct, n | variant, n => 0 < n

end Container

/-- What follows the first dot of a name. -/
def later (n : DottedName) : Text := ['.'].intercalate n.others

/-- The C++ name of an enumeration: its interface and itself by their components, or a
place-holder for the interface and the rest of the name. -/
def enumCppName (inflection : Inflection) (n : DottedName) : Text :=
  if n.first = self then
    (localEnumMagic ++ "::").toList ++
      replace selfDot (localEnumMagic ++ "::").toList (later n)
  else
    let interface := n.first :: n.others.dropLast
    join "::" ["sdbusplus".toList, nonlocalEnumMagic.toList,
      join "::" (interface.dropLast.map inflection.underscore),
      inflection.camelize (interface.getLast (List.cons_ne_nil _ _)),
      inflection.camelize (n.others.getLast n.dotted)]

/-- The types of the documentation. -/
inductive TypeTree
  | base (b : BaseType)
  | enum (n : DottedName)
  | container (c : Container) (n : Nat) (takes : c.Takes n) (members : Fin n → TypeTree)

/-- A list of texts with commas between them. -/
def separated : List (List Token) → List Token
  | [] => []
  | ts :: tss => ts ++ tss.flatMap (fun us => .comma :: us)

namespace TypeTree

/-- How it is written, blanks aside. -/
def tokens : TypeTree → List Token
  | base b => [.scalar b.name.toList]
  | enum n => [.scalar "enum".toList, .opening, .scalar n.text, .closing]
  | container c _ _ members =>
    .scalar c.name.toList :: .opening ::
      (separated (List.ofFn (fun i => (members i).tokens)) ++ [.closing])

/-- How it is written with so many blanks after each '[' and after each ','. -/
def print (opening comma : Nat) : TypeTree → Text
  | base b => b.name.toList
  | enum n => "enum".toList ++ '[' :: (List.replicate opening ' ' ++ (n.text ++ [']']))
  | container c _ _ members =>
    c.name.toList ++ '[' :: (List.replicate opening ' ' ++
      ((',' :: List.replicate comma ' ').intercalate
        (List.ofFn (fun i => (members i).print opening comma)) ++ [']']))

/-- The tree as the generator has it. -/
def tuple : TypeTree → TypeTuple
  | base b => .mk (some b.name.toList) []
  | enum n => .mk (some "enum".toList) [.mk (some n.text) []]
  | container c _ _ members =>
    .mk (some c.name.toList) (List.ofFn (fun i => (members i).tuple))

def cppType (inflection : Inflection) : TypeTree → Text
  | base b => b.cppName.toList
  | enum n => enumCppName inflection n
  | container c _ _ members =>
    c.cppName.toList ++ "<".toList ++
      join ", " (List.ofFn (fun i => (members i).cppType inflection)) ++ ">".toList

/-- The entries that it is in YAML. -/
def nodes : TypeTree → List Node
  | base b => [.scalar b.name.toList]
  | enum n => [.scalar "enum".toList, .list [.scalar n.text]]
  | container c _ _ members =>
    [.scalar c.name.toList, .list (List.ofFn (fun i => (members i).nodes)).flatten]

end TypeTree

/-- The text is the type, with blanks around its names and punctuation. -/
def Printed (t : TypeTree) (text : Text) : Prop := Plain text ∧ lex text = t.tokens

variable {yaml : PyYaml} {inflection : Inflection} {t : TypeTree} {b : BaseType} {c : Container}

theorem getItem_base (b : BaseType) : getItem (some b.name.toList) = .ok ⟨b.cppName, 0⟩ := by
  cases b <;> rfl

/-- How many members the generator takes. -/
def params : Container → Int
  | .array | .set => 1
  | .dict => 2
  | .struct | .variant => -1

theorem getItem_container (c : Container) :
    getItem (some c.name.toList) = .ok ⟨c.cppName, params c⟩ := by
  cases c <;> rfl

theorem getItem_enum : getItem (some "enum".toList) = .ok ⟨"enum", 1⟩ := rfl

theorem getItem_cases {name : Option Text} {e : Entry} (h : getItem name = .ok e) :
    (∃ b : BaseType, name = some b.name.toList ∧ e = ⟨b.cppName, 0⟩) ∨
    (∃ c : Container, name = some c.name.toList ∧ e = ⟨c.cppName, params c⟩) ∨
    name = some "enum".toList ∧ e = ⟨"enum", 1⟩ := by
  rw [getItem] at h
  split at h
  · rename_i entry hfind
    obtain rfl := Except.ok.inj h
    have hname : some entry.1.toList = name := by simpa using List.find?_some hfind
    have hmem := List.mem_of_find?_eq_some hfind
    subst hname
    simp only [propertyMap, List.mem_cons, List.not_mem_nil, or_false] at hmem
    rcases hmem with rfl | rfl | rfl | rfl | rfl | rfl | rfl | rfl | rfl | rfl | rfl | rfl | rfl |
      rfl | rfl | rfl | rfl | rfl | rfl | rfl | rfl
    · exact .inl ⟨.byte, rfl, rfl⟩
    · exact .inl ⟨.boolean, rfl, rfl⟩
    · exact .inl ⟨.int16, rfl, rfl⟩
    · exact .inl ⟨.uint16, rfl, rfl⟩
    · exact .inl ⟨.int32, rfl, rfl⟩
    · exact .inl ⟨.uint32, rfl, rfl⟩
    · exact .inl ⟨.int64, rfl, rfl⟩
    · exact .inl ⟨.uint64, rfl, rfl⟩
    · exact .inl ⟨.size, rfl, rfl⟩
    · exact .inl ⟨.ssize, rfl, rfl⟩
    · exact .inl ⟨.double, rfl, rfl⟩
    · exact .inl ⟨.unixfd, rfl, rfl⟩
    · exact .inl ⟨.string, rfl, rfl⟩
    · exact .inl ⟨.objectPath, rfl, rfl⟩
    · exact .inl ⟨.signature, rfl, rfl⟩
    · exact .inr (.inl ⟨.array, rfl, rfl⟩)
    · exact .inr (.inl ⟨.set, rfl, rfl⟩)
    · exact .inr (.inl ⟨.struct, rfl, rfl⟩)
    · exact .inr (.inl ⟨.variant, rfl, rfl⟩)
    · exact .inr (.inl ⟨.dict, rfl, rfl⟩)
    · exact .inr (.inr ⟨rfl, rfl⟩)
  · cases h

/-! ## Names of enumerations -/

theorem text_eq (n : DottedName) : n.text = n.first ++ '.' :: later n := by
  rw [DottedName.text, List.intercalate_cons_of_ne_nil n.dotted, List.append_assoc]
  rfl

theorem identifier_no_dot {part : Text} (h : Identifier part) : '.' ∉ part := by
  obtain ⟨c, cs, rfl, hc, hcs⟩ := h
  intro hmem
  obtain rfl | hmem := List.mem_cons.mp hmem
  · simp at hc
  · have hdot := hcs '.' hmem
    simp at hdot

theorem first_self_iff (n : DottedName) : n.first = self ↔ selfDot <+: n.text := by
  rw [text_eq]
  refine ⟨fun h => ?_, fun h => ?_⟩
  · rw [h]
    exact ⟨later n, by simp [self, selfDot]⟩
  · obtain ⟨tail, htail⟩ := h
    have hself : self ++ '.' :: tail = n.first ++ '.' :: later n := by
      simpa [self, selfDot] using htail
    have hdot : '.' ∉ n.first := identifier_no_dot (n.identifiers _ List.mem_cons_self)
    exact (append_closing (by simp [self]) hdot hself).1.symm

theorem local_text {n : DottedName} (h : n.first = self) : n.text = selfDot ++ later n := by
  rw [text_eq, h]
  simp [self, selfDot]

theorem classname_parts {parts : List Text} (hne : parts ≠ []) (h : ∀ part ∈ parts, '.' ∉ part) :
    NamedElement.cppNamespacedClass inflection (join "." parts) =
      join "::" (parts.dropLast.map inflection.underscore) ++ "::".toList ++
        inflection.camelize (parts.getLast hne) := by
  have hsplit : (join "." parts).splitOn '.' = parts := List.splitOn_intercalate '.' h hne
  rw [NamedElement.cppNamespacedClass, NamedElement.namespaces, NamedElement.classname, hsplit,
    List.getLast?_eq_some_getLast hne]
  rfl

theorem enumName_text (n : DottedName) : enumName inflection n.text = enumCppName inflection n := by
  unfold enumName enumCppName
  by_cases h : n.first = self
  · have hfront : "self.".toList.isPrefixOf n.text = true :=
      List.isPrefixOf_iff_prefix.mpr ((first_self_iff n).mp h)
    rw [if_pos hfront, if_pos h, local_text h]
    exact replace_append (by simp) (later n)
  · have hfront : ¬ "self.".toList.isPrefixOf n.text = true :=
      fun hp => h ((first_self_iff n).mpr (List.isPrefixOf_iff_prefix.mp hp))
    have hdots : ∀ part ∈ n.first :: n.others, '.' ∉ part :=
      fun part hpart => identifier_no_dot (n.identifiers part hpart)
    have hinside : ∀ part ∈ n.first :: n.others.dropLast, '.' ∉ part := by
      intro part hpart
      rcases List.mem_cons.mp hpart with rfl | hpart
      · exact hdots _ List.mem_cons_self
      · exact hdots _ (List.mem_cons_of_mem _ (List.mem_of_mem_dropLast hpart))
    have hlast : '.' ∉ n.others.getLast n.dotted :=
      hdots _ (List.mem_cons_of_mem _ (List.getLast_mem n.dotted))
    have hsplit : n.text.splitOn '.' = n.first :: n.others :=
      List.splitOn_intercalate '.' hdots (List.cons_ne_nil _ _)
    have hclass : NamedElement.classname inflection ((n.first :: n.others).getLast?.getD []) =
        inflection.camelize (n.others.getLast n.dotted) := by
      rw [List.getLast?_eq_some_getLast (List.cons_ne_nil _ _), List.getLast_cons n.dotted,
        NamedElement.classname, Option.getD_some, List.splitOn_eq_singleton hlast]
      rfl
    have hinterface := @classname_parts inflection _ (List.cons_ne_nil _ _) hinside
    rw [if_neg hfront, if_neg h, hsplit]
    simp only [List.dropLast_cons_of_ne_nil n.dotted, hinterface, hclass]
    simp [join, List.intercalate_cons_cons]

/-! ## Trees -/

theorem parseTypeTuple_base (b : BaseType) :
    parseTypeTuple inflection (.mk (some b.name.toList) []) = .ok b.cppName.toList := by
  rw [parseTypeTuple, getItem_base]
  rfl

theorem parseTypeTuple_enum (name : Text) (ds : List TypeTuple) :
    parseTypeTuple inflection (.mk (some "enum".toList) [.mk (some name) ds]) =
      .ok (enumName inflection name) := by
  rw [parseTypeTuple, getItem_enum]
  rfl

/-- How many details a container is accepted with. -/
def Accepts : Container → Nat → Prop
  | .array, n | .set, n => n = 1
  | .dict, n => n = 2
  | .struct, _ | .variant, _ => True

theorem params_iff (c : Container) (n : Nat) : Accepts c n ↔ ¬ (params c ≠ -1 ∧ params c ≠ n) := by
  cases c <;> simp [Accepts, params] <;> omega

theorem parseTypeTuple_container (c : Container) (ds : List TypeTuple) (hc : Accepts c ds.length) :
    parseTypeTuple inflection (.mk (some c.name.toList) ds) =
      (parseTypeTuples inflection ds).map (fun parts =>
        c.cppName.toList ++ "<".toList ++ join ", " parts ++ ">".toList) := by
  have hparams : params c ≠ 0 := by cases c <;> simp [params]
  have hname : c.cppName ≠ "enum" := by cases c <;> simp [Container.cppName]
  rw [parseTypeTuple, getItem_container]
  simp only [bind, Except.bind, hparams, if_false, (params_iff c ds.length).mp hc, hname]
  cases parseTypeTuples inflection ds <;> rfl

theorem parseTypeTuple_rejected (c : Container) (ds : List TypeTuple)
    (hc : ¬ Accepts c ds.length) :
    parseTypeTuple inflection (.mk (some c.name.toList) ds) =
      .error (.invalidEntryCount (some c.name.toList) ds) := by
  have hparams : params c ≠ 0 := by cases c <;> simp [params]
  have hcount : params c ≠ -1 ∧ params c ≠ ds.length := by
    rw [params_iff] at hc
    exact Decidable.of_not_not hc
  rw [parseTypeTuple, getItem_container]
  simp only [bind, Except.bind, hparams, if_false, if_pos hcount]
  rfl

theorem Container.Takes.accepts {n : Nat} (h : c.Takes n) : Accepts c n := by
  cases c with
  | array | set | dict => exact h
  | struct | variant => trivial

theorem Container.Takes.pos {n : Nat} (h : c.Takes n) : 0 < n := by
  cases c <;> simp only [Container.Takes] at h <;> omega

theorem Accepts.takes {n : Nat} (h : Accepts c n) (hn : 0 < n) : c.Takes n := by
  cases c with
  | array | set | dict => exact h
  | struct | variant => exact hn

theorem members_ne_nil {n : Nat} (h : c.Takes n) (members : Fin n → TypeTree) :
    List.ofFn members ≠ [] := by
  rw [ne_eq, List.ofFn_eq_nil_iff]
  exact Nat.ne_of_gt h.pos

theorem parseTypeTuples_map (ts : List TypeTree)
    (h : ∀ t ∈ ts, parseTypeTuple inflection t.tuple = .ok (t.cppType inflection)) :
    parseTypeTuples inflection (ts.map TypeTree.tuple) =
      .ok (ts.map (TypeTree.cppType inflection)) := by
  induction ts with
  | nil => rfl
  | cons t ts ih =>
    obtain ⟨ht, hts⟩ := List.forall_mem_cons.mp h
    rw [List.map_cons, parseTypeTuples, ht, ih hts]
    rfl

theorem parseTypeTuple_tuple (t : TypeTree) :
    parseTypeTuple inflection t.tuple = .ok (t.cppType inflection) := by
  induction t with
  | base b => exact parseTypeTuple_base b
  | enum n =>
    rw [TypeTree.cppType, ← enumName_text]
    exact parseTypeTuple_enum n.text []
  | container c n takes members ih =>
    have hmem : ∀ t ∈ List.ofFn members,
        parseTypeTuple inflection t.tuple = .ok (t.cppType inflection) :=
      List.forall_mem_ofFn_iff.mpr ih
    have hmap := parseTypeTuples_map (List.ofFn members) hmem
    rw [List.map_ofFn, List.map_ofFn] at hmap
    have haccepts : Accepts c (List.ofFn (fun i => (members i).tuple)).length := by
      rw [List.length_ofFn]
      exact takes.accepts
    rw [TypeTree.tuple, parseTypeTuple_container c _ haccepts, TypeTree.cppType]
    exact congrArg (Except.map _) hmap

/-! ## The entries in YAML -/

theorem isStr_of_getItem (yaml : PyYaml) {name : Text} {e : Entry}
    (h : getItem (some name) = .ok e) : yaml.isStr name = true := by
  rw [getItem] at h
  split at h
  · rename_i entry hfind
    have hname : entry.1.toList = name := by simpa using List.find?_some hfind
    rw [← hname]
    exact yaml.keys entry (List.mem_of_find?_eq_some hfind)
  · cases h

theorem mem_separated {tss : List (List Token)} {x : Token} (hx : x ∈ separated tss) :
    x = .comma ∨ ∃ ts ∈ tss, x ∈ ts := by
  cases tss with
  | nil => cases hx
  | cons ts tss =>
    simp only [separated, List.mem_append, List.mem_flatMap, List.mem_cons] at hx
    obtain hx | ⟨us, hus, rfl | hx⟩ := hx
    · exact .inr ⟨ts, List.mem_cons_self, hx⟩
    · exact .inl rfl
    · exact .inr ⟨us, List.mem_cons_of_mem _ hus, hx⟩

/-- Every scalar of a type is a str. -/
theorem isStr_of_mem (yaml : PyYaml) (t : TypeTree) {x : Text} (hx : Token.scalar x ∈ t.tokens) :
    yaml.isStr x = true := by
  induction t with
  | base b =>
    simp only [TypeTree.tokens, List.mem_singleton, Token.scalar.injEq] at hx
    rw [hx]
    exact isStr_of_getItem yaml (getItem_base b)
  | enum n =>
    simp only [TypeTree.tokens, List.mem_cons, Token.scalar.injEq, reduceCtorEq, false_or,
      List.not_mem_nil, or_false] at hx
    obtain rfl | rfl := hx
    · exact isStr_of_getItem yaml getItem_enum
    · exact yaml.dotted n
  | container c n takes members ih =>
    simp only [TypeTree.tokens, List.mem_cons, List.mem_append, Token.scalar.injEq, reduceCtorEq,
      false_or, List.not_mem_nil, or_false] at hx
    obtain rfl | hx := hx
    · exact isStr_of_getItem yaml (getItem_container c)
    · obtain hx | ⟨ts, hts, hx⟩ := mem_separated hx
      · cases hx
      · obtain ⟨i, rfl⟩ := List.mem_ofFn.mp hts
        exact ih i hx

/-- The comma that the generator writes before each bracket. -/
def spread (ts : List Token) : List Token :=
  ts.flatMap (fun t => if t = .opening then [.comma, .opening] else [t])

theorem nodes_ne_nil (t : TypeTree) : t.nodes ≠ [] := by cases t <;> simp [TypeTree.nodes]

theorem entries_append {ns ms : List Node} (hns : ns ≠ []) :
    entries (ns ++ ms) = entries ns ++ laterEntries ms := by
  cases ns with
  | nil => exact absurd rfl hns
  | cons n ns => simp [entries, laterEntries_append]

theorem laterEntries_eq {ns : List Node} (hns : ns ≠ []) :
    laterEntries ns = .comma :: entries ns := by
  cases ns with
  | nil => exact absurd rfl hns
  | cons n ns => rfl

theorem spread_flatMap (ts : List TypeTree) (h : ∀ t ∈ ts, spread t.tokens = entries t.nodes) :
    spread ((ts.map TypeTree.tokens).flatMap (fun us => .comma :: us)) =
      laterEntries (ts.map TypeTree.nodes).flatten := by
  induction ts with
  | nil => rfl
  | cons t ts ih =>
    obtain ⟨ht, hts⟩ := List.forall_mem_cons.mp h
    rw [List.map_cons, List.map_cons, List.flatten_cons, laterEntries_append, ← ih hts,
      laterEntries_eq (nodes_ne_nil t), ← ht]
    simp [spread]

theorem spread_separated (ts : List TypeTree) (h : ∀ t ∈ ts, spread t.tokens = entries t.nodes) :
    spread (separated (ts.map TypeTree.tokens)) = entries (ts.map TypeTree.nodes).flatten := by
  cases ts with
  | nil => rfl
  | cons t ts =>
    obtain ⟨ht, hts⟩ := List.forall_mem_cons.mp h
    rw [List.map_cons, List.map_cons, List.flatten_cons, entries_append (nodes_ne_nil t),
      ← spread_flatMap ts hts, ← ht]
    simp [separated, spread]

/-- With those commas the tokens of a type are those of its entries. -/
theorem spread_tokens (t : TypeTree) : spread t.tokens = entries t.nodes := by
  induction t with
  | base b => simp [TypeTree.tokens, TypeTree.nodes, spread, entries, laterEntries, Node.tokens]
  | enum n => simp [TypeTree.tokens, TypeTree.nodes, spread, entries, laterEntries, Node.tokens]
  | container c n takes members ih =>
    have hmem : ∀ t ∈ List.ofFn members, spread t.tokens = entries t.nodes :=
      List.forall_mem_ofFn_iff.mpr ih
    have hinside := spread_separated _ hmem
    rw [List.map_ofFn, List.map_ofFn] at hinside
    have htokens : (TypeTree.container c n takes members).tokens = .scalar c.name.toList ::
      .opening :: (separated (List.ofFn (TypeTree.tokens ∘ members)) ++ [.closing]) := rfl
    have hnodes : (TypeTree.container c n takes members).nodes = [.scalar c.name.toList,
      .list (List.ofFn (TypeTree.nodes ∘ members)).flatten] := rfl
    rw [htokens, hnodes]
    simp only [entries, laterEntries, Node.tokens, ← hinside]
    simp [spread]

/-! ## The text given to YAML -/

theorem intercalate_splitOn (sep : Text) (x : Char) (text : Text) :
    sep.intercalate (text.splitOn x) = text.flatMap (fun c => if c = x then sep else [c]) := by
  induction text with
  | nil => rfl
  | cons c cs ih =>
    rw [List.splitOn_cons_eq_if_modifyHead, List.flatMap_cons, ← ih]
    by_cases hc : c = x
    · simp [hc, List.intercalate_cons_of_ne_nil]
    · simp only [hc, beq_iff_eq, if_false]
      obtain ⟨part, parts, hsplit⟩ := List.exists_cons_of_ne_nil (List.splitOn_ne_nil x cs)
      rw [hsplit]
      cases parts <;> simp [List.intercalate]

theorem yamlText_eq (typeName : Text) : yamlText typeName =
    '[' :: (typeName.flatMap (fun c => if c = '[' then [',', '['] else [c]) ++ [']']) := by
  rw [yamlText, join, intercalate_splitOn]
  rfl

theorem plain_yamlText {typeName : Text} : Plain (yamlText typeName) ↔ Plain typeName := by
  rw [yamlText_eq]
  refine ⟨fun h c hc => ?_, fun h c hc => ?_⟩
  · apply h c
    simp only [List.mem_cons, List.mem_append, List.mem_flatMap]
    refine .inr (.inl ⟨c, hc, ?_⟩)
    split <;> simp [*]
  · simp only [List.mem_cons, List.mem_append, List.mem_flatMap, List.not_mem_nil, or_false] at hc
    obtain rfl | ⟨d, hd, hc⟩ | rfl := hc
    · rfl
    · split at hc
      · simp only [List.mem_cons, List.not_mem_nil, or_false] at hc
        obtain rfl | rfl := hc <;> rfl
      · rw [List.mem_singleton.mp hc]
        exact h d hd
    · rfl

theorem spread_append (ts us : List Token) : spread (ts ++ us) = spread ts ++ spread us :=
  List.flatMap_append

theorem spread_flush (between : Text) : spread (flush between) = flush between := by
  rw [flush]
  split <;> simp [spread]

theorem punctuation_opening {c : Char} (h : punctuation c = some .opening) : c = '[' := by
  unfold punctuation at h
  split at h <;> first | rfl | cases h

theorem lexFrom_flatMap (between typeName : Text) :
    lexFrom between (typeName.flatMap (fun c => if c = '[' then [',', '['] else [c]) ++ [']']) =
      spread (lexFrom between typeName) ++ [.closing] := by
  induction typeName generalizing between with
  | nil => simp only [List.flatMap_nil, List.nil_append, lexFrom, punctuation, spread_flush]; rfl
  | cons c cs ih =>
    rw [List.flatMap_cons]
    by_cases hc : c = '['
    · subst hc
      simp only [if_true, List.cons_append, List.nil_append, lexFrom, punctuation, ih,
        spread_append, spread_flush, List.append_assoc]
      rfl
    · simp only [hc, if_false, List.cons_append, List.nil_append, lexFrom]
      cases hp : punctuation c with
      | none => exact ih _
      | some t =>
        have ht : t ≠ .opening := fun ht => hc (punctuation_opening (ht ▸ hp))
        simp only [ih, spread_append, spread_flush, List.append_assoc]
        simp [spread, ht]

theorem lex_yamlText (typeName : Text) :
    lex (yamlText typeName) = .opening :: (spread (lex typeName) ++ [.closing]) := by
  rw [yamlText_eq, lex, lexFrom]
  simp only [punctuation, flush, List.all_nil, if_true, List.nil_append]
  rw [lexFrom_flatMap]
  rfl

theorem scalar_mem_of_spread {x : Text} {ts : List Token} (hx : Token.scalar x ∈ spread ts) :
    Token.scalar x ∈ ts := by
  obtain ⟨t, ht, hx⟩ := List.mem_flatMap.mp hx
  split at hx
  · simp at hx
  · rw [List.mem_singleton.mp hx]
    exact ht

theorem spread_opening (ts : List Token) :
    spread (.opening :: ts) = .comma :: .opening :: spread ts := rfl

theorem spread_cons {t : Token} (ht : t ≠ .opening) (ts : List Token) :
    spread (t :: ts) = t :: spread ts := by
  simp [spread, ht]

theorem spread_head (ts us : List Token) : spread ts ≠ .opening :: us := by
  cases ts with
  | nil => simp [spread]
  | cons t ts =>
    by_cases ht : t = .opening
    · simp [ht, spread_opening]
    · simp [spread_cons ht, ht]

theorem spread_ne_nil (t : Token) (ts : List Token) : spread (t :: ts) ≠ [] := by
  by_cases ht : t = .opening
  · simp [ht, spread_opening]
  · simp [spread_cons ht]

/-- A comma before a bracket is one that the generator wrote. -/
theorem spread_injective {ts us : List Token} (h : spread ts = spread us) : ts = us := by
  induction ts generalizing us with
  | nil =>
    cases us with
    | nil => rfl
    | cons u us => exact absurd h.symm (spread_ne_nil u us)
  | cons t ts ih =>
    cases us with
    | nil => exact absurd h (spread_ne_nil t ts)
    | cons u us =>
      by_cases ht : t = .opening
      · by_cases hu : u = .opening
        · subst ht hu
          simp only [spread_opening, List.cons.injEq, true_and] at h
          rw [ih h]
        · rw [ht, spread_opening, spread_cons hu] at h
          exact absurd (List.cons.inj h).2.symm (spread_head us _)
      · by_cases hu : u = .opening
        · rw [hu, spread_opening, spread_cons ht] at h
          exact absurd (List.cons.inj h).2 (spread_head ts _)
        · rw [spread_cons ht, spread_cons hu] at h
          obtain ⟨rfl, htail⟩ := List.cons.inj h
          rw [ih htail]

theorem Printed.ne_nil {typeName : Text} (h : Printed t typeName) : typeName ≠ [] := by
  intro hempty
  rw [hempty] at h
  have hlex : [] = t.tokens := h.2
  cases t <;> cases hlex

theorem parse_yamlText (t : TypeTree) {typeName : Text} (hlex : lex typeName = t.tokens) :
    parse (lex (yamlText typeName)) = some t.nodes := by
  rw [lex_yamlText, hlex, spread_tokens]
  exact parse_tokens t.nodes

/-! ## From the entries to the type -/

/-- The next entry is not merged with the one before. -/
def Separate (ns : List Node) : Prop := ∀ inner rest, ns ≠ .list inner :: rest

theorem details_separate (isStr : Text → Bool) {ns : List Node} (h : Separate ns) :
    details (valuesOf isStr ns) = [] := by
  cases ns with
  | nil => rfl
  | cons n ns =>
    cases n with
    | scalar x =>
      rw [valuesOf, Value.ofNode]
      split <;> rfl
    | list inner => exact absurd rfl (h inner ns)

theorem separate_nodes (t : TypeTree) (ns : List Node) : Separate (t.nodes ++ ns) := by
  intro inner rest h
  cases t <;> simp [TypeTree.nodes] at h

theorem separate_flatten (ts : List TypeTree) : Separate (ts.map TypeTree.nodes).flatten := by
  cases ts with
  | nil =>
    intro inner rest h
    cases h
  | cons t ts => exact separate_nodes t _

/-- The tuples of entries that are types. -/
theorem preprocess_flatten (yaml : PyYaml) (ts : List TypeTree)
    (h : ∀ t ∈ ts, ∀ ns, Separate ns → preprocess (valuesOf yaml.isStr (t.nodes ++ ns)) =
      t.tuple :: preprocess (valuesOf yaml.isStr ns)) :
    preprocess (valuesOf yaml.isStr (ts.map TypeTree.nodes).flatten) = ts.map TypeTree.tuple := by
  induction ts with
  | nil => rfl
  | cons t ts ih =>
    obtain ⟨ht, hts⟩ := List.forall_mem_cons.mp h
    rw [List.map_cons, List.flatten_cons, ht _ (separate_flatten ts), ih hts]
    rfl

theorem preprocess_nodes (yaml : PyYaml) (t : TypeTree) (ns : List Node) (hns : Separate ns) :
    preprocess (valuesOf yaml.isStr (t.nodes ++ ns)) =
      t.tuple :: preprocess (valuesOf yaml.isStr ns) := by
  induction t generalizing ns with
  | base b =>
    have hstr := isStr_of_getItem yaml (getItem_base b)
    simp only [TypeTree.nodes, List.cons_append, List.nil_append, valuesOf, Value.ofNode, hstr,
      if_true, preprocess, details_separate _ hns, TypeTree.tuple]
  | enum n =>
    have hstr := isStr_of_getItem yaml getItem_enum
    simp only [TypeTree.nodes, List.cons_append, List.nil_append, valuesOf, Value.ofNode, hstr,
      yaml.dotted, if_true, preprocess, details, Value.merged, TypeTree.tuple]
  | container c n takes members ih =>
    have hstr := isStr_of_getItem yaml (getItem_container c)
    have hinside := preprocess_flatten yaml (List.ofFn members) (List.forall_mem_ofFn_iff.mpr ih)
    rw [List.map_ofFn, List.map_ofFn] at hinside
    simp only [TypeTree.nodes, List.cons_append, List.nil_append, valuesOf, Value.ofNode, hstr,
      if_true, preprocess, details, Value.merged, TypeTree.tuple]
    exact congrArg (fun ds => TypeTuple.mk _ ds :: _) hinside

/-- Every way to write a type is read as that type. -/
theorem read_printed {typeName : Text} (h : Printed t typeName) :
    typeTuple yaml typeName = .ok t.tuple := by
  obtain ⟨hplain, hlex⟩ := h
  have hparse := parse_yamlText t hlex
  have hstrs : ∀ x, Token.scalar x ∈ lex (yamlText typeName) → yaml.isStr x = true := by
    intro x hx
    rw [lex_yamlText, hlex] at hx
    simp only [List.mem_cons, reduceCtorEq, List.mem_append, List.not_mem_nil, or_false,
      false_or] at hx
    exact isStr_of_mem yaml t (scalar_mem_of_spread hx)
  have hload := yaml.loads _ _ (plain_yamlText.mpr hplain) hstrs hparse
  have hpre := preprocess_nodes yaml t [] (by intro inner rest h; cases h)
  rw [List.append_nil] at hpre
  rw [typeTuple, hload]
  simp only [hpre]

/-! ## Writing a type -/

theorem mem_intercalate {sep : Text} {parts : List Text} {x : Char}
    (hx : x ∈ sep.intercalate parts) : x ∈ sep ∨ ∃ part ∈ parts, x ∈ part := by
  induction parts with
  | nil => simp [List.intercalate_nil] at hx
  | cons part parts ih =>
    by_cases hparts : parts = []
    · rw [hparts, List.intercalate_singleton] at hx
      exact .inr ⟨part, List.mem_cons_self, hx⟩
    · rw [List.intercalate_cons_of_ne_nil hparts, List.mem_append, List.mem_append] at hx
      obtain (hx | hx) | hx := hx
      · exact .inr ⟨part, List.mem_cons_self, hx⟩
      · exact .inl hx
      · obtain hsep | ⟨p, hp, hx⟩ := ih hx
        · exact .inl hsep
        · exact .inr ⟨p, List.mem_cons_of_mem part hp, hx⟩

/-- The characters of names. -/
def nameChar (x : Char) : Bool := x.isAlphanum || x ∈ ['_', '.']

theorem nameChar_letter {x : Char} (hx : nameChar x = true) :
    punctuation x = none ∧ blank x = false := by
  have hno : x ≠ ',' ∧ x ≠ '[' ∧ x ≠ ']' ∧ x ≠ ' ' := by
    refine ⟨?_, ?_, ?_, ?_⟩
    all_goals
      intro h
      subst h
      cases hx
  refine ⟨?_, by simp [blank, hno]⟩
  unfold punctuation
  split <;> simp_all

theorem nameChar_plain {x : Char} (hx : nameChar x = true) : plainChar x = true := by
  simp only [nameChar, plainChar, Bool.or_eq_true, decide_eq_true_eq, List.mem_cons] at hx ⊢
  obtain hx | hx | hx | hx := hx
  · exact .inl hx
  · exact .inr (.inl hx)
  · exact .inr (.inr (.inl hx))
  · cases hx

/-- A name: it is one scalar, and plain. -/
structure Name (w : Text) : Prop where
  nonempty : w ≠ []
  letters : ∀ x ∈ w, nameChar x = true

theorem Name.word {w : Text} (h : Name w) : Word w :=
  ⟨h.nonempty, fun x hx => nameChar_letter (h.letters x hx)⟩

theorem name_of_all {w : Text} (hne : w ≠ []) (hall : w.all nameChar = true) : Name w :=
  ⟨hne, List.all_eq_true.mp hall⟩

theorem name_base (b : BaseType) : Name b.name.toList := by
  apply name_of_all
  · cases b <;> simp [BaseType.name]
  · cases b <;> rfl

theorem name_container (c : Container) : Name c.name.toList := by
  apply name_of_all
  · cases c <;> simp [Container.name]
  · cases c <;> rfl

theorem name_enum : Name "enum".toList := name_of_all (by simp) rfl

theorem name_dotted (n : DottedName) : Name n.text := by
  refine ⟨?_, fun x hx => ?_⟩
  · rw [DottedName.text, List.intercalate_cons_of_ne_nil n.dotted]
    simp
  · obtain hx | ⟨part, hpart, hx⟩ := mem_intercalate hx
    · rw [List.mem_singleton.mp hx]
      rfl
    · obtain ⟨d, ds, rfl, hd, hds⟩ := n.identifiers part hpart
      obtain rfl | hx := List.mem_cons.mp hx
      · simp only [Bool.or_eq_true, decide_eq_true_eq] at hd
        obtain hd | rfl := hd
        · simp [nameChar, Char.isAlphanum, hd]
        · rfl
      · have hx := hds x hx
        simp only [Bool.or_eq_true, decide_eq_true_eq] at hx
        obtain hx | rfl := hx
        · simp [nameChar, hx]
        · rfl

theorem separated_cons (ts : List Token) {tss : List (List Token)} (h : tss ≠ []) :
    separated (ts :: tss) = ts ++ .comma :: separated tss := by
  cases tss with
  | nil => exact absurd rfl h
  | cons us tss => simp [separated]

/-- The members of a container, up to its closing bracket. -/
theorem lexFrom_members {opening comma : Nat} (rest : Text) (ts : List TypeTree) (hts : ts ≠ [])
    (n : Nat) (h : ∀ t ∈ ts, ∀ n rest, Stops rest →
      lexFrom [] (List.replicate n ' ' ++ (t.print opening comma ++ rest)) =
        t.tokens ++ lexFrom [] rest) :
    lexFrom [] (List.replicate n ' ' ++
      ((',' :: List.replicate comma ' ').intercalate (ts.map (TypeTree.print opening comma)) ++
        ']' :: rest)) = separated (ts.map TypeTree.tokens) ++ .closing :: lexFrom [] rest := by
  induction ts generalizing n with
  | nil => exact absurd rfl hts
  | cons t ts ih =>
    obtain ⟨ht, hts⟩ := List.forall_mem_cons.mp h
    by_cases hempty : ts = []
    · subst hempty
      rw [List.map_singleton, List.intercalate_singleton, ht n _ (by simp [Stops, punctuation])]
      simp [separated, lexFrom, punctuation, flush]
    · have hprints : ts.map (TypeTree.print opening comma) ≠ [] := by simpa using hempty
      have htokens : ts.map TypeTree.tokens ≠ [] := by simpa using hempty
      rw [List.map_cons, List.intercalate_cons_of_ne_nil hprints, List.append_assoc,
        List.append_assoc, List.cons_append, ht n _ (by simp [Stops, punctuation]), lexFrom]
      simp only [punctuation]
      rw [ih hempty comma hts, List.map_cons, separated_cons _ htokens]
      simp [flush]

theorem lexFrom_print (opening comma : Nat) (t : TypeTree) (n : Nat) (rest : Text)
    (h : Stops rest) :
    lexFrom [] (List.replicate n ' ' ++ (t.print opening comma ++ rest)) =
      t.tokens ++ lexFrom [] rest := by
  induction t generalizing n rest with
  | base b => exact lexFrom_word n (name_base b).word h
  | enum m =>
    simp only [TypeTree.print, TypeTree.tokens, List.append_assoc, List.cons_append,
      List.nil_append]
    rw [lexFrom_word n name_enum.word (by simp [Stops, punctuation]), lexFrom]
    simp only [punctuation]
    rw [lexFrom_word opening (name_dotted m).word (by simp [Stops, punctuation]), lexFrom]
    simp [punctuation, flush]
  | container c k takes members ih =>
    have hmembers := @lexFrom_members opening comma rest (List.ofFn members)
      (members_ne_nil takes members) opening (List.forall_mem_ofFn_iff.mpr ih)
    rw [List.map_ofFn, List.map_ofFn] at hmembers
    simp only [TypeTree.print, TypeTree.tokens, List.append_assoc, List.cons_append,
      List.nil_append]
    rw [lexFrom_word n (name_container c).word (by simp [Stops, punctuation]), lexFrom]
    simp only [punctuation]
    exact congrArg (fun ts => flush [] ++ .scalar c.name.toList :: .opening :: ts) hmembers

theorem Name.plain {w : Text} (h : Name w) : Plain w := fun x hx => nameChar_plain (h.letters x hx)

theorem plain_append {a b : Text} : Plain (a ++ b) ↔ Plain a ∧ Plain b := List.forall_mem_append

theorem plain_cons {x : Char} {a : Text} : Plain (x :: a) ↔ plainChar x = true ∧ Plain a :=
  List.forall_mem_cons

theorem plain_blanks (n : Nat) : Plain (List.replicate n ' ') := by
  intro x hx
  rw [(List.mem_replicate.mp hx).2]
  rfl

theorem plain_print (opening comma : Nat) (t : TypeTree) : Plain (t.print opening comma) := by
  induction t with
  | base b => exact (name_base b).plain
  | enum n =>
    simp only [TypeTree.print, plain_append, plain_cons]
    exact ⟨name_enum.plain, rfl, plain_blanks opening, (name_dotted n).plain, rfl, by simp [Plain]⟩
  | container c k takes members ih =>
    have hinside : Plain ((',' :: List.replicate comma ' ').intercalate
        (List.ofFn (fun i => (members i).print opening comma))) := by
      intro x hx
      obtain hx | ⟨part, hpart, hx⟩ := mem_intercalate hx
      · exact plain_cons.mpr ⟨rfl, plain_blanks comma⟩ x hx
      · obtain ⟨i, rfl⟩ := List.mem_ofFn.mp hpart
        exact ih i x hx
    simp only [TypeTree.print, plain_append, plain_cons]
    exact ⟨(name_container c).plain, rfl, plain_blanks opening, hinside, rfl, by simp [Plain]⟩

theorem printed_print (opening comma : Nat) (t : TypeTree) : Printed t (t.print opening comma) := by
  refine ⟨plain_print opening comma t, ?_⟩
  have hlex := lexFrom_print opening comma t 0 [] trivial
  simpa [lex, lexFrom, flush] using hlex

end Sdbusplus.Proofs.TypeNames
