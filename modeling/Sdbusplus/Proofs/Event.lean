import Sdbusplus.Proofs.Property
import Sdbusplus.Tools.Event

namespace Sdbusplus.Proofs.Event
open Tools Tools.Event SortedMap
open Tools.Property (Inflection Text)
open Tools.Property.NamedElement (fixupName fixupName_free reserved upperSnakeCase)
open Property (asciiOnly splitAcronyms splitWords)

variable {inflection : Inflection} {lib : Nlohmann} {d : Definition} {e : Event d} {m : Metadata}
  {ms : List Metadata} {key : String} {self : Json} {j : List (String × Json)}

/-- What to_json() leaves under the key of each metadata can be read as its type. -/
def Readable (inflection : Inflection) (ms : List Metadata) (vs : Values ms) : Prop :=
  ∀ m ∈ ms, ∀ j, lastOf (m.snakeCase inflection) (assignments inflection ms vs) = some j →
    ∃ v, m.type.getTo j = .ok v

/-- The event made from the JSON of an event has its name and again this JSON. -/
def Survives (inflection : Inflection) (lib : Nlohmann)
    (rebuild : Json → Option (Except JsonError ThrownEvent)) (e : Event d) : Prop :=
  ∃ j t, toJson inflection lib e = .ok j ∧ rebuild j = some (.ok t) ∧
    t.definition.errName = d.errName ∧ toJson inflection lib t.event = .ok j

def extendAll (lib : Nlohmann) (e : Event d) (vs : List (String × Json)) : Event d :=
  vs.foldl (fun e v => e.extend lib v.1 v.2) e

section Keys

/-- The words of a name that begins with a letter do not begin with an underscore. -/
def KeepsFirst (inflection : Inflection) : Prop :=
  ∀ name, ValidName name → (inflection.underscore name).head? ≠ some '_'

theorem upper_table : ∀ n < 26, (Char.ofNat (97 + n)).toUpper ≠ '_' := by decide

theorem of_toUpper {c : Char} (h : c.toUpper = '_') : c = '_' := by
  by_cases hlower : 'a'.val ≤ c.val ∧ c.val ≤ 'z'.val
  · have hrange : 97 ≤ c.toNat ∧ c.toNat ≤ 122 :=
      ⟨UInt32.le_iff_toNat_le.mp hlower.1, UInt32.le_iff_toNat_le.mp hlower.2⟩
    have hc : Char.ofNat (97 + (c.toNat - 97)) = c := by
      rw [Nat.add_sub_cancel' hrange.1, Char.ofNat_toNat]
    have htable := upper_table (c.toNat - 97) (by omega)
    rw [hc] at htable
    exact absurd h htable
  · have hsame : c.toUpper = c := dif_neg hlower
    exact hsame.symm.trans h

/-- What is put behind a name does not change how it begins. -/
theorem head_fixupName {name : Text} (h : name.head? ≠ some '_') :
    (fixupName name).head? ≠ some '_' := by
  induction name using Tools.Property.NamedElement.fixupName.induct with
  | case1 name hreserved ih =>
    rw [fixupName, if_pos hreserved]
    apply ih
    cases name with
    | nil => cases hreserved
    | cons c cs => exact h
  | case2 name hfree =>
    rw [fixupName, if_neg hfree]
    exact h

/-- A name in SNAKE_CASE does not begin like the common fields. -/
theorem snakeCase_ne (hk : KeepsFirst inflection) (m : Metadata) (cs : List Char) :
    m.snakeCase inflection ≠ String.ofList ('_' :: cs) := by
  intro heq
  have hlist : upperSnakeCase inflection m.name = '_' :: cs := String.ofList_injective heq
  have hupper : ((inflection.underscore m.name).map Char.toUpper).head? ≠ some '_' := by
    rw [List.head?_map]
    intro hhead
    obtain ⟨c, hc, hupper⟩ := Option.map_eq_some_iff.mp hhead
    exact hk m.name m.valid (hc.trans (congrArg some (of_toUpper hupper)))
  apply head_fixupName hupper
  exact congrArg List.head? hlist

theorem snakeCase_source (hk : KeepsFirst inflection) (m : Metadata) :
    "_SOURCE" ≠ m.snakeCase inflection :=
  (snakeCase_ne hk m "SOURCE".toList).symm

theorem snakeCase_extensions (hk : KeepsFirst inflection) (m : Metadata) :
    "_EXTENSIONS" ≠ m.snakeCase inflection :=
  (snakeCase_ne hk m "EXTENSIONS".toList).symm

theorem lastOf_other (h : ∀ m ∈ ms, m.snakeCase inflection ≠ key) (vs : Values ms) :
    lastOf key (assignments inflection ms vs) = none := by
  induction ms with
  | nil => rfl
  | cons m ms ih =>
    obtain ⟨v, vs⟩ := vs
    rw [assignments, lastOf, ih (fun m hm => h m (List.mem_cons_of_mem _ hm)),
      if_neg (h m List.mem_cons_self), Option.none_or]

theorem lastOf_mem (h : m ∈ ms) (vs : Values ms) :
    ∃ j, lastOf (m.snakeCase inflection) (assignments inflection ms vs) = some j := by
  induction ms with
  | nil => cases h
  | cons m' ms ih =>
    obtain ⟨v, vs⟩ := vs
    rw [assignments, lastOf]
    rcases List.mem_cons.mp h with rfl | h
    · rw [if_pos rfl]
      cases lastOf (m.snakeCase inflection) (assignments inflection ms vs) with
      | none => exact ⟨_, rfl⟩
      | some j => exact ⟨_, rfl⟩
    · obtain ⟨j, hj⟩ := ih h vs
      exact ⟨j, by rw [hj, Option.some_or]⟩

end Keys

section Extensions
variable {es : List (String × String)}

/-- What the extensions are parsed from can be parsed. -/
def Dumps (lib : Nlohmann) (es : List (String × String)) : Prop :=
  ∀ x ∈ es, ∃ v, lib.parse x.2 = .ok v

theorem extend_dumps (interface : String) (v : Json) (h : Dumps lib e.extensions) :
    Dumps lib (e.extend lib interface v).extensions := by
  intro x hx
  rcases mem_insert hx with rfl | hx
  · exact lib.parses v
  · exact h x hx

theorem insert_ne_nil {K V : Type} [LinearOrder K] {k : K} {v : V} {m : List (K × V)} :
    SortedMap.insert k v m ≠ [] := by
  intro h
  have hfind : find? k (SortedMap.insert k v m) = some v := find?_insert_same
  rw [h] at hfind
  cases hfind

/-- Extending changes nothing but the extensions, and there are some afterwards. -/
theorem extendAll_spec (vs : List (String × Json)) (h : Dumps lib e.extensions) :
    Dumps lib (extendAll lib e vs).extensions ∧
      ((extendAll lib e vs).extensions = [] ↔ e.extensions = [] ∧ vs = []) ∧
      ∃ es, extendAll lib e vs = { e with extensions := es } := by
  induction vs generalizing e with
  | nil => exact ⟨h, by simp [extendAll], e.extensions, rfl⟩
  | cons v vs ih =>
    obtain ⟨hdumps, hnil, es, hes⟩ := ih (extend_dumps v.1 v.2 h)
    refine ⟨hdumps, ?_, es, hes⟩
    have hne : (e.extend lib v.1 v.2).extensions ≠ [] := insert_ne_nil
    constructor
    · intro hempty
      exact absurd (hnil.mp hempty).1 hne
    · intro hholds
      obtain ⟨-, hvs⟩ := hholds
      cases hvs

/-- The object with the extensions: every other key holds what it held. -/
theorem addExtensions_spec (h : Dumps lib es) : ∃ j', addExtensions lib j es = .ok j' ∧
    (∀ key, "_EXTENSIONS" ≠ key → find? key j' = find? key j) ∧
    (es ≠ [] → ∃ v, find? "_EXTENSIONS" j' = some v) ∧ (es = [] → j' = j) := by
  induction es generalizing j with
  | nil => exact ⟨j, rfl, fun _ _ => rfl, nofun, fun _ => rfl⟩
  | cons x es ih =>
    obtain ⟨v, hv⟩ := h x List.mem_cons_self
    obtain ⟨j', hj', hother, hsome, hnil⟩ := ih (fun y hy => h y (List.mem_cons_of_mem _ hy))
    refine ⟨j', ?_, fun key hkey => ?_, fun _ => ?_, nofun⟩
    · rw [addExtensions, hv]
      exact hj'
    · rw [hother key hkey, find?_insert_other hkey]
    · cases es with
      | nil =>
        rw [hnil rfl]
        exact ⟨_, find?_insert_same⟩
      | cons y es => exact hsome (List.cons_ne_nil _ _)

end Extensions

section Read

/-- The values that the constructor reads from an object. -/
def Reads (inflection : Inflection) (self : Json) : (ms : List Metadata) → Values ms → Prop
  | [], _ => True
  | m :: ms, (v, vs) =>
    (∃ j, self.at_ (m.snakeCase inflection) = .ok j ∧ m.type.getTo j = .ok v) ∧
      Reads inflection self ms vs

theorem readMetadata_reads {vs : Values ms} (h : readMetadata inflection self ms = .ok vs) :
    Reads inflection self ms vs := by
  induction ms with
  | nil => trivial
  | cons m ms ih =>
    obtain ⟨v, vs⟩ := vs
    rw [readMetadata] at h
    cases hat : self.at_ (m.snakeCase inflection) with
    | error err => rw [hat] at h; cases h
    | ok j =>
      rw [hat] at h
      change (m.type.getTo j >>= _) = _ at h
      cases hget : m.type.getTo j with
      | error err => rw [hget] at h; cases h
      | ok w =>
        rw [hget] at h
        change (readMetadata inflection self ms >>= _) = _ at h
        cases hrest : readMetadata inflection self ms with
        | error err => rw [hrest] at h; cases h
        | ok ws =>
          rw [hrest] at h
          cases h
          exact ⟨⟨j, hat, hget⟩, ih hrest⟩

theorem readMetadata_ok (h : ∀ m ∈ ms, ∃ j v, self.at_ (m.snakeCase inflection) = .ok j ∧
    m.type.getTo j = .ok v) : ∃ vs, readMetadata inflection self ms = .ok vs := by
  induction ms with
  | nil => exact ⟨(), rfl⟩
  | cons m ms ih =>
    obtain ⟨j, v, hj, hv⟩ := h m List.mem_cons_self
    obtain ⟨vs, hvs⟩ := ih (fun m hm => h m (List.mem_cons_of_mem _ hm))
    refine ⟨(v, vs), ?_⟩
    rw [readMetadata, hj]
    change (m.type.getTo j >>= _) = _
    rw [hv]
    change (readMetadata inflection self ms >>= _) = _
    rw [hvs]
    rfl

theorem Reads.all {vs : Values ms} (h : Reads inflection self ms vs) :
    ∀ m ∈ ms, ∃ j v, self.at_ (m.snakeCase inflection) = .ok j ∧ m.type.getTo j = .ok v := by
  induction ms with
  | nil => simp
  | cons m ms ih =>
    obtain ⟨v, vs⟩ := vs
    obtain ⟨⟨j, hj, hv⟩, hrest⟩ := h
    exact List.forall_mem_cons.mpr ⟨⟨j, v, hj, hv⟩, ih hrest⟩

/-- What was read writes the same under every key: the last metadata of a key reads back
its own value. -/
theorem Reads.lastOf {vs ws : Values ms} (h : Reads inflection self ms ws)
    (hself : ∀ key j, SortedMap.lastOf key (assignments inflection ms vs) = some j →
      self.at_ key = .ok j) :
    SortedMap.lastOf key (assignments inflection ms ws) =
      SortedMap.lastOf key (assignments inflection ms vs) := by
  induction ms with
  | nil => rfl
  | cons m ms ih =>
    obtain ⟨v, vs⟩ := vs
    obtain ⟨w, ws⟩ := ws
    obtain ⟨⟨j, hj, hw⟩, hrest⟩ := h
    have htail := ih hrest (fun key j hlast => hself key j (by
      rw [assignments, SortedMap.lastOf, hlast, Option.some_or]))
    rw [assignments, assignments, SortedMap.lastOf, SortedMap.lastOf, htail]
    cases hlast : SortedMap.lastOf key (assignments inflection ms vs) with
    | some _ => rfl
    | none =>
      by_cases hkey : m.snakeCase inflection = key
      · subst hkey
        have hheld := hself (m.snakeCase inflection) (m.type.toJson v) (by
          rw [assignments, SortedMap.lastOf, hlast, if_pos rfl, Option.none_or])
        rw [hheld] at hj
        cases hj
        rw [m.type.roundTrip] at hw
        cases hw
        rfl
      · rw [if_neg hkey, if_neg hkey]

end Read

section RoundTrip

/-- What to_json() writes: the metadata, the source, and the extensions if there are any. -/
theorem toJson_spec (hk : KeepsFirst inflection) (h : Dumps lib e.extensions) : ∃ j,
    toJson inflection lib e = .ok (.object [(d.errName, .object j)]) ∧
    (∀ m ∈ d.metadata, find? (m.snakeCase inflection) j =
      lastOf (m.snakeCase inflection) (assignments inflection d.metadata e.values)) ∧
    find? "_SOURCE" j = some e.sourceInfo ∧
    (e.extensions ≠ [] → ∃ v, find? "_EXTENSIONS" j = some v) ∧
    (e.extensions = [] → j = SortedMap.insert "_SOURCE" e.sourceInfo
      (insertAll [] (assignments inflection d.metadata e.values))) := by
  obtain ⟨j, hj, hother, hsome, hnil⟩ := addExtensions_spec (j := SortedMap.insert "_SOURCE"
    e.sourceInfo (insertAll [] (assignments inflection d.metadata e.values))) h
  refine ⟨j, ?_, fun m hm => ?_, ?_, hsome, hnil⟩
  · rw [toJson, hj]
    rfl
  · rw [hother _ (snakeCase_extensions hk m), find?_insert_other (snakeCase_source hk m),
      find?_insertAll, find?, Option.or_none]
  · rw [hother _ (by simp), find?_insert_same]

/-- The source is read back as it was written, the extensions are not read at all. -/
theorem ofJson_eq {s : SourceLocation} {p : Int32}
    (hsource : find? "_SOURCE" j = some e.sourceInfo) :
    ofJson inflection lib d (.object [(d.errName, .object j)]) s p =
      (readMetadata inflection (.object j) d.metadata).map
        (fun vs => { e with values := vs, extensions := [] }) := by
  have hself : Json.at_ (.object [(d.errName, .object j)]) d.errName = .ok (.object j) := by
    simp [Json.at_, find?]
  have hcontains : Json.contains (.object j) "_SOURCE" = true := by
    rw [Json.contains, hsource]
    rfl
  have hsrc : Json.at_ (.object j) "_SOURCE" = .ok e.sourceInfo := by
    rw [Json.at_, hsource]
  have hat : ∀ key v, lastOf key [("FILE", Json.string e.sourceFile),
      ("FUNCTION", .string e.sourceFunc), ("LINE", .unsigned e.sourceLine),
      ("COLUMN", .unsigned e.sourceColumn), ("PID", .integer e.pid.toInt64)] = some v →
      e.sourceInfo.at_ key = .ok v := by
    intro key v hlast
    rw [sourceInfo, Json.at_, find?_insertAll, hlast, Option.some_or]
  have hfile := hat "FILE" (.string e.sourceFile) (by simp [lastOf])
  have hfunc := hat "FUNCTION" (.string e.sourceFunc) (by simp [lastOf])
  have hline := hat "LINE" (.unsigned e.sourceLine) (by simp [lastOf])
  have hcolumn := hat "COLUMN" (.unsigned e.sourceColumn) (by simp [lastOf])
  have hpid := hat "PID" (.integer e.pid.toInt64) (by simp [lastOf])
  cases hvs : readMetadata inflection (.object j) d.metadata with
  | error err => simp [ofJson, hself, hvs, bind, Except.bind, Except.map]
  | ok vs =>
    simp [ofJson, hself, hvs, hcontains, hsrc, hfile, hfunc, hline, hcolumn, hpid, bind,
      Except.bind, Except.map, Json.getString, Json.getSizeT, Json.getPid, pure, Except.pure]

/-- An event with these values and no extensions has the JSON of `e` just when `e` has
no extensions either. -/
theorem toJson_again {vs : Values d.metadata} (hk : KeepsFirst inflection)
    (h : Dumps lib e.extensions) {j : Json}
    (hj : toJson inflection lib e = .ok j)
    (hlast : ∀ key, lastOf key (assignments inflection d.metadata vs) =
      lastOf key (assignments inflection d.metadata e.values)) :
    toJson inflection lib { e with values := vs, extensions := [] } = .ok j ↔
      e.extensions = [] := by
  obtain ⟨j', hj', -, -, hsome, hnil⟩ := toJson_spec hk h
  rw [hj] at hj'
  cases hj'
  have hobject : insertAll [] (assignments inflection d.metadata vs) =
      insertAll [] (assignments inflection d.metadata e.values) := by
    refine (sorted_nil.insertAll _).ext (sorted_nil.insertAll _) (fun k => ?_)
    rw [find?_insertAll, find?_insertAll, hlast]
  have hagain : toJson inflection lib { e with values := vs, extensions := [] } =
      .ok (.object [(d.errName, .object (SortedMap.insert "_SOURCE" e.sourceInfo
        (insertAll [] (assignments inflection d.metadata e.values))))]) := by
    rw [← hobject]
    rfl
  rw [hagain]
  constructor
  · intro heq
    by_contra hne
    obtain ⟨v, hv⟩ := hsome hne
    simp only [Except.ok.injEq, Json.object.injEq, List.cons.injEq, Prod.mk.injEq, true_and,
      and_true] at heq
    rw [← heq, find?_insert_other (by simp), find?_insertAll,
      lastOf_other (fun m _ => (snakeCase_extensions hk m).symm)] at hv
    cases hv
  · intro hempty
    rw [hnil hempty]

/-- What is found under the key of a metadata is what the last metadata of this key left. -/
theorem at_of_lastOf {vs : Values ms}
    (h : ∀ m ∈ ms, find? (m.snakeCase inflection) j =
      SortedMap.lastOf (m.snakeCase inflection) (assignments inflection ms vs)) :
    ∀ key v, SortedMap.lastOf key (assignments inflection ms vs) = some v →
      Json.at_ (.object j) key = .ok v := by
  intro key v hlast
  by_cases hkey : ∃ m ∈ ms, m.snakeCase inflection = key
  · obtain ⟨m, hm, rfl⟩ := hkey
    rw [Json.at_, h m hm, hlast]
  · rw [lastOf_other (fun m hm heq => hkey ⟨m, hm, heq⟩)] at hlast
    cases hlast

theorem survives_throwEvent (hk : KeepsFirst inflection) (h : Dumps lib e.extensions)
    (s : SourceLocation) (p : Int32) :
    Survives inflection lib (fun j => some (throwEvent inflection lib d j s p)) e ↔
      e.extensions = [] ∧ Readable inflection d.metadata e.values := by
  obtain ⟨j, hj, hmetadata, hsource, -, -⟩ := toJson_spec hk h
  have hat := at_of_lastOf hmetadata
  have hthrow : throwEvent inflection lib d (.object [(d.errName, .object j)]) s p =
      (readMetadata inflection (.object j) d.metadata).map
        (fun vs => ⟨d, { e with values := vs, extensions := [] }⟩) := by
    rw [throwEvent, ofJson_eq hsource]
    cases readMetadata inflection (.object j) d.metadata <;> rfl
  constructor
  · intro hholds
    obtain ⟨j', t, hj', hrebuild, -, hagain⟩ := hholds
    rw [hj] at hj'
    cases hj'
    have ht := Option.some.inj hrebuild
    rw [hthrow] at ht
    cases hvs : readMetadata inflection (.object j) d.metadata with
    | error err =>
      rw [hvs] at ht
      cases ht
    | ok vs =>
      rw [hvs] at ht
      cases ht
      have hreads := readMetadata_reads hvs
      refine ⟨(toJson_again hk h hj (fun key => hreads.lastOf hat)).mp hagain, ?_⟩
      intro m hm v hlast
      obtain ⟨v', w, hv', hw⟩ := hreads.all m hm
      rw [hat (m.snakeCase inflection) v hlast] at hv'
      cases hv'
      exact ⟨w, hw⟩
  · intro hholds
    obtain ⟨hempty, hreadable⟩ := hholds
    have hread : ∀ m ∈ d.metadata, ∃ v w, Json.at_ (.object j) (m.snakeCase inflection) = .ok v ∧
        m.type.getTo v = .ok w := by
      intro m hm
      obtain ⟨v, hv⟩ := lastOf_mem hm e.values
      obtain ⟨w, hw⟩ := hreadable m hm v hv
      exact ⟨v, w, hat (m.snakeCase inflection) v hv, hw⟩
    obtain ⟨vs, hvs⟩ := readMetadata_ok hread
    have hreads := readMetadata_reads hvs
    refine ⟨_, ⟨d, { e with values := vs, extensions := [] }⟩, hj, ?_, rfl, ?_⟩
    · change some (throwEvent inflection lib d _ s p) = _
      rw [hthrow, hvs]
      rfl
    · exact (toJson_again hk h hj (fun key => hreads.lastOf hat)).mpr hempty

/-- A type reads what it wrote itself. -/
theorem readable_of_nodup (h : (ms.map (Metadata.snakeCase inflection)).Nodup) (vs : Values ms) :
    Readable inflection ms vs := by
  induction ms with
  | nil => simp [Readable]
  | cons m ms ih =>
    obtain ⟨v, vs⟩ := vs
    obtain ⟨hfresh, hrest⟩ := List.nodup_cons.mp h
    intro m' hm' j hlast
    rw [assignments, SortedMap.lastOf] at hlast
    rcases List.mem_cons.mp hm' with rfl | hm'
    · have hother : ∀ m ∈ ms, m.snakeCase inflection ≠ m'.snakeCase inflection := fun m hm heq =>
        hfresh (heq ▸ List.mem_map_of_mem hm)
      rw [lastOf_other hother, if_pos rfl, Option.none_or] at hlast
      cases hlast
      exact ⟨v, m'.type.roundTrip v⟩
    · obtain ⟨j', hj'⟩ := lastOf_mem hm' vs
      rw [hj', Option.some_or] at hlast
      cases hlast
      exact ih hrest vs m' hm' j hj'

end RoundTrip

section Hooks
variable {ds : List Definition} {hooks : List (String × Definition)}

theorem find?_registerEvent {d' : Definition} :
    (registerEvent hooks d').find? (fun hook => hook.1 = d.errName) =
      (hooks.find? (fun hook => hook.1 = d.errName)).or
        (if d'.errName = d.errName then some (d'.errName, d') else none) := by
  rw [registerEvent]
  split
  · rename_i hany
    obtain ⟨hook, hmem, hname⟩ := List.any_eq_true.mp hany
    split
    · rename_i heq
      have hfound : (hooks.find? (fun hook => hook.1 = d.errName)).isSome = true := by
        rw [List.find?_isSome]
        exact ⟨hook, hmem, by simpa [heq] using hname⟩
      obtain ⟨found, hfound⟩ := Option.isSome_iff_exists.mp hfound
      rw [hfound, Option.some_or]
    · rw [Option.or_none]
  · rw [List.find?_append]
    by_cases heq : d'.errName = d.errName
    · simp [heq]
    · simp [heq]

/-- The hook of an event whose name no other has. -/
theorem find?_registerAll (hd : d ∈ ds) (hnames : (ds.map Definition.errName).Nodup) :
    (registerAll ds).find? (fun hook => hook.1 = d.errName) = some (d.errName, d) := by
  have hrun : ∀ (ds : List Definition) (hooks : List (String × Definition)),
      (ds.foldl registerEvent hooks).find? (fun hook => hook.1 = d.errName) =
        (hooks.find? (fun hook => hook.1 = d.errName)).or
          ((ds.find? (fun d' => d'.errName = d.errName)).map (fun d' => (d'.errName, d'))) := by
    intro ds
    induction ds with
    | nil => simp
    | cons d' ds ih =>
      intro hooks
      rw [List.foldl_cons, ih, find?_registerEvent, Option.or_assoc, List.find?_cons]
      by_cases heq : d'.errName = d.errName
      · simp [heq]
      · simp [heq]
  have hfind : ds.find? (fun d' => d'.errName = d.errName) = some d := by
    induction ds with
    | nil => cases hd
    | cons d' ds ih =>
      obtain ⟨hfresh, hrest⟩ := List.nodup_cons.mp hnames
      rcases List.mem_cons.mp hd with rfl | hd
      · simp
      · have hne : d'.errName ≠ d.errName := fun heq => hfresh (heq ▸ List.mem_map_of_mem hd)
        rw [List.find?_cons_of_neg (by simpa using hne), ih hd hrest]
  rw [registerAll, hrun, hfind]
  rfl

theorem throwViaJson_eq (hd : d ∈ ds) (hnames : (ds.map Definition.errName).Nodup) {self : Json}
    {s : SourceLocation} {p : Int32} :
    throwViaJson inflection lib (registerAll ds) (.object [(d.errName, self)]) s p =
      some (throwEvent inflection lib d (.object [(d.errName, self)]) s p) := by
  rw [throwViaJson, List.findSome?_cons, find?_registerAll hd hnames]
  rfl

theorem survives_throwViaJson (hk : KeepsFirst inflection) (hd : d ∈ ds)
    (hnames : (ds.map Definition.errName).Nodup) (h : Dumps lib e.extensions)
    {s : SourceLocation} {p : Int32} :
    Survives inflection lib (fun j => throwViaJson inflection lib (registerAll ds) j s p) e ↔
      Survives inflection lib (fun j => some (throwEvent inflection lib d j s p)) e := by
  obtain ⟨self, hself, -⟩ := toJson_spec hk h
  have hsame : throwViaJson inflection lib (registerAll ds)
      (.object [(d.errName, .object self)]) s p =
        some (throwEvent inflection lib d (.object [(d.errName, .object self)]) s p) :=
    throwViaJson_eq hd hnames
  constructor
  · intro hholds
    obtain ⟨j, t, hj, hrebuild, hkept⟩ := hholds
    rw [hself] at hj
    cases hj
    exact ⟨_, t, hself, hsame.symm.trans hrebuild, hkept⟩
  · intro hholds
    obtain ⟨j, t, hj, hrebuild, hkept⟩ := hholds
    rw [hself] at hj
    cases hj
    exact ⟨_, t, hself, hsame.trans hrebuild, hkept⟩

end Hooks

section Survival

/-- An event survives its JSON, by the constructor and by throw_via_json(), just when it was
never extended and every metadata reads what the last one of its key wrote. -/
theorem survives_iff {ds : List Definition} (hk : KeepsFirst inflection) (hd : d ∈ ds)
    (hnames : (ds.map Definition.errName).Nodup) (values : Values d.metadata)
    (source s : SourceLocation) (pid p : Int32) (extensions : List (String × Json)) :
    (Survives inflection lib (fun j => some (throwEvent inflection lib d j s p))
        (extendAll lib (construct d values source pid) extensions) ↔
      extensions = [] ∧ Readable inflection d.metadata values) ∧
    (Survives inflection lib (fun j => throwViaJson inflection lib (registerAll ds) j s p)
        (extendAll lib (construct d values source pid) extensions) ↔
      extensions = [] ∧ Readable inflection d.metadata values) := by
  have hnone : Dumps lib (construct d values source pid).extensions := by
    simp [Dumps, construct]
  obtain ⟨hdumps, hnil, es, hes⟩ := extendAll_spec extensions hnone
  have hthrow := survives_throwEvent hk hdumps s p
  have hvalues : (extendAll lib (construct d values source pid) extensions).values = values := by
    rw [hes]
    rfl
  have hempty : (extendAll lib (construct d values source pid) extensions).extensions = [] ↔
      extensions = [] := by
    rw [hnil]
    simp [construct]
  rw [hvalues, hempty] at hthrow
  exact ⟨hthrow, (survives_throwViaJson hk hd hnames hdumps).trans hthrow⟩

theorem lower_table : ∀ n < 26, (Char.ofNat (65 + n)).toLower ≠ '_' := by decide

theorem toLower_ne {c : Char} (h : c.isUpper = true) : c.toLower ≠ '_' := by
  have hval := of_decide_eq_true h
  have hrange : 65 ≤ c.toNat ∧ c.toNat ≤ 90 :=
    ⟨UInt32.le_iff_toNat_le.mp hval.1, UInt32.le_iff_toNat_le.mp hval.2⟩
  have hc : Char.ofNat (65 + (c.toNat - 65)) = c := by
    rw [Nat.add_sub_cancel' hrange.1, Char.ofNat_toNat]
  have htable := lower_table (c.toNat - 65) (by omega)
  rwa [hc] at htable

theorem head_splitAcronyms {c : Char} {cs : List Char} :
    (splitAcronyms (c :: cs)).head? = some c := by
  rcases cs with - | ⟨b, - | ⟨x, cs⟩⟩
  · rfl
  · rfl
  · rw [splitAcronyms]
    split <;> rfl

theorem head_splitWords {cs : List Char} : (splitWords cs).head? = cs.head? := by
  rcases cs with - | ⟨a, - | ⟨b, cs⟩⟩
  · rfl
  · rfl
  · rw [splitWords]
    split <;> rfl

theorem keepsFirst_asciiOnly : KeepsFirst asciiOnly := by
  rintro name ⟨c, rest, rfl, hupper, -⟩ hhead
  have hne : c ≠ '-' := by
    rintro rfl
    cases hupper
  change ((splitWords (splitAcronyms (c :: rest))).map _).head? = _ at hhead
  rw [List.head?_map, head_splitWords, head_splitAcronyms, Option.map_some, if_neg hne] at hhead
  exact toLower_ne hupper (Option.some.inj hhead)

/-- Numbers and texts, which every type of metadata writes as themselves. -/
def uint64 : MetadataType where
  Val := UInt64
  toJson := .unsigned
  getTo
    | .unsigned n => .ok n
    | _ => .error .typeError
  roundTrip _ := rfl

def text : MetadataType where
  Val := String
  toJson := .string
  getTo
    | .string s => .ok s
    | _ => .error .typeError
  roundTrip _ := rfl

/-- A library that knows one object and its text. -/
def oneObject : Nlohmann where
  dump _ := "\x7b\"Count\":3\x7d"
  parse _ := .ok (.object [("Count", .unsigned 3)])
  toSizeT bits := bits
  toPid _ := 0
  parses _ := ⟨_, rfl⟩

def retried : Definition where
  errName := "example.Error.Retried"
  metadata := [⟨"RetryCount".toList, uint64, 'R', "etryCount".toList, rfl, by decide, by simp⟩,
    ⟨"LastReason".toList, text, 'L', "astReason".toList, rfl, by decide, by simp⟩]
  distinct := by simp

def fourTimes : Values retried.metadata := ((4 : UInt64), "busy", ())

def here : SourceLocation := ⟨"main.cpp", "main", 7, 3⟩

theorem keys_retried :
    retried.metadata.map (Metadata.snakeCase asciiOnly) = ["RETRY_COUNT", "LAST_REASON"] := by
  have hcount : upperSnakeCase asciiOnly "RetryCount".toList = "RETRY_COUNT".toList :=
    fixupName_free (by decide)
  have hreason : upperSnakeCase asciiOnly "LastReason".toList = "LAST_REASON".toList :=
    fixupName_free (by decide)
  simp only [retried, List.map_cons, List.map_nil, Metadata.snakeCase, hcount, hreason]
  rfl

theorem survives_iff_retried :
    Survives asciiOnly oneObject (fun j => some (throwEvent asciiOnly oneObject retried j here 9))
        (construct retried fourTimes here 8) ∧
    Survives asciiOnly oneObject
        (fun j => throwViaJson asciiOnly oneObject (registerAll [retried]) j here 9)
        (construct retried fourTimes here 8) := by
  have hreadable : Readable asciiOnly retried.metadata fourTimes :=
    readable_of_nodup (by rw [keys_retried]; simp) _
  have hd : retried ∈ [retried] := List.mem_singleton.mpr rfl
  obtain ⟨hconstructor, hthrown⟩ :=
    survives_iff keepsFirst_asciiOnly hd (by simp) fourTimes here here 8 9 []
  exact ⟨hconstructor.mpr ⟨rfl, hreadable⟩, hthrown.mpr ⟨rfl, hreadable⟩⟩

/-- An event that is extended once is rebuilt without the extension. -/
theorem extension_lost :
    ¬ Survives asciiOnly oneObject
        (fun j => throwViaJson asciiOnly oneObject (registerAll [retried]) j here 9)
        ((construct retried fourTimes here 8).extend oneObject "example.Retries"
          (.object [("Count", .unsigned 3)])) := by
  intro h
  have hnone : Dumps oneObject (construct retried fourTimes here 8).extensions := by
    simp [Dumps, construct]
  have hdumps := extend_dumps "example.Retries" (.object [("Count", .unsigned 3)]) hnone
  have hd : retried ∈ [retried] := List.mem_singleton.mpr rfl
  have hrebuilt := (survives_throwViaJson keepsFirst_asciiOnly hd (by simp) hdumps).mp h
  exact insert_ne_nil ((survives_throwEvent keepsFirst_asciiOnly hdumps here 9).mp hrebuilt).1

end Survival

end Sdbusplus.Proofs.Event
