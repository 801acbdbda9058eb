import Sdbusplus.Message.Signature
import Sdbusplus.Proofs.Agreement

namespace Sdbusplus.Proofs.Signature
open InformationTheory Message CppType Proofs.Structure Proofs.Agreement Words

variable {t u : CppType} {ts args : List CppType} {s x y : List Char} {ss : List (List Char)}

/-- All single complete types. -/
def completes : Set (List Char) := {s | Complete s}

theorem basic_typeId (b : BusType) : ∃ c : Basic, c.busType = b := by
  cases b with
  | byte => exact ⟨.uint8, rfl⟩
  | boolean => exact ⟨.bool, rfl⟩
  | int16 => exact ⟨.int16, rfl⟩
  | uint16 => exact ⟨.uint16, rfl⟩
  | int32 => exact ⟨.int32, rfl⟩
  | uint32 => exact ⟨.uint32, rfl⟩
  | int64 => exact ⟨.int64, rfl⟩
  | uint64 => exact ⟨.uint64, rfl⟩
  | double => exact ⟨.double, rfl⟩
  | string => exact ⟨.string, rfl⟩
  | objectPath => exact ⟨.objectPath, rfl⟩
  | signature => exact ⟨.signature, rfl⟩
  | unixFd => exact ⟨.unixFd, rfl⟩

theorem members_typeId (h : ∀ s ∈ ss, s ∈ ids) :
    ∃ ts : List CppType, ts.map CppType.typeId = ss := by
  induction ss with
  | nil => exact ⟨[], rfl⟩
  | cons s ss ih =>
    obtain ⟨⟨t, rfl⟩, hss⟩ := List.forall_mem_cons.mp h
    obtain ⟨ts, rfl⟩ := ih hss
    exact ⟨t :: ts, rfl⟩

/-- Each complete type is the type id of some type. -/
theorem complete_mem_ids (h : Complete s) : s ∈ ids := by
  induction h with
  | basic b =>
    obtain ⟨c, rfl⟩ := basic_typeId b
    exact ⟨.basic c, rfl⟩
  | variant => exact ⟨.variant (.basic .bool) [], rfl⟩
  | array s _ ih =>
    obtain ⟨t, rfl⟩ := ih
    exact ⟨.sequence .vector t, rfl⟩
  | dict k s _ ih =>
    obtain ⟨c, rfl⟩ := basic_typeId k
    obtain ⟨t, rfl⟩ := ih
    exact ⟨.associative (.pair (.basic c) t), rfl⟩
  | struct ss hne _ ih =>
    obtain ⟨ts, rfl⟩ := members_typeId ih
    cases ts with
    | nil => exact absurd rfl hne
    | cons t ts =>
      refine ⟨.tuple t ts, ?_⟩
      rw [CppType.typeId, typeIds_eq]
      rfl

theorem complete_splits (h : Complete s) : Splits completes s := by
  obtain ⟨t, rfl⟩ := complete_mem_ids h
  exact fun s hs => typeId_splits t s (complete_mem_ids hs)

theorem completes_decodable : UniquelyDecodable completes := by
  apply uniquelyDecodable_of_splits (fun s hs => complete_splits hs)
  intro hnil
  obtain ⟨c, r, hr, -⟩ := ids_paren [] (complete_mem_ids hnil)
  cases hr

theorem supportedAll_mem (h : SupportedAll ts) (ht : t ∈ ts) : Supported false t := by
  induction ts with
  | nil => cases ht
  | cons u ts ih =>
    rcases List.mem_cons.mp ht with rfl | ht
    · exact h.1
    · exact ih h.2 ht

theorem key_typeId (h : t.isKey = true) : ∃ b : BusType, t.typeId = [b.code] := by
  induction t using induct with
  | basic b => exact ⟨b.busType, rfl⟩
  | enum e he => exact ⟨.string, rfl⟩
  | qualified q t ih => exact ih h
  | sequence | array | associative | pair | tuple | variant => cases h

/-- A type id is a complete type, and so is an array of such elements. -/
theorem typeId_complete (t : CppType) : (Supported false t → Complete t.typeId) ∧
    (Supported true t → Complete ('a' :: t.typeId)) := by
  have both : ∀ {P Q : Prop} {s : List Char}, Complete s →
      (P → Complete s) ∧ (Q → Complete ('a' :: s)) :=
    fun h => ⟨fun _ => h, fun _ => .array _ h⟩
  induction t using induct with
  | basic b => exact both (.basic b.busType)
  | enum e he => exact both (.basic .string)
  | variant t ts => exact both .variant
  | sequence q t ih | array n t ih | associative t ih =>
    exact ⟨fun h => ih.2 h, fun h => .array _ (ih.2 h)⟩
  | pair t u iht ihu =>
    constructor
    · intro h
      cases h.1
    · intro h
      obtain ⟨k, hk⟩ := key_typeId h.2.1
      rw [CppType.typeId, pairId, hk]
      exact .dict k _ (ihu.1 h.2.2)
  | tuple t ts iht ihs =>
    have hcomplete : Supported false (.tuple t ts) → Complete (CppType.tuple t ts).typeId := by
      intro h
      have hmembers : ∀ s ∈ (t :: ts).map CppType.typeId, Complete s := by
        intro s hs
        obtain ⟨u, hu, rfl⟩ := List.mem_map.mp hs
        rcases List.mem_cons.mp hu with rfl | hu
        · exact iht.1 h.1
        · exact (ihs u hu).1 (supportedAll_mem h.2 hu)
      rw [CppType.typeId, typeIds_eq]
      exact .struct _ (by simp) hmembers
    exact ⟨hcomplete, fun h => .array _ (hcomplete h)⟩
  | qualified q t ih => exact ih

theorem typeIdOf_eq : typeIdOf args = CppType.typeIds args ++ [nul] := by
  cases args with
  | nil => rfl
  | cons t ts => rfl

theorem stripEndsArray_eq {c d : Char} :
    stripEndsArray (c :: s ++ [d] ++ [nul]) = some (s ++ [nul]) := by
  have hlen : (c :: s ++ [d] ++ [nul]).length = s.length + 3 := by simp
  have hat : ∀ i < s.length, (c :: s ++ [d] ++ [nul]).getD (1 + i) nul = s.getD i nul := by
    intro i hi
    rw [Nat.add_comm, List.append_assoc, List.cons_append, List.getD_cons_succ]
    simp [List.getD_eq_getElem?_getD, List.getElem?_append_left hi]
  have hrange : (List.range s.length).map (fun i => s.getD i nul) = s := by
    apply List.ext_getElem
    · simp
    · intro i _ hi
      simp [List.getElem?_eq_getElem hi]
  rw [stripEndsArray, hlen, if_neg (by omega), Nat.add_sub_cancel]
  rw [List.map_congr_left fun i hi => hat i (List.mem_range.mp hi), hrange]

/-- What is between the ends of a std::tuple's type id is the type id of its members. -/
theorem argType_eq : argType args = some (typeIdOf args) := by
  rw [argType, tupleTypeId, stripEndsArray_eq, typeIdOf_eq]

/-- The type ids of the supported types. -/
def typeIdSet : Set (List Char) := {s | ∃ t, Supported false t ∧ t.typeId = s}

/-- type_id makes one complete type of the D-Bus grammar of each supported type, which can
be read off a signature in one way only, and register_method makes the same signature of a
std::tuple of the arguments. -/
theorem type_id_well_formed :
    (∀ t, Supported false t → Complete t.typeId) ∧
    (∀ args, (∀ t ∈ args, Supported false t) →
      typeIdOf args = (args.map CppType.typeId).flatten ++ [nul] ∧
        nul ∉ (args.map CppType.typeId).flatten) ∧
    IsAntichain (· <+: ·) typeIdSet ∧ UniquelyDecodable completes ∧
    ∀ args, argType args = some (typeIdOf args) := by
  have hsubset : typeIdSet ⊆ completes := by
    intro s hs
    obtain ⟨t, ht, rfl⟩ := hs
    exact (typeId_complete t).1 ht
  refine ⟨fun t => (typeId_complete t).1, fun args _ => ?_, ?_, completes_decodable,
    fun args => argType_eq⟩
  · rw [typeIdOf_eq, ← typeIds_eq]
    exact ⟨rfl, nul_typeIds (fun t _ => nul_typeId t)⟩
  · exact (antichain_of_splits fun s hs => complete_splits hs).subset hsubset

/-- A map from strings to arrays of variants, as it is given to register_method. -/
def mapType : CppType :=
  .associative (.pair (.qualified .const (.basic .string))
    (.sequence .vector (.variant (.basic .int32) [.basic .string])))

theorem type_id_well_formed_map :
    Complete ['a', '{', 's', 'a', 'v', '}'] ∧
      typeIdOf [mapType, mapType] = mapType.typeId ++ (mapType.typeId ++ [nul]) ∧
      argType [] = some [nul] := by
  obtain ⟨hcomplete, hconcat, -, -, harg⟩ := type_id_well_formed
  have hmap : Supported false mapType := ⟨rfl, rfl, trivial⟩
  have hmaps : ∀ t ∈ [mapType, mapType], Supported false t := by simpa using hmap
  exact ⟨hcomplete mapType hmap, (hconcat _ hmaps).1, harg []⟩

end Sdbusplus.Proofs.Signature
