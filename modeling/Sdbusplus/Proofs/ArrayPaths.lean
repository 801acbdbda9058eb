import Sdbusplus.Base.Layout
import Sdbusplus.Proofs.RoundTrip

namespace Sdbusplus.Proofs.ArrayPaths
open Message Proofs.Append Proofs.Exactness Proofs.Read Proofs.RoundTrip

variable {lib : LibSystemd} {h : HashOrder} {b : Basic} {k : Option Kind} {rest : List Wire}
  {outer : List (Option Kind × List Wire)}

/-- The array of a message that holds these elements. -/
def arrayOf (b : Basic) (xs : List b.Val) : Wire :=
  .container .array [b.busType.code] (xs.map (.basic b.busType))

theorem storable_number (hb : b.canAppendArray = true) (v : b.Val) : b.Storable lib v := by
  cases b <;> trivial

theorem encode_elements (xs : List b.Val) :
    Wire.container .array (contents (typeId (.basic b))) (xs.map (encode (.basic b))) =
      arrayOf b xs := by
  rw [contents_basic]
  rfl

/-- Both ways of appending write the same array. -/
theorem sequence_writes (hb : b.canAppendArray = true) (q : Sequence) (xs : List b.Val) :
    Writes lib (append (.sequence q (.basic b)) xs) (arrayOf b xs) := by
  rw [← encode_elements]
  exact append_writes (t := .sequence q (.basic b)) xs (fun x _ => storable_number hb x)

theorem array_writes (hb : b.canAppendArray = true) (n : Nat)
    (xs : { xs : List b.Val // xs.length = n }) :
    Writes lib (append (.array n (.basic b)) xs) (arrayOf b xs.val) := by
  rw [← encode_elements]
  exact append_writes (t := .array n (.basic b)) xs (fun x _ => storable_number hb x)

/-- Both ways of reading put the elements behind those that were there. -/
theorem sequence_reads (q : Sequence) (out xs : List b.Val) :
    read h (.sequence q (.basic b)) out ⟨k, arrayOf b xs :: rest, outer⟩ =
      .ok (out ++ xs, ⟨k, rest, outer⟩) := by
  have heach : Each b.Denotes (xs.map (.basic b.busType)) xs :=
    List.forall₂_map_left_iff.mpr (List.forall₂_same.mpr fun x _ => rfl)
  have hdenotes : Denotes h (.sequence q (.basic b)) out [arrayOf b xs] (out ++ xs) := by
    refine ⟨xs.map (.basic b.busType), ?_, xs, heach, (foldl_snoc out xs).symm⟩
    rw [contents_basic]
    rfl
  have hexact := read_exact h (.sequence q (.basic b)) out k (arrayOf b xs :: rest)
    (fun _ => List.cons_ne_nil _ _)
  exact (hexact outer _ _).mpr ⟨[arrayOf b xs], rest, rfl, hdenotes, rfl⟩

/-- Which containers go through memory in one piece. -/
structure Selected (b : Basic) (h : HashOrder) (xs out : List b.Val) : Prop where
  appendBulk : append (.sequence .vector (.basic b)) xs =
    [.appendArray b.busType xs (xs.length * b.busType.size)]
  appendEach (q : Sequence) (other : q ≠ .vector) : append (.sequence q (.basic b)) xs =
    .openContainer .array [b.busType.code] :: xs.flatMap (append (.basic b)) ++ [.closeContainer]
  readBulk : read h (.sequence .vector (.basic b)) out = readArrayOneShot b out
  readEach (q : Sequence) (other : q ≠ .vector) : read h (.sequence q (.basic b)) out =
    readEmplaceBack ['a', b.busType.code] (readBasic b b.busType.default) out

theorem selected (hb : b.canAppendArray = true) (xs out : List b.Val) : Selected b h xs out where
  appendBulk := if_pos hb
  appendEach q other := by
    rw [← contents_basic]
    cases q with
    | vector => exact absurd rfl other
    | deque | list => rfl
  readBulk := if_pos hb
  readEach q other := by
    cases q with
    | vector => exact absurd rfl other
    | deque | list => rfl

/-- For the types that sd-bus copies arrays of, it does not matter on which side an array
goes through memory in one piece and on which element by element: the bytes are the same,
and so is the array in the message, and each way of reading gives back the elements. -/
theorem array_paths_agree (hb : b.canAppendArray = true) (xs out : List b.Val) :
    (∀ h, Selected b h xs out) ∧
    (∀ L : Layout b.Val b.busType.size,
      (L.memory xs).take (xs.length * b.busType.size) = xs.flatMap L.bytes ∧
        L.elements (xs.flatMap L.bytes) (xs.flatMap L.bytes).length = xs) ∧
    (∀ (lib : LibSystemd) (w : Writer) (q : Sequence),
      lib.performAll w (append (.sequence q (.basic b)) xs) = w.push (arrayOf b xs) ∧
      lib.performAll w (append (.array xs.length (.basic b)) ⟨xs, rfl⟩) =
        w.push (arrayOf b xs)) ∧
    (∀ h q k rest outer, read h (.sequence q (.basic b)) out ⟨k, arrayOf b xs :: rest, outer⟩ =
      .ok (out ++ xs, ⟨k, rest, outer⟩)) ∧
    ∀ (lib : LibSystemd) (h : HashOrder) (q q' : Sequence), read h (.sequence q' (.basic b)) []
      (Cursor.start (lib.performAll .empty (append (.sequence q (.basic b)) xs)).items) =
        .ok (xs, Cursor.start []) := by
  refine ⟨fun h => selected hb xs out, fun L => ⟨?_, ?_⟩,
    fun lib w q => ⟨sequence_writes hb q xs w, array_writes hb _ ⟨xs, rfl⟩ w⟩,
    fun h q k rest outer => sequence_reads q out xs, fun lib h q q' => ?_⟩
  · rw [← L.length_memory xs, List.take_length]
    rfl
  · have hlen : (xs.flatMap L.bytes).length = xs.length * b.busType.size := L.length_memory xs
    rw [hlen]
    exact L.elements_memory xs (Basic.size_pos hb)
  · rw [sequence_writes hb q xs .empty]
    exact sequence_reads q' [] xs

/-- Two numbers of sixteen bits behind a third one. -/
theorem array_paths_agree_uint16 :
    (∀ q, read newestFirst (.sequence q (.basic .uint16)) [3#16]
        ⟨none, [arrayOf .uint16 [1#16, 2#16]], []⟩ = .ok ([3#16, 1#16, 2#16], ⟨none, [], []⟩)) ∧
    (Layout.littleEndian 2).elements [1, 0, 2, 0] 4 = [1#16, 2#16] := by
  have hb : Basic.uint16.canAppendArray = true := rfl
  obtain ⟨-, hbytes, -, hread, -⟩ := array_paths_agree hb [1#16, 2#16] [3#16]
  exact ⟨fun q => hread newestFirst q none [] [], (hbytes (Layout.littleEndian 2)).2⟩

end Sdbusplus.Proofs.ArrayPaths
