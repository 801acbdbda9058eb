import Mathlib.Algebra.Group.Nat.Defs
import Sdbusplus.Message.Bus

namespace Sdbusplus.Message

/-- The C++ types with a basic D-Bus type. -/
inductive Basic
  | bool
  | uint8
  | uint16
  | int16
  | uint32
  | int32
  | uint64
  | int64
  | double
  | string
  | stringView
  | cString
  | objectPath
  | signature
  | unixFd
  deriving DecidableEq, Repr

def Basic.busType : Basic → BusType
  | .bool => .boolean
  | .uint8 => .byte
  | .uint16 => .uint16
  | .int16 => .int16
  | .uint32 => .uint32
  | .int32 => .int32
  | .uint64 => .uint64
  | .int64 => .int64
  | .double => .double
  | .string | .stringView | .cString => .string
  | .objectPath => .objectPath
  | .signature => .signature
  | .unixFd => .unixFd

abbrev Basic.Val (b : Basic) : Type := b.busType.Data

/-- The types of which can_append_array_value lets arrays be copied at once. -/
def Basic.canAppendArray : Basic → Bool
  | .uint8 | .int16 | .uint16 | .int32 | .uint32 | .int64 | .uint64 | .double => true
  | .bool | .string | .stringView | .cString | .objectPath | .signature | .unixFd => false

/-- The value a default-initialised object is taken to have. -/
def BusType.default : (t : BusType) → t.Data
  | .boolean => false
  | .byte => 0#8
  | .int16 | .uint16 => 0#16
  | .int32 | .uint32 | .unixFd => 0#32
  | .int64 | .uint64 | .double => 0#64
  | .string | .objectPath | .signature => []

/-- The byte '.' between the parts of a D-Bus name. -/
def dot : UInt8 := 46

/-- An enum of a generated interface header. The names it is made of are
identifiers, so no dot is in them. -/
structure GeneratedEnum where
  interface : Bytes
  name : Bytes
  values : List Bytes
  nonempty : values ≠ []
  distinct : values.Nodup
  name_plain : dot ∉ name
  values_plain : ∀ v ∈ values, dot ∉ v

abbrev GeneratedEnum.Val (e : GeneratedEnum) : Type := Fin e.values.length

/-- The name in the mapping array, `interface.name.value`. -/
def GeneratedEnum.wireName (e : GeneratedEnum) (v : Bytes) : Bytes :=
  e.interface ++ dot :: e.name ++ dot :: v

def GeneratedEnum.default (e : GeneratedEnum) : e.Val :=
  ⟨0, List.length_pos_iff.mpr e.nonempty⟩

/-- Keys of sets and maps. Pointers compare by address, so they are left out. -/
inductive Key
  | basic (b : Basic) (comparable : b ≠ .cString)
  | enum (e : GeneratedEnum)

def Key.Val : Key → Type
  | .basic b _ => b.Val
  | .enum e => e.Val

/-- The number a double stands for, up to order; NaN has none. -/
def doubleRank (v : BitVec 64) : Option Int :=
  let magnitude : Nat := v.toNat % 2 ^ 63
  if magnitude > 0x7ff0000000000000 then none
  else some (if v.toNat < 2 ^ 63 then (magnitude : Int) else -(magnitude : Int))

def doubleLess (x y : BitVec 64) : Bool :=
  match doubleRank x, doubleRank y with
  | some a, some b => a < b
  | _, _ => false

def doubleSame (x y : BitVec 64) : Bool :=
  match doubleRank x, doubleRank y with
  | some a, some b => a = b
  | _, _ => false

/-- std::char_traits<char> compares bytes as unsigned. -/
def textLess (x y : Bytes) : Bool := decide (x.map UInt8.toNat < y.map UInt8.toNat)

/-- operator< of the C++ type. -/
def Basic.less : (b : Basic) → b.Val → b.Val → Bool
  | .bool, x, y => !x && y
  | .uint8, x, y => x.toNat < y.toNat
  | .uint16, x, y | .uint32, x, y | .uint64, x, y => x.toNat < y.toNat
  | .int16, x, y | .int32, x, y | .int64, x, y | .unixFd, x, y => x.toInt < y.toInt
  | .double, x, y => doubleLess x y
  | .string, x, y | .stringView, x, y | .cString, x, y | .objectPath, x, y
  | .signature, x, y => textLess x y

/-- operator== of the C++ type. -/
def Basic.same : (b : Basic) → b.Val → b.Val → Bool
  | .double, x, y => doubleSame x y
  | .bool, x, y | .uint8, x, y | .uint16, x, y | .int16, x, y | .uint32, x, y | .int32, x, y
  | .uint64, x, y | .int64, x, y | .string, x, y | .stringView, x, y | .cString, x, y
  | .objectPath, x, y | .signature, x, y | .unixFd, x, y => decide (x = y)

/-- std::set and std::map, or their unordered forms. -/
inductive Order
  | sorted
  | hashed
  deriving DecidableEq, Repr

def Key.less : (k : Key) → k.Val → k.Val → Bool
  | .basic b _, x, y => b.less x y
  | .enum _, x, y => x.val < y.val

def Key.same : (k : Key) → k.Val → k.Val → Bool
  | .basic b _, x, y => b.same x y
  | .enum _, x, y => x.val = y.val

/-- A key that comes before another one in a container. -/
def Key.apart (k : Key) : Order → k.Val → k.Val → Bool
  | .sorted, x, y => k.less x y
  | .hashed, x, y => !k.same x y

def Key.default : (k : Key) → k.Val
  | .basic b _ => b.busType.default
  | .enum e => e.default

/-- The sequences, which differ in whether their elements are contiguous. -/
inductive Sequence
  | vector
  | deque
  | list
  deriving DecidableEq, Repr

/-- The C++ types that append and read are instantiated with. A std::variant has
at least one alternative. -/
inductive Ty
  | basic (b : Basic)
  | enum (e : GeneratedEnum)
  | monostate
  | sequence (q : Sequence) (t : Ty)
  | array (n : Nat) (t : Ty)
  | set (o : Order) (k : Key)
  | map (o : Order) (k : Key) (t : Ty)
  | pair (t u : Ty)
  | tuple (ts : List Ty)
  | variant (t : Ty) (ts : List Ty)

mutual

/-- The values of a type. The keys of a set or map are listed in iteration order. -/
def Ty.Val : Ty → Type
  | .basic b => b.Val
  | .enum e => e.Val
  | .monostate => Unit
  | .sequence _ t => List t.Val
  | .array n t => { xs : List t.Val // xs.length = n }
  | .set o k => { xs : List k.Val // xs.Pairwise (fun x y => k.apart o x y) }
  | .map o k t => { xs : List (k.Val × t.Val) // xs.Pairwise (fun x y => k.apart o x.1 y.1) }
  | .pair t u => t.Val × u.Val
  | .tuple ts => TupleVal ts
  | .variant t ts => t.Val ⊕ VariantVal ts

def TupleVal : List Ty → Type
  | [] => Unit
  | t :: ts => t.Val × TupleVal ts

/-- The alternative held, by its position. -/
def VariantVal : List Ty → Type
  | [] => Empty
  | t :: ts => t.Val ⊕ VariantVal ts

end

mutual

/-- The default-constructed value. -/
def Ty.default : (t : Ty) → t.Val
  | .basic b => b.busType.default
  | .enum e => e.default
  | .monostate => ()
  | .sequence _ _ => []
  | .array n t => ⟨List.replicate n t.default, List.length_replicate⟩
  | .set _ _ => ⟨[], .nil⟩
  | .map _ _ _ => ⟨[], .nil⟩
  | .pair t u => (t.default, u.default)
  | .tuple ts => tupleDefault ts
  | .variant t _ => .inl t.default

def tupleDefault : (ts : List Ty) → TupleVal ts
  | [] => ()
  | t :: ts => (t.default, tupleDefault ts)

end

def Key.code : Key → Char
  | .basic b _ => b.busType.code
  | .enum _ => BusType.string.code

/-- The character '\0'. -/
def nul : Char := Char.ofNat 0

/-- The type id of a std::pair of types with these ids. -/
def pairId (first second : List Char) : List Char := '{' :: first ++ second ++ ['}']

mutual

/-- types::type_id without the terminator that it adds. -/
def typeId : Ty → List Char
  | .basic b => [b.busType.code]
  | .enum _ => [BusType.string.code]
  | .monostate => [nul]
  | .sequence _ t => 'a' :: typeId t
  | .array _ t => 'a' :: typeId t
  | .set _ k => ['a', k.code]
  | .map _ k t => 'a' :: pairId [k.code] (typeId t)
  | .pair t u => pairId (typeId t) (typeId u)
  | .tuple ts => '(' :: typeIds ts ++ [')']
  | .variant _ _ => ['v']

def typeIds : List Ty → List Char
  | [] => []
  | t :: ts => typeId t ++ typeIds ts

end

/-- A character array as the C string that libsystemd takes it for. -/
def asCString (s : List Char) : List Char := s.takeWhile (fun c => c ≠ nul)

/-- type_id of types with these ids one after the other, as a C string. -/
def contents (id : List Char) : List Char := asCString (id ++ [nul])

theorem plain_cons {c : Char} {id : List Char} (hc : nul ≠ c) (h : nul ∉ id) : nul ∉ c :: id := by
  rw [List.mem_cons, not_or]
  exact ⟨hc, h⟩

theorem plain_append {id id' : List Char} (h : nul ∉ id) (h' : nul ∉ id') : nul ∉ id ++ id' := by
  rw [List.mem_append, not_or]
  exact ⟨h, h'⟩

/-- A type id in brackets. -/
theorem plain_brackets {c c' : Char} {id : List Char} (hc : nul ≠ c) (h : nul ∉ id)
    (hc' : nul ≠ c') : nul ∉ c :: id ++ [c'] :=
  plain_append (plain_cons hc h) (plain_cons hc' List.not_mem_nil)

theorem plain_pairId {id id' : List Char} (h : nul ∉ id) (h' : nul ∉ id') :
    nul ∉ pairId id id' :=
  plain_brackets (by decide) (plain_append h h') (by decide)

/-- A type id without NUL is its own C string. -/
theorem contents_of_plain {id : List Char} (h : nul ∉ id) : contents id = id := by
  have hplain : ∀ c ∈ id, decide (c ≠ nul) = true := by
    intro c hc
    refine decide_eq_true fun he => ?_
    exact h (he ▸ hc)
  rw [contents, asCString, List.takeWhile_append_of_pos hplain]
  exact List.append_nil _

theorem contents_basic {b : Basic} : contents (typeId (.basic b)) = [b.busType.code] := by
  cases b <;> rfl

theorem Basic.size_pos {b : Basic} (h : b.canAppendArray = true) : 0 < b.busType.size := by
  cases b <;> first | decide | cases h

/-- The alternatives whose string on the bus is left to convert_from_string. -/
def Ty.isEnumOrString : Ty → Bool
  | .enum _ | .basic .string => true
  | _ => false

end Sdbusplus.Message
