import Mathlib.Algebra.Group.Nat.Defs
import Mathlib.Data.List.Basic
import Mathlib.Data.Nat.Init

/-! Values that are kept in memory as a fixed number of bytes each. -/

/-- How values of a type are laid out in so many bytes. -/
structure Layout (α : Type) (size : Nat) where
  bytes : α → List UInt8
  value : List UInt8 → α
  length_bytes : ∀ a, (bytes a).length = size
  value_bytes : ∀ a, value (bytes a) = a

namespace Layout

variable {α : Type} {size : Nat} (L : Layout α size) (xs : List α)

/-- The memory of contiguous elements. -/
def memory : List UInt8 := xs.flatMap L.bytes

/-- The elements from a pointer p up to p + sizeInBytes / size. -/
def elements (p : List UInt8) (sizeInBytes : Nat) : List α :=
  (List.range (sizeInBytes / size)).map (fun i => L.value ((p.drop (i * size)).take size))

theorem memory_cons (x : α) : L.memory (x :: xs) = L.bytes x ++ L.memory xs := List.flatMap_cons

theorem length_memory : (L.memory xs).length = xs.length * size := by
  induction xs with
  | nil => simp [memory]
  | cons x xs ih =>
    rw [memory_cons, List.length_append, ih, L.length_bytes, List.length_cons, Nat.succ_mul,
      Nat.add_comm]

theorem drop_memory (i : Nat) : (L.memory xs).drop (i * size) = L.memory (xs.drop i) := by
  induction xs generalizing i with
  | nil => simp [memory]
  | cons x xs ih =>
    cases i with
    | zero => simp
    | succ i =>
      rw [memory_cons, Nat.succ_mul, Nat.add_comm, ← List.drop_drop, List.drop_succ_cons, ← ih,
        List.drop_left' (L.length_bytes x)]

theorem element_memory {i : Nat} (hi : i < xs.length) :
    L.value (((L.memory xs).drop (i * size)).take size) = xs[i] := by
  rw [drop_memory, List.drop_eq_getElem_cons hi, memory_cons,
    List.take_left' (L.length_bytes xs[i]), L.value_bytes]

/-- The size in bytes of some elements stands for just these elements. -/
theorem elements_memory (hsize : 0 < size) :
    L.elements (L.memory xs) (xs.length * size) = xs := by
  rw [elements, Nat.mul_div_cancel _ hsize]
  apply List.ext_getElem
  · simp
  · intro i _ hi
    rw [List.getElem_map, List.getElem_range]
    exact L.element_memory xs hi

section littleEndian

def digits : Nat → Nat → List UInt8
  | 0, _ => []
  | n + 1, v => UInt8.ofNat v :: digits n (v / 256)

def number : List UInt8 → Nat
  | [] => 0
  | b :: bs => b.toNat + 256 * number bs

theorem length_digits (n v : Nat) : (digits n v).length = n := by
  induction n generalizing v with
  | zero => rfl
  | succ n ih => rw [digits, List.length_cons, ih]

theorem number_digits (n v : Nat) : number (digits n v) = v % 256 ^ n := by
  induction n generalizing v with
  | zero => rw [digits, number, Nat.pow_zero, Nat.mod_one]
  | succ n ih =>
    have hlow : (UInt8.ofNat v).toNat = v % 256 := UInt8.toNat_ofNat
    rw [digits, number, ih, hlow, Nat.pow_succ, Nat.mul_comm (256 ^ n), Nat.mod_mul]

/-- Integers with the lowest byte first. -/
def littleEndian (n : Nat) : Layout (BitVec (8 * n)) n where
  bytes v := digits n v.toNat
  value s := BitVec.ofNat (8 * n) (number s)
  length_bytes v := length_digits n v.toNat
  value_bytes v := by
    have hpow : 256 ^ n = 2 ^ (8 * n) := by rw [Nat.pow_mul]
    rw [number_digits, hpow, Nat.mod_eq_of_lt v.isLt, BitVec.ofNat_toNat, BitVec.setWidth_eq]

end littleEndian

end Layout
