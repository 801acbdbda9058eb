import Mathlib.Order.Defs.LinearOrder
import Mathlib.Data.String.Basic

/-! Maps as lists of entries in the order of their keys, so that equal maps are equal
lists. -/

namespace SortedMap

variable {K V : Type} [LinearOrder K] {k l : K} {v : V} {m n : List (K × V)}

/-- An entry under the key, in place of the one that is there. -/
def insert (k : K) (v : V) : List (K × V) → List (K × V)
  | [] => [(k, v)]
  | (l, w) :: m =>
    if k < l then (k, v) :: (l, w) :: m
    else if l < k then (l, w) :: insert k v m
    else (k, v) :: m

def find? (k : K) : List (K × V) → Option V
  | [] => none
  | (l, w) :: m => if l = k then some w else find? k m

def Sorted (m : List (K × V)) : Prop := m.Pairwise (fun a b => a.1 < b.1)

theorem sorted_nil : Sorted ([] : List (K × V)) := List.Pairwise.nil

theorem find?_insert_same : find? k (insert k v m) = some v := by
  induction m with
  | nil => simp [insert, find?]
  | cons e m ih =>
    obtain ⟨l, w⟩ := e
    rw [insert]
    split
    · simp [find?]
    · split
      · rename_i _ hlt
        rw [find?, if_neg (ne_of_lt hlt), ih]
      · simp [find?]

theorem find?_insert_other (h : k ≠ l) : find? l (insert k v m) = find? l m := by
  induction m with
  | nil => simp [insert, find?, h]
  | cons e m ih =>
    obtain ⟨i, w⟩ := e
    rw [insert]
    split
    · rw [find?, if_neg h]
    · split
      · rw [find?, find?, ih]
      · rename_i hlt hgt
        have heq : i = k := le_antisymm (not_lt.mp hlt) (not_lt.mp hgt)
        rw [find?, find?, if_neg h, heq, if_neg h]

theorem mem_insert {e : K × V} (h : e ∈ insert k v m) : e = (k, v) ∨ e ∈ m := by
  induction m with
  | nil => exact .inl (List.mem_singleton.mp h)
  | cons d m ih =>
    obtain ⟨l, w⟩ := d
    rw [insert] at h
    split at h
    · exact List.mem_cons.mp h
    · split at h
      · rcases List.mem_cons.mp h with rfl | h
        · exact .inr List.mem_cons_self
        · exact (ih h).imp id (List.mem_cons_of_mem _)
      · exact (List.mem_cons.mp h).imp id (List.mem_cons_of_mem _)

theorem Sorted.insert (h : Sorted m) : Sorted (insert k v m) := by
  induction m with
  | nil => exact List.pairwise_singleton ..
  | cons d m ih =>
    obtain ⟨l, w⟩ := d
    obtain ⟨hhead, htail⟩ := List.pairwise_cons.mp h
    rw [SortedMap.insert]
    split
    · rename_i hlt
      refine List.pairwise_cons.mpr ⟨fun e he => ?_, h⟩
      rcases List.mem_cons.mp he with rfl | he
      · exact hlt
      · exact hlt.trans (hhead e he)
    · split
      · rename_i _ hgt
        refine List.pairwise_cons.mpr ⟨fun e he => ?_, ih htail⟩
        rcases mem_insert he with rfl | he
        · exact hgt
        · exact hhead e he
      · rename_i hlt hgt
        have heq : l = k := le_antisymm (not_lt.mp hlt) (not_lt.mp hgt)
        exact List.pairwise_cons.mpr ⟨fun e he => heq ▸ hhead e he, htail⟩

theorem find?_none_of_lt (h : ∀ e ∈ m, k < e.1) : find? k m = none := by
  induction m with
  | nil => rfl
  | cons d m ih =>
    obtain ⟨l, w⟩ := d
    rw [find?, if_neg (ne_of_gt (h (l, w) List.mem_cons_self))]
    exact ih (fun e he => h e (List.mem_cons_of_mem _ he))

/-- Maps that find the same are the same. -/
theorem Sorted.ext (hm : Sorted m) (hn : Sorted n) (h : ∀ k, find? k m = find? k n) : m = n := by
  induction m generalizing n with
  | nil =>
    cases n with
    | nil => rfl
    | cons e n =>
      have hfirst := h e.1
      simp [find?] at hfirst
  | cons d m ih =>
    cases n with
    | nil =>
      have hfirst := h d.1
      simp [find?] at hfirst
    | cons e n =>
      obtain ⟨i, v⟩ := d
      obtain ⟨j, w⟩ := e
      obtain ⟨hd, hmrest⟩ := List.pairwise_cons.mp hm
      obtain ⟨he, hnrest⟩ := List.pairwise_cons.mp hn
      -- The smaller of the two first keys would be missing from the other map.
      have hij : i = j := by
        rcases lt_trichotomy i j with hlt | heq | hgt
        · have hi := h i
          rw [find?, if_pos rfl, find?, if_neg (ne_of_gt hlt),
            find?_none_of_lt (fun e hmem => hlt.trans (he e hmem))] at hi
          cases hi
        · exact heq
        · have hj := h j
          rw [find?, if_neg (ne_of_gt hgt), find?, if_pos rfl,
            find?_none_of_lt (fun e hmem => hgt.trans (hd e hmem))] at hj
          cases hj
      subst hij
      have hv := h i
      rw [find?, if_pos rfl, find?, if_pos rfl] at hv
      rw [Option.some.inj hv]
      congr 1
      refine ih hmrest hnrest (fun k => ?_)
      by_cases hk : i = k
      · subst hk
        rw [find?_none_of_lt hd, find?_none_of_lt he]
      · have hrest := h k
        rwa [find?, if_neg hk, find?, if_neg hk] at hrest

/-- Entries inserted one after the other. -/
def insertAll (m : List (K × V)) (es : List (K × V)) : List (K × V) :=
  es.foldl (fun m e => insert e.1 e.2 m) m

/-- The last entry under a key. -/
def lastOf (k : K) : List (K × V) → Option V
  | [] => none
  | (l, w) :: es => (lastOf k es).or (if l = k then some w else none)

theorem Sorted.insertAll (h : Sorted m) (es : List (K × V)) : Sorted (insertAll m es) := by
  induction es generalizing m with
  | nil => exact h
  | cons e es ih => exact ih h.insert

theorem find?_insertAll (es : List (K × V)) :
    find? k (insertAll m es) = (lastOf k es).or (find? k m) := by
  induction es generalizing m with
  | nil => rfl
  | cons e es ih =>
    obtain ⟨l, w⟩ := e
    rw [insertAll, List.foldl_cons, ← insertAll, ih, lastOf, Option.or_assoc]
    congr 1
    by_cases hl : l = k
    · subst hl
      rw [find?_insert_same, if_pos rfl, Option.some_or]
    · rw [find?_insert_other hl, if_neg hl, Option.none_or]

end SortedMap
