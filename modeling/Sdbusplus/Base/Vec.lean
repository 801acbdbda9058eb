/-- A vector whose elements have addresses: an element stays where it is until the
storage of the vector is replaced. -/
structure Vec (α : Type) where
  elements : List α
  capacity : Nat
  /-- How often the storage was replaced. -/
  generation : Nat
  fits : elements.length ≤ capacity

namespace Vec

variable {α : Type} {v w : Vec α} {a : α} {as : List α} {n : Nat}

/-- The place of an element. -/
structure Addr where
  generation : Nat
  index : Nat
  deriving DecidableEq, Repr

def empty : Vec α := ⟨[], 0, 0, Nat.le_refl 0⟩

def size (v : Vec α) : Nat := v.elements.length

def addr (v : Vec α) (i : Nat) : Addr := ⟨v.generation, i⟩

/-- The address belongs to an element that is still there. -/
def Live (v : Vec α) (p : Addr) : Prop := p.generation = v.generation ∧ p.index < v.size

def reserve (v : Vec α) (n : Nat) : Vec α :=
  if h : n ≤ v.capacity then v
  else ⟨v.elements, n, v.generation + 1, Nat.le_trans v.fits (Nat.le_of_lt (Nat.lt_of_not_le h))⟩

/-- The storage doubles when there is no room. -/
def emplaceBack (v : Vec α) (a : α) : Vec α :=
  if h : v.elements.length < v.capacity then
    ⟨v.elements ++ [a], v.capacity, v.generation, by
      rw [List.length_append, List.length_singleton]
      exact h⟩
  else
    ⟨v.elements ++ [a], v.elements.length + max v.elements.length 1, v.generation + 1, by
      simp only [List.length_append, List.length_singleton]
      omega⟩

def shrinkToFit (v : Vec α) : Vec α :=
  if v.capacity = v.elements.length then v
  else ⟨v.elements, v.elements.length, v.generation + 1, Nat.le_refl _⟩

def emplaceAll (v : Vec α) (as : List α) : Vec α := as.foldl emplaceBack v

@[simp] theorem elements_empty : (empty : Vec α).elements = [] := rfl

@[simp] theorem elements_reserve : (v.reserve n).elements = v.elements := by
  unfold reserve
  split <;> rfl

@[simp] theorem elements_emplaceBack : (v.emplaceBack a).elements = v.elements ++ [a] := by
  unfold emplaceBack
  split <;> rfl

@[simp] theorem elements_shrinkToFit : v.shrinkToFit.elements = v.elements := by
  unfold shrinkToFit
  split <;> rfl

@[simp] theorem elements_emplaceAll : (v.emplaceAll as).elements = v.elements ++ as := by
  induction as generalizing v with
  | nil => simp [emplaceAll]
  | cons a as ih =>
    have hstep : v.emplaceAll (a :: as) = (v.emplaceBack a).emplaceAll as := rfl
    rw [hstep, ih, elements_emplaceBack, List.append_assoc, List.singleton_append]

@[simp] theorem size_emplaceBack : (v.emplaceBack a).size = v.size + 1 := by
  simp [size]

@[simp] theorem size_shrinkToFit : v.shrinkToFit.size = v.size := by
  simp [size]

/-- There is no room left. -/
def Tight (v : Vec α) : Prop := v.capacity = v.elements.length

theorem shrinkToFit_tight : v.shrinkToFit.Tight := by
  unfold shrinkToFit
  split
  · rename_i h
    exact h
  · rfl

theorem shrinkToFit_of_tight (h : v.Tight) : v.shrinkToFit = v := if_pos h

/-- What became of a tight vector: it is as it was, or it has more elements. -/
structure Grows (v w : Vec α) : Prop where
  tight : v.Tight
  grown : w = v ∨ v.size < w.size

theorem Grows.refl (h : v.Tight) : Grows v v := ⟨h, .inl rfl⟩

theorem Grows.emplaceBack (h : Grows v w) : Grows v (w.emplaceBack a) := by
  refine ⟨h.tight, .inr ?_⟩
  rw [size_emplaceBack]
  rcases h.grown with rfl | hlt
  · exact Nat.lt_succ_self _
  · exact Nat.lt_succ_of_lt hlt

theorem Grows.shrinkToFit (h : Grows v w) : Grows v w.shrinkToFit := by
  refine ⟨h.tight, ?_⟩
  rcases h.grown with rfl | hlt
  · exact .inl (shrinkToFit_of_tight h.tight)
  · right
    rwa [size_shrinkToFit]

theorem Grows.size_le (h : Grows v w) : v.size ≤ w.size := by
  rcases h.grown with rfl | hlt
  · exact Nat.le_refl _
  · exact Nat.le_of_lt hlt

theorem Grows.eq_of_size (h : Grows v w) (hs : v.size = w.size) : w = v := by
  rcases h.grown with heq | hlt
  · exact heq
  · omega

end Vec
