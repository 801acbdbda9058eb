import Sdbusplus.Async.Barrier

namespace Sdbusplus.Proofs.Barrier
open Async Async.Barrier

variable {b : Barrier} {s t : State} {e : Event} {k : Nat}

/-- The arrivals of the k-th generation, counted from 0. -/
def generation (b : Barrier) (k : Nat) : List Nat := List.range' (k * b.count) b.count

/-- Every generation is released as a whole, and every arrival waits, is still to
be completed by the loop of its generation, or was completed, just once. -/
structure Generations (b : Barrier) (s : State) : Prop where
  arrivals : s.arrivals = s.released.length * b.count + s.waiters.length
  waiting : s.waiters = List.range' (s.released.length * b.count) s.waiters.length
  few : s.waiters.length < b.count
  batches : ∀ k batch, s.released[k]? = some batch → batch.tasks = generation b k
  places : (s.completed ++ s.released.flatMap Batch.pending).Perm
    (List.range (s.released.length * b.count))

theorem waiters_start (h : Generations b s) :
    s.waiters ++ [s.arrivals] =
      List.range' (s.released.length * b.count) (s.waiters.length + 1) := by
  rw [List.range'_concat, ← h.waiting, h.arrivals, Nat.one_mul]

/-- The start() that completes a generation. -/
theorem release_generations (h : Generations b s) (hfull : s.waiters.length + 1 = b.count) :
    Generations b { s with
      arrivals := s.arrivals + 1
      waiters := []
      released := s.released ++ [⟨s.waiters ++ [s.arrivals], 0⟩] } := by
  have hnew : s.waiters ++ [s.arrivals] = generation b s.released.length := by
    rw [waiters_start h, hfull]
    rfl
  have hlength : (s.released ++ [(⟨s.waiters ++ [s.arrivals], 0⟩ : Batch)]).length * b.count =
      s.released.length * b.count + b.count := by
    rw [List.length_append, List.length_singleton, Nat.succ_mul]
  constructor
  case arrivals =>
    have harr := h.arrivals
    rw [hlength]
    change s.arrivals + 1 = s.released.length * b.count + b.count + 0
    omega
  case waiting => rfl
  case few => exact b.positive
  case batches =>
    intro k batch hk
    rcases Nat.lt_or_ge k s.released.length with hlt | hge
    · rw [List.getElem?_append_left hlt] at hk
      exact h.batches k batch hk
    · rw [List.getElem?_append_right hge] at hk
      obtain ⟨hz, hb⟩ := List.getElem?_eq_some_iff.mp hk
      have hk : k = s.released.length := by
        rw [List.length_singleton] at hz
        omega
      subst hk
      simp only [Nat.sub_self, List.getElem_cons_zero] at hb
      rw [← hb]
      exact hnew
  case places =>
    rw [hlength, List.flatMap_append, ← List.append_assoc, List.range_add]
    refine h.places.append ?_
    simp [Batch.pending, hnew, generation, List.range'_eq_map_range]

theorem start_generations (h : Generations b s) : Generations b (start b s) := by
  unfold start
  dsimp only
  split
  · rename_i hge
    apply release_generations h
    have hfew := h.few
    rw [List.length_append, List.length_singleton] at hge
    omega
  · rename_i hlt
    have hwait := waiters_start h
    rw [List.length_append, List.length_singleton] at hlt
    constructor
    case arrivals =>
      rw [List.length_append, List.length_singleton, h.arrivals]
      rfl
    case waiting =>
      rw [List.length_append, List.length_singleton]
      exact hwait
    case few =>
      rw [List.length_append, List.length_singleton]
      omega
    case batches => exact h.batches
    case places => exact h.places

/-- Of all the pending lists only the one of the k-th batch gets shorter. -/
theorem pending_set {released : List Batch} {batch batch' : Batch} {task : Nat}
    (hk : released[k]? = some batch) (hp : batch.pending = task :: batch'.pending) :
    (released.flatMap Batch.pending).Perm
      (task :: (released.set k batch').flatMap Batch.pending) := by
  induction released generalizing k with
  | nil => cases hk
  | cons first released ih =>
    cases k with
    | zero =>
      cases hk
      simp [hp]
    | succ k =>
      have hrest := ih hk
      simp only [List.set_cons_succ, List.flatMap_cons]
      exact (hrest.append_left first.pending).trans List.perm_middle

theorem complete_generations (h : Generations b s) (hs : complete k s = some t) :
    Generations b t := by
  unfold complete at hs
  split at hs
  · cases hs
  · rename_i batch hk
    split at hs
    · cases hs
    · rename_i task htask
      cases hs
      have hnext : batch.pending = task :: Batch.pending { batch with done := batch.done + 1 } := by
        obtain ⟨hlt, hget⟩ := List.getElem?_eq_some_iff.mp htask
        rw [Batch.pending, List.drop_eq_getElem_cons hlt, hget]
        rfl
      constructor
      case arrivals => rw [List.length_set]; exact h.arrivals
      case waiting => rw [List.length_set]; exact h.waiting
      case few => exact h.few
      case batches =>
        intro j batch' hj
        by_cases hjk : k = j
        · subst hjk
          have hlt := (List.getElem?_eq_some_iff.mp hk).1
          rw [List.getElem?_set_self hlt] at hj
          cases hj
          exact h.batches k batch hk
        · rw [List.getElem?_set_ne hjk] at hj
          exact h.batches j batch' hj
      case places =>
        rw [List.length_set]
        refine List.Perm.trans ?_ h.places
        rw [List.append_assoc]
        exact (pending_set hk hnext).symm.append_left s.completed

theorem step_generations (h : Generations b s) (hs : step b s e = some t) : Generations b t := by
  cases e with
  | start => cases hs; exact start_generations h
  | complete k => exact complete_generations h hs

theorem initial_generations : Generations b initial where
  arrivals := by simp [initial]
  waiting := rfl
  few := b.positive
  batches := by simp [initial]
  places := by simp [initial]

theorem reachable_generations (hr : (machine b).Reachable s) : Generations b s :=
  hr.invariant initial_generations (fun _ _ _ h _ hs => step_generations h hs)

theorem Generations.completed_arrived (h : Generations b s) {op : Nat} (hop : op ∈ s.completed) :
    (op / b.count + 1) * b.count ≤ s.arrivals := by
  have hplace := h.places.mem_iff.mp (List.mem_append_left _ hop)
  have hlt : op / b.count < s.released.length := by
    rw [Nat.div_lt_iff_lt_mul b.positive]
    exact List.mem_range.mp hplace
  calc (op / b.count + 1) * b.count ≤ s.released.length * b.count :=
        Nat.mul_le_mul_right _ hlt
    _ ≤ s.arrivals := by
        rw [h.arrivals]
        exact Nat.le_add_right _ _

theorem Generations.all_places (h : Generations b s) :
    (s.completed ++ s.released.flatMap Batch.pending ++ s.waiters).Perm
      (List.range s.arrivals) := by
  rw [h.arrivals, List.range_add]
  refine h.places.append (.of_eq ?_)
  rw [← List.range'_eq_map_range]
  exact h.waiting

/-- async::barrier releases its tasks in exact generations: the batches are the
generations in order, every arrival has one place (completed, in the loop of a
batch, or waiting), completed ones have their whole generation arrived, and less
than a generation waits. -/
theorem releases_generations (hr : (machine b).Reachable s) :
    (∀ k batch, s.released[k]? = some batch → batch.tasks = generation b k) ∧
    s.completed.Nodup ∧
    (∀ op ∈ s.completed, ∀ op' ∈ generation b (op / b.count), op' < s.arrivals) ∧
    (s.completed ++ s.released.flatMap Batch.pending ++ s.waiters).Perm
      (List.range s.arrivals) ∧
    s.waiters.length < b.count := by
  have h := reachable_generations hr
  refine ⟨h.batches, ?_, ?_, h.all_places, h.few⟩
  · have hnodup := h.places.nodup_iff.mpr List.nodup_range
    exact (List.nodup_append.mp hnodup).1
  · intro op hop op' hop'
    have harrived := h.completed_arrived hop
    rw [Nat.succ_mul] at harrived
    have hlt := (List.mem_range'_1.mp hop').2
    omega

/-- With a count of 2 the first task of the first batch comes back, and meets
another arrival, before the loop completes the second one. -/
def reenters : List Event :=
  [.start, .start, .complete 0, .start, .start, .complete 1, .start]

theorem releases_generations_reenters :
    ∃ s, (machine ⟨2, by decide⟩).run initial reenters = some s ∧
      s.completed = [0, 2] ∧ s.waiters = [4] ∧ s.released.flatMap Batch.pending = [1, 3] ∧
      (s.completed ++ s.released.flatMap Batch.pending ++ s.waiters).Perm
        (List.range s.arrivals) :=
  ⟨_, rfl, rfl, rfl, rfl,
    (releases_generations (Machine.reachable_of_run (M := machine ⟨2, by decide⟩) reenters
      rfl)).2.2.2.1⟩

end Sdbusplus.Proofs.Barrier
