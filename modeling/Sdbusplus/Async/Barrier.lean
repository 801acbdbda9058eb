import Sdbusplus.Base.Machine

namespace Sdbusplus.Async

/-- A barrier that its constructor did not refuse. -/
structure Barrier where
  count : Nat
  positive : 0 < count

namespace Barrier

def construct (count : Nat) : Except String Barrier :=
  if h : count < 1 then .error "sdbusplus::async::barrier count must be greater than 0."
  else .ok ⟨count, Nat.lt_of_not_ge (fun hle => h (Nat.lt_succ_of_le hle))⟩

/-- The operations that one start() has swapped out of `waiters`. -/
structure Batch where
  tasks : List Nat
  /-- How many of them its loop has completed. -/
  done : Nat
  deriving DecidableEq, Repr

def Batch.pending (b : Batch) : List Nat := b.tasks.drop b.done

structure State where
  /-- Operations are known by the order in which they entered start(). -/
  waiters : List Nat
  arrivals : Nat
  released : List Batch
  /-- The operations in the order of their complete() calls. -/
  completed : List Nat
  deriving DecidableEq, Repr

def initial : State := ⟨[], 0, [], []⟩

/-- barrier_completion::start up to the end of its block. -/
def start (b : Barrier) (s : State) : State :=
  let waiters := s.waiters ++ [s.arrivals]
  let s := { s with arrivals := s.arrivals + 1 }
  if waiters.length ≥ b.count then
    { s with waiters := [], released := s.released ++ [⟨waiters, 0⟩] }
  else { s with waiters := waiters }

/-- The next call in the loop over the k-th batch. The task it resumes may come
back to the barrier before the loop goes on. -/
def complete (k : Nat) (s : State) : Option State :=
  match s.released[k]? with
  | none => none
  | some batch =>
    match batch.tasks[batch.done]? with
    | none => none
    | some task => some { s with
        released := s.released.set k { batch with done := batch.done + 1 }
        completed := s.completed ++ [task] }

inductive Event
  | start
  | complete (k : Nat)
  deriving DecidableEq, Repr

def step (b : Barrier) (s : State) : Event → Option State
  | .start => some (start b s)
  | .complete k => complete k s

def machine (b : Barrier) : Machine State Event := ⟨initial, step b⟩

end Barrier

end Sdbusplus.Async
