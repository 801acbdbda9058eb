import Sdbusplus.Async.Mutex

namespace Sdbusplus.Proofs.Mutex
open Async Async.MutexTasks

variable {s s' : State} {e : Event} {t u n : Nat} {op : Op}

/-- The completion of `op` is about to be called, by its own start() or by the
unlock() that popped it. -/
def InTransit (s : State) (op : Op) : Prop :=
  s.task op.task = .starting op.ticket ∨ ∃ t, s.task t = .handing op

/-- One task at a time has the mutex or carries the completion that passes it
on, and the senders are served in the order of their start() calls. -/
structure Turns (s : State) : Prop where
  alive : s.terminated = false
  owned : ∀ t, s.task t ≠ .idle → s.owned t = true
  unlocked : s.mutex.locked = false → s.mutex.waitingTasks = [] ∧ ∀ t, (s.task t).holds = false
  locked : s.mutex.locked = true → ∃ t, (s.task t).holds = true
  single : ∀ t u, (s.task t).holds = true → (s.task u).holds = true → t = u
  queued : ∀ op ∈ s.mutex.waitingTasks, s.task op.task = .waiting op.ticket
  popped : ∀ t op, s.task t = .handing op → s.task op.task = .waiting op.ticket
  numbered : ∀ op ∈ s.started, op.ticket < s.started.length
  distinct : s.started.Nodup
  free : s.mutex.locked = false → s.completed = s.started
  inside : ∀ t n, s.task t = .critical n → s.completed ++ s.mutex.waitingTasks = s.started
  transit : ∀ op, InTransit s op → s.completed ++ op :: s.mutex.waitingTasks = s.started

section tasks

variable {p q : Task}

theorem goto_same : (s.goto t p).task t = p := if_pos rfl

theorem goto_other (hut : u ≠ t) : (s.goto t p).task u = s.task u := if_neg hut

/-- A task that is somewhere else than where t went has been there before. -/
theorem goto_from (hu : (s.goto t p).task u = q) (hne : p ≠ q) : s.task u = q := by
  by_cases hut : u = t
  · rw [hut, goto_same] at hu
    exact absurd hu hne
  · rwa [goto_other hut] at hu

theorem goto_keeps (hu : s.task u = q) (hne : s.task t ≠ q) : (s.goto t p).task u = q := by
  have hut : u ≠ t := by
    intro heq
    exact hne (heq ▸ hu)
  rwa [goto_other hut]

theorem goto_holds (hu : ((s.goto t p).task u).holds = true) (hp : p.holds = false) :
    u ≠ t ∧ (s.task u).holds = true := by
  by_cases hut : u = t
  · rw [hut, goto_same, hp] at hu
    cases hu
  · rw [goto_other hut] at hu
    exact ⟨hut, hu⟩

/-- Who held before has gone on or holds still. -/
theorem goto_only (h : ∀ u, (s.task u).holds = true → u = t)
    (hu : ((s.goto t p).task u).holds = true) : u = t := by
  by_cases hut : u = t
  · exact hut
  · rw [goto_other hut] at hu
    exact h u hu

theorem goto_nobody (h : ∀ u, (s.task u).holds = true → u = t) (hp : p.holds = false) :
    ((s.goto t p).task u).holds = false := by
  cases hu : ((s.goto t p).task u).holds with
  | false => rfl
  | true =>
    obtain ⟨hut, hu⟩ := goto_holds hu hp
    exact absurd (h u hu) hut

theorem goto_keeps_holds (hu : (s.task u).holds = true) (ht : (s.task t).holds = false) :
    ((s.goto t p).task u).holds = true := by
  have hut : u ≠ t := by
    intro heq
    rw [heq, ht] at hu
    cases hu
  rwa [goto_other hut]

theorem holds_of (hu : s.task u = q) (hq : q.holds = true) : (s.task u).holds = true := by
  rwa [hu]

theorem InTransit.of_goto (ho : InTransit (s.goto t p) op) (hp : p.holds = false) :
    InTransit s op := by
  have hne : ∀ {q : Task}, q.holds = true → p ≠ q := by
    intro q hq heq
    rw [heq, hq] at hp
    cases hp
  rcases ho with hs | ⟨u, hu⟩
  · exact .inl (goto_from hs (hne rfl))
  · exact .inr ⟨u, goto_from hu (hne rfl)⟩

end tasks

/-- What a task at this point is about to complete. -/
def pending (t : Nat) : Task → List Op
  | .starting n => [⟨t, n⟩]
  | .handing op => [op]
  | .idle | .called | .waiting _ | .critical _ | .returning => []

/-- The turns while the mutex is locked: t is the one that has it. -/
structure Held (s : State) (t : Nat) : Prop where
  alive : s.terminated = false
  owned : ∀ u, s.task u ≠ .idle → s.owned u = true
  locked : s.mutex.locked = true
  holds : (s.task t).holds = true
  only : ∀ u, (s.task u).holds = true → u = t
  queued : ∀ op ∈ s.mutex.waitingTasks, s.task op.task = .waiting op.ticket
  popped : ∀ op, s.task t = .handing op → s.task op.task = .waiting op.ticket
  numbered : ∀ op ∈ s.started, op.ticket < s.started.length
  distinct : s.started.Nodup
  order : s.completed ++ pending t (s.task t) ++ s.mutex.waitingTasks = s.started

theorem Held.turns (h : Held s t) : Turns s where
  alive := h.alive
  owned := h.owned
  unlocked hm := absurd (h.locked.symm.trans hm) nofun
  locked _ := ⟨t, h.holds⟩
  single u v hu hv := (h.only u hu).trans (h.only v hv).symm
  queued := h.queued
  popped u op hu := by
    obtain rfl := h.only u (holds_of hu rfl)
    exact h.popped op hu
  numbered := h.numbered
  distinct := h.distinct
  free hm := absurd (h.locked.symm.trans hm) nofun
  inside u n hu := by
    obtain rfl := h.only u (holds_of hu rfl)
    simpa [hu, pending] using h.order
  transit op ho := by
    rcases ho with hu | ⟨u, hu⟩
    · obtain rfl := h.only op.task (holds_of hu rfl)
      simpa [hu, pending] using h.order
    · obtain rfl := h.only u (holds_of hu rfl)
      simpa [hu, pending] using h.order

theorem Turns.held (h : Turns s) (ht : (s.task t).holds = true) : Held s t where
  alive := h.alive
  owned := h.owned
  locked := by
    cases hm : s.mutex.locked with
    | true => rfl
    | false => exact absurd (((h.unlocked hm).2 t).symm.trans ht) nofun
  holds := ht
  only u hu := h.single u t hu ht
  queued := h.queued
  popped op hop := h.popped t op hop
  numbered := h.numbered
  distinct := h.distinct
  order := by
    cases hp : s.task t with
    | critical n => simpa [pending] using h.inside t n hp
    | starting n => simpa [pending] using h.transit ⟨t, n⟩ (.inl hp)
    | handing op => simpa [pending] using h.transit op (.inr ⟨t, hp⟩)
    | _ =>
      rw [hp] at ht
      cases ht

/-- Whoever was not idle goes on with the flag of its guard set. -/
theorem owned_goto {p : Task} (h : ∀ u, s.task u ≠ .idle → s.owned u = true)
    (ht : s.task t ≠ .idle) : ∀ u, (s.goto t p).task u ≠ .idle → s.owned u = true := by
  intro u hu
  by_cases hut : u = t
  · rw [hut]
    exact h t ht
  · rw [goto_other hut] at hu
    exact h u hu

theorem Turns.numbered_start (h : Turns s) :
    ∀ op ∈ s.started ++ [⟨t, s.started.length⟩],
      op.ticket < (s.started ++ [(⟨t, s.started.length⟩ : Op)]).length := by
  intro op hop
  rw [List.length_append, List.length_singleton]
  rcases List.mem_append.mp hop with hop | hop
  · exact Nat.lt_succ_of_lt (h.numbered op hop)
  · rw [List.mem_singleton.mp hop]
    exact Nat.lt_succ_self _

/-- The number of a sender that starts is new. -/
theorem Turns.distinct_start (h : Turns s) :
    (s.started ++ [(⟨t, s.started.length⟩ : Op)]).Nodup := by
  refine List.nodup_append.mpr ⟨h.distinct, by simp, ?_⟩
  intro op hop op' hop' heq
  rw [heq, List.mem_singleton.mp hop'] at hop
  exact Nat.lt_irrefl _ (h.numbered _ hop)

theorem start_free (h : s.mutex.locked = false) :
    start t s = State.goto { s with
      mutex := { s.mutex with locked := true }
      started := s.started ++ [⟨t, s.started.length⟩] } t (.starting s.started.length) := by
  simp [start, Mutex.start, h]

theorem start_locked (h : s.mutex.locked = true) :
    start t s = State.goto { s with
      mutex := { s.mutex with waitingTasks := s.mutex.waitingTasks ++ [⟨t, s.started.length⟩] }
      started := s.started ++ [⟨t, s.started.length⟩] } t (.waiting s.started.length) := by
  simp [start, Mutex.start, h]

theorem start_free_held (h : Turns s) (ht : s.task t = .called) (hm : s.mutex.locked = false) :
    Held (start t s) t := by
  obtain ⟨hempty, hnobody⟩ := h.unlocked hm
  rw [start_free hm]
  exact
    { alive := h.alive
      owned := owned_goto h.owned (by rw [ht]; exact nofun)
      locked := rfl
      holds := holds_of goto_same rfl
      only := fun u hu => goto_only (fun v hv => absurd ((hnobody v).symm.trans hv) nofun) hu
      queued := by
        intro op hop
        change op ∈ s.mutex.waitingTasks at hop
        rw [hempty] at hop
        cases hop
      popped := by
        intro op hop
        rw [goto_same] at hop
        cases hop
      numbered := h.numbered_start
      distinct := h.distinct_start
      order := by
        rw [goto_same]
        change s.completed ++ [⟨t, s.started.length⟩] ++ s.mutex.waitingTasks = _
        rw [hempty, h.free hm, List.append_nil]
        rfl }

/-- A sender that finds the mutex locked goes to the end of the queue. -/
theorem start_locked_turns (h : Turns s) (ht : s.task t = .called)
    (hm : s.mutex.locked = true) : Turns (start t s) := by
  have hfalse : (s.task t).holds = false := by
    rw [ht]
    rfl
  rw [start_locked hm]
  exact
    { alive := h.alive
      owned := owned_goto h.owned (by rw [ht]; exact nofun)
      unlocked := fun hfree => absurd (hm.symm.trans hfree) nofun
      locked := by
        intro _
        obtain ⟨u, hu⟩ := h.locked hm
        exact ⟨u, goto_keeps_holds hu hfalse⟩
      single := fun u v hu hv => h.single u v (goto_holds hu rfl).2 (goto_holds hv rfl).2
      queued := by
        intro op hop
        rcases List.mem_append.mp hop with hop | hop
        · exact goto_keeps (h.queued op hop) (by rw [ht]; exact nofun)
        · rw [List.mem_singleton.mp hop]
          exact goto_same
      popped := by
        intro u op hu
        exact goto_keeps (h.popped u op (goto_from hu nofun)) (by rw [ht]; exact nofun)
      numbered := h.numbered_start
      distinct := h.distinct_start
      free := fun hfree => absurd (hm.symm.trans hfree) nofun
      inside := by
        intro u n hu
        have hin := h.inside u n (goto_from hu nofun)
        change s.completed ++ (s.mutex.waitingTasks ++ _) = _
        rw [← List.append_assoc, hin]
        rfl
      transit := by
        intro op ho
        have hin := h.transit op (ho.of_goto rfl)
        change s.completed ++ (op :: s.mutex.waitingTasks ++ _) = _
        rw [← List.append_assoc, hin]
        rfl }

theorem start_turns (h : Turns s) (ht : s.task t = .called) : Turns (start t s) := by
  cases hm : s.mutex.locked with
  | false => exact (start_free_held h ht hm).turns
  | true => exact start_locked_turns h ht hm

/-- complete() from the start() that took the mutex. -/
theorem complete_starting_held (h : Held s t) (ht : s.task t = .starting n) :
    Held (s.complete ⟨t, n⟩) t where
  alive := h.alive
  owned := owned_goto h.owned (by rw [ht]; exact nofun)
  locked := h.locked
  holds := holds_of goto_same rfl
  only u hu := goto_only h.only hu
  queued op hop := goto_keeps (h.queued op hop) (by rw [ht]; exact nofun)
  popped op hop := by
    rw [State.complete, goto_same] at hop
    cases hop
  numbered := h.numbered
  distinct := h.distinct
  order := by
    have hin := h.order
    rw [ht] at hin
    rw [State.complete, goto_same]
    change s.completed ++ [⟨t, n⟩] ++ [] ++ s.mutex.waitingTasks = s.started
    rwa [List.append_nil]

/-- No two senders of one task are in the queue at once with the one popped. -/
theorem Held.queue_others (h : Held s t) (ht : s.task t = .handing op) :
    ∀ op' ∈ s.mutex.waitingTasks, op'.task ≠ op.task := by
  intro op' hop' htask
  have hwaits := h.queued op' hop'
  rw [htask, h.popped op ht] at hwaits
  have hsame : op = op' := by
    cases op
    cases op'
    cases htask
    cases hwaits
    rfl
  have hdistinct := h.distinct
  rw [← h.order, ht, List.append_assoc] at hdistinct
  have htail := (List.nodup_append.mp hdistinct).2.1
  exact (List.nodup_cons.mp htail).1 (hsame ▸ hop')

/-- complete() from the unlock() that popped the completion. -/
theorem complete_handing_held (h : Held s t) (ht : s.task t = .handing op) :
    Held ((s.complete op).goto t .returning) op.task := by
  have hwaits := h.popped op ht
  have hne : op.task ≠ t := by
    intro heq
    rw [heq, ht] at hwaits
    cases hwaits
  have hcritical : ((s.complete op).goto t .returning).task op.task = .critical op.ticket :=
    (goto_other hne).trans goto_same
  exact
    { alive := h.alive
      owned := by
        intro u hu
        refine owned_goto (s := s) (t := op.task) (p := .critical op.ticket) h.owned
          (by rw [hwaits]; exact nofun) u ?_
        by_cases hut : u = t
        · rw [hut, goto_other (Ne.symm hne), ht]
          exact nofun
        · rw [goto_other hut] at hu
          exact hu
      locked := h.locked
      holds := holds_of hcritical rfl
      only := by
        intro u hu
        obtain ⟨hut, hu⟩ := goto_holds hu rfl
        by_cases hop : u = op.task
        · exact hop
        · rw [State.complete, goto_other hop] at hu
          exact absurd (h.only u hu) hut
      queued := by
        intro op' hop'
        have hkeeps : (s.complete op).task op'.task = .waiting op'.ticket :=
          (goto_other (h.queue_others ht op' hop')).trans (h.queued op' hop')
        refine goto_keeps hkeeps ?_
        rw [State.complete, goto_other (Ne.symm hne)]
        change s.task t ≠ _
        rw [ht]
        exact nofun
      popped := by
        intro op' hop'
        rw [hcritical] at hop'
        cases hop'
      numbered := h.numbered
      distinct := h.distinct
      order := by
        have hin := h.order
        rw [ht] at hin
        rw [hcritical]
        change s.completed ++ [op] ++ [] ++ s.mutex.waitingTasks = s.started
        rwa [List.append_nil] }

/-- Without waiters unlock() frees the mutex, and everyone that started is through. -/
theorem unlock_nil_turns (h : Held s t) (ht : s.task t = .critical n)
    (hempty : s.mutex.waitingTasks = []) : Turns (unlock t s) := by
  have hunlock : unlock t s =
      State.goto { s with mutex := { s.mutex with locked := false } } t .returning := by
    simp [unlock, Mutex.unlock, h.owned t (by simp [ht]), hempty, h.locked]
  have hnobody : ∀ u, ((s.goto t .returning).task u).holds = false :=
    fun u => goto_nobody h.only rfl
  have hgone : ∀ {u : Nat} {q : Task}, q.holds = true → (s.goto t .returning).task u ≠ q := by
    intro u q hq hu
    exact absurd ((hnobody u).symm.trans (holds_of hu hq)) nofun
  rw [hunlock]
  exact
    { alive := h.alive
      owned := owned_goto h.owned (by rw [ht]; exact nofun)
      unlocked := fun _ => ⟨hempty, hnobody⟩
      locked := nofun
      single := fun u v hu _ => absurd ((hnobody u).symm.trans hu) nofun
      queued := by
        intro op hop
        change op ∈ s.mutex.waitingTasks at hop
        rw [hempty] at hop
        cases hop
      popped := fun u op hu => absurd hu (hgone rfl)
      numbered := h.numbered
      distinct := h.distinct
      free := by
        intro _
        have hin := h.order
        rw [ht, hempty, List.append_nil] at hin
        exact (List.append_nil _).symm.trans hin
      inside := fun u k hu => absurd hu (hgone rfl)
      transit := by
        intro op ho
        rcases ho with hu | ⟨u, hu⟩
        · exact absurd hu (hgone rfl)
        · exact absurd hu (hgone rfl) }

/-- With a waiter unlock() leaves the mutex locked and takes the first one along. -/
theorem unlock_cons_held {rest : List Op} (h : Held s t) (ht : s.task t = .critical n)
    (hcons : s.mutex.waitingTasks = op :: rest) : Held (unlock t s) t := by
  have hunlock : unlock t s =
      State.goto { s with mutex := { s.mutex with waitingTasks := rest } } t (.handing op) := by
    simp [unlock, Mutex.unlock, h.owned t (by simp [ht]), hcons]
  have hwaits : ∀ op' ∈ op :: rest, (s.goto t (.handing op)).task op'.task =
      .waiting op'.ticket := by
    intro op' hop'
    rw [← hcons] at hop'
    exact goto_keeps (h.queued op' hop') (by rw [ht]; exact nofun)
  rw [hunlock]
  exact
    { alive := h.alive
      owned := owned_goto h.owned (by rw [ht]; exact nofun)
      locked := h.locked
      holds := holds_of goto_same rfl
      only := fun u hu => goto_only h.only hu
      queued := fun op' hop' => hwaits op' (List.mem_cons_of_mem _ hop')
      popped := by
        intro op' hop'
        rw [goto_same] at hop'
        cases hop'
        exact hwaits op List.mem_cons_self
      numbered := h.numbered
      distinct := h.distinct
      order := by
        have hin := h.order
        rw [ht, hcons] at hin
        rw [goto_same]
        change s.completed ++ [op] ++ rest = s.started
        rw [List.append_assoc]
        exact (congrArg (· ++ op :: rest) (List.append_nil _)).symm.trans hin }

theorem unlock_turns (h : Held s t) (ht : s.task t = .critical n) : Turns (unlock t s) := by
  cases hw : s.mutex.waitingTasks with
  | nil => exact unlock_nil_turns h ht hw
  | cons op rest => exact (unlock_cons_held h ht hw).turns

/-- A task that neither holds nor waits, before and after, leaves the turns alone. -/
theorem Turns.move {p : Task} {b : Bool} (h : Turns s)
    (ht : s.task t = .idle ∨ s.task t = .returning) (hp : p = .idle ∨ p = .called ∧ b = true) :
    Turns ((s.setOwned t b).goto t p) := by
  have hbefore : (s.task t).holds = false := by
    rcases ht with ht | ht <;> rw [ht] <;> rfl
  have hafter : p.holds = false := by
    rcases hp with rfl | ⟨rfl, -⟩ <;> rfl
  have hwaits : ∀ k, s.task t ≠ .waiting k := by
    rcases ht with ht | ht <;> rw [ht] <;> exact nofun
  have hne : ∀ {q : Task}, q.holds = true → p ≠ q := by
    intro q hq heq
    rw [heq, hq] at hafter
    cases hafter
  exact
    { alive := h.alive
      owned := by
        intro u hu
        by_cases hut : u = t
        · rw [hut, goto_same] at hu
          rcases hp with hp | ⟨-, hb⟩
          · exact absurd hp hu
          · exact (if_pos hut).trans hb
        · rw [goto_other hut] at hu
          exact (if_neg hut).trans (h.owned u hu)
      unlocked := by
        intro hm
        obtain ⟨hempty, hnobody⟩ := h.unlocked hm
        exact ⟨hempty, fun u =>
          goto_nobody (fun v hv => absurd ((hnobody v).symm.trans hv) nofun) hafter⟩
      locked := by
        intro hm
        obtain ⟨u, hu⟩ := h.locked hm
        exact ⟨u, goto_keeps_holds hu hbefore⟩
      single := fun u v hu hv => h.single u v (goto_holds hu hafter).2 (goto_holds hv hafter).2
      queued := fun op hop => goto_keeps (h.queued op hop) (hwaits _)
      popped := fun u op hu => goto_keeps (h.popped u op (goto_from hu (hne rfl))) (hwaits _)
      numbered := h.numbered
      distinct := h.distinct
      free := h.free
      inside := fun u n hu => h.inside u n (goto_from hu (hne rfl))
      transit := fun op ho => h.transit op (ho.of_goto hafter) }

theorem step_turns (h : Turns s) (hs : step s e = some s') : Turns s' := by
  cases e with
  | lock t =>
    simp only [step] at hs
    split at hs <;> cases hs
    rename_i ht
    exact h.move (Or.inl ht) (Or.inr ⟨rfl, rfl⟩)
  | start t =>
    simp only [step] at hs
    split at hs <;> cases hs
    rename_i ht
    exact start_turns h ht
  | complete t =>
    cases ht : s.task t with
    | starting n =>
      simp only [step, ht] at hs
      cases hs
      exact (complete_starting_held (h.held (holds_of ht rfl)) ht).turns
    | handing op =>
      simp only [step, ht] at hs
      cases hs
      exact (complete_handing_held (h.held (holds_of ht rfl)) ht).turns
    | _ => simp [step, ht] at hs
  | unlock t =>
    cases ht : s.task t with
    | critical n =>
      simp only [step, ht] at hs
      cases hs
      exact unlock_turns (h.held (holds_of ht rfl)) ht
    | _ => simp [step, ht] at hs
  | disown t =>
    simp only [step] at hs
    split at hs <;> cases hs
    rename_i ht
    exact h.move (Or.inr ht) (Or.inl rfl)

theorem reachable_turns (hr : machine.Reachable s) : Turns s :=
  hr.invariant
    (by constructor <;> simp [machine, initial, Mutex.unlocked, Task.holds, InTransit])
    (fun _ _ _ h _ hs => step_turns h hs)

/-- The task is in its critical section, or a completion for it is in transit. -/
def Owner (s : State) (t : Nat) : Prop :=
  (∃ n, s.task t = .critical n) ∨ ∃ n, InTransit s ⟨t, n⟩

theorem Turns.transit_unique (h : Turns s) {op' : Op} (ho : InTransit s op)
    (ho' : InTransit s op') : op = op' := by
  have hs := h.transit op ho
  rw [← h.transit op' ho'] at hs
  exact (List.cons.inj (List.append_cancel_left hs)).1

theorem Turns.critical_alone (h : Turns s) (ht : s.task t = .critical n) : ¬ InTransit s op := by
  intro ho
  have hlen := congrArg List.length ((h.inside t n ht).trans (h.transit op ho).symm)
  simp at hlen

theorem Turns.owner_unique (h : Turns s) (ht : Owner s t) (hu : Owner s u) : t = u := by
  rcases ht with ⟨n, ht⟩ | ⟨n, ht⟩ <;> rcases hu with ⟨k, hu⟩ | ⟨k, hu⟩
  · exact h.single t u (by simp [ht, Task.holds]) (by simp [hu, Task.holds])
  · exact absurd hu (h.critical_alone ht)
  · exact absurd ht (h.critical_alone hu)
  · exact congrArg Op.task (h.transit_unique ht hu)

theorem owner_holds (ht : Owner s t) : ∃ u, (s.task u).holds = true := by
  rcases ht with ⟨n, ht⟩ | ⟨n, ht | ⟨u, hu⟩⟩
  · exact ⟨t, by simp [ht, Task.holds]⟩
  · exact ⟨t, by simp [ht, Task.holds]⟩
  · exact ⟨u, by simp [hu, Task.holds]⟩

/-- The started senders are the completed ones, then at most one in transit, then
the waiting ones. -/
theorem Turns.in_order (h : Turns s) : ∃ transit : List Op, transit.length ≤ 1 ∧
    (∀ op, op ∈ transit ↔ InTransit s op) ∧
    s.completed ++ transit ++ s.mutex.waitingTasks = s.started := by
  by_cases ht : ∃ op, InTransit s op
  · obtain ⟨op, ht⟩ := ht
    refine ⟨[op], by simp, fun op' => ?_, by simpa using h.transit op ht⟩
    rw [List.mem_singleton]
    exact ⟨fun he => he ▸ ht, fun ho => h.transit_unique ho ht⟩
  · refine ⟨[], by simp, fun op => by simpa using fun ho => ht ⟨op, ho⟩, ?_⟩
    rw [List.append_nil]
    cases hm : s.mutex.locked with
    | false => rw [(h.unlocked hm).1, List.append_nil, h.free hm]
    | true =>
      obtain ⟨t, hh⟩ := h.locked hm
      cases hp : s.task t with
      | critical n => exact h.inside t n hp
      | starting n => exact absurd ⟨⟨t, n⟩, Or.inl hp⟩ ht
      | handing op => exact absurd ⟨op, Or.inr ⟨t, hp⟩⟩ ht
      | _ => simp [hp, Task.holds] at hh

/-- async::mutex excludes the tasks from each other and hands the mutex over in
the order of the start() calls. No sender is completed twice or forgotten, an
unlocked mutex has neither waiters nor owner, and unlock() finds it locked. -/
theorem mutual_exclusion_fifo (hr : machine.Reachable s) :
    (∀ t u, Owner s t → Owner s u → t = u) ∧
    (∀ t n op, s.task t = .critical n → ¬ InTransit s op) ∧
    (∃ transit : List Op, transit.length ≤ 1 ∧ (∀ op, op ∈ transit ↔ InTransit s op) ∧
      s.completed ++ transit ++ s.mutex.waitingTasks = s.started) ∧
    s.started.Nodup ∧
    (s.mutex.locked = false → s.mutex.waitingTasks = [] ∧ ∀ t, ¬ Owner s t) ∧
    s.terminated = false := by
  have h := reachable_turns hr
  refine ⟨fun _ _ => h.owner_unique, fun _ _ _ => h.critical_alone, h.in_order, h.distinct, ?_,
    h.alive⟩
  intro hm
  refine ⟨(h.unlocked hm).1, fun t ht => ?_⟩
  obtain ⟨u, hu⟩ := owner_holds ht
  simp [(h.unlocked hm).2 u] at hu

/-- Task 0 has the mutex, 1 and 2 wait, and 0 has just popped 1. -/
def handOver : List Event :=
  [.lock 0, .start 0, .complete 0, .lock 1, .lock 2, .start 1, .start 2, .unlock 0]

theorem mutual_exclusion_fifo_handOver :
    ∃ s, machine.run machine.init handOver = some s ∧ InTransit s ⟨1, 1⟩ ∧
      s.mutex.waitingTasks = [⟨2, 2⟩] ∧ s.started = [⟨0, 0⟩, ⟨1, 1⟩, ⟨2, 2⟩] ∧
      ∃ transit : List Op, transit.length ≤ 1 ∧ (∀ op, op ∈ transit ↔ InTransit s op) ∧
        s.completed ++ transit ++ s.mutex.waitingTasks = s.started :=
  ⟨_, rfl, Or.inr ⟨0, rfl⟩, rfl, rfl,
    (mutual_exclusion_fifo (Machine.reachable_of_run handOver rfl)).2.2.1⟩

end Sdbusplus.Proofs.Mutex
