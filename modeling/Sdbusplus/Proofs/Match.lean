import Mathlib.Data.List.Perm.Basic
import Sdbusplus.Async.Match

namespace Sdbusplus.Proofs.Match
open Async.Match

variable {Msg : Type} {s t u : State Msg} {e : Event Msg} {c i : Nat}

/-- Where the receivers are that were started: completed, about to be, waiting, about
to be stopped, or stopped. -/
def places (s : State Msg) : List Nat :=
  s.delivered.map Prod.fst ++ s.transit.map Prod.fst ++ s.complete.toList ++
    (s.stopping.toList ++ s.stopped)

/-- The same without the receiver that waits. -/
def settled (s : State Msg) : List Nat :=
  s.delivered.map Prod.fst ++ s.transit.map Prod.fst ++ (s.stopping.toList ++ s.stopped)

/-- No receiver is in two places or lost, and no message waits for a waiting receiver. -/
structure Served (s : State Msg) : Prop where
  places : s.terminated = false → (places s).Perm (List.range s.started)
  once : (settled s).Nodup
  apart : s.terminated = false → s.complete = none ∨ s.queue = []
  fresh : s.alive = true → s.slot = true ∧ s.stopping = none ∧ s.stopped = []
  gone : s.alive = false → s.complete = none
  unregistered : s.slot = false → s.stopping = none

theorem settled_sublist : (settled s).Sublist (places s) := by
  unfold settled places
  exact (List.sublist_append_left _ _).append_right _

theorem settled_nodup (h : (places s).Perm (List.range s.started)) : (settled s).Nodup :=
  (h.nodup_iff.mpr List.nodup_range).sublist settled_sublist

/-- handle_completion either leaves all as it is or pops a pair. -/
theorem handleCompletion_cases (s : State Msg) :
    (handleCompletion s = s ∧ (s.complete = none ∨ s.queue = [])) ∨
    ∃ c msg queue, s.complete = some c ∧ s.queue = msg :: queue ∧
      handleCompletion s =
        { s with complete := none, queue := queue, transit := s.transit ++ [(c, msg)] } := by
  unfold handleCompletion
  cases hc : s.complete with
  | none => exact .inl ⟨rfl, .inl rfl⟩
  | some c =>
    cases hq : s.queue with
    | nil => exact .inl ⟨rfl, .inr rfl⟩
    | cons msg queue => exact .inr ⟨c, msg, queue, rfl, rfl, rfl⟩

theorem handleCompletion_places : places (handleCompletion s) = places s := by
  rcases handleCompletion_cases s with ⟨hs, _⟩ | ⟨c, msg, queue, hc, _, hs⟩
  · rw [hs]
  · rw [hs]
    simp [places, hc]

/-- The lock is free again: there is a receiver or a message left, not both. -/
theorem handleCompletion_served (hp : (places s).Perm (List.range s.started))
    (hf : s.alive = true → s.slot = true ∧ s.stopping = none ∧ s.stopped = [])
    (hg : s.alive = false → s.complete = none) (hu : s.slot = false → s.stopping = none) :
    Served (handleCompletion s) := by
  have hplaces : (places (handleCompletion s)).Perm (List.range s.started) := by
    rw [handleCompletion_places]
    exact hp
  rcases handleCompletion_cases s with ⟨hs, hnone⟩ | ⟨c, msg, queue, hc, _, hs⟩
  · rw [hs]
    exact ⟨fun _ => hp, settled_nodup hp, fun _ => hnone, hf, hg, hu⟩
  · rw [hs] at hplaces ⊢
    exact ⟨fun _ => hplaces, settled_nodup hplaces, fun _ => .inl rfl, hf, fun _ => rfl, hu⟩

theorem start_places (hp : (places s).Perm (List.range s.started)) (hc : s.complete = none) :
    (places { s with complete := some s.started, started := s.started + 1 }).Perm
      (List.range (s.started + 1)) := by
  rw [List.range_succ]
  refine List.Perm.trans ?_ (hp.append_right _)
  simp only [places, hc, Option.toList_none, Option.toList_some, List.append_nil]
  simp only [List.append_assoc]
  refine List.Perm.append_left _ (List.Perm.append_left _ ?_)
  rw [← List.append_assoc s.stopping.toList]
  exact List.perm_append_comm

theorem start_served (h : Served s) (halive : s.alive = true) (hn : s.terminated = false) :
    Served (start s) := by
  unfold start
  dsimp only
  split
  · exact ⟨nofun, h.once, nofun, h.fresh, fun hdead => absurd (halive.symm.trans hdead) nofun,
      h.unregistered⟩
  · rename_i hsome
    have hc : s.complete = none := by simpa using hsome
    exact handleCompletion_served (start_places (h.places hn) hc) h.fresh
      (fun hdead => absurd (halive.symm.trans hdead) nofun) h.unregistered

theorem complete_places {d : Nat × Msg} (hi : s.transit[i]? = some d) :
    (places { s with transit := s.transit.eraseIdx i, delivered := s.delivered ++ [d] }).Perm
      (places s) := by
  obtain ⟨hlt, hget⟩ := List.getElem?_eq_some_iff.mp hi
  have herase : (d :: s.transit.eraseIdx i).Perm s.transit := by
    rw [← hget]
    exact List.getElem_cons_eraseIdx_perm hlt
  simp only [places, List.map_append, List.map_cons, List.map_nil]
  refine List.Perm.append_right _ (List.Perm.append_right _ ?_)
  rw [List.append_assoc]
  exact (herase.map Prod.fst).append_left _

theorem destroy_places (hf : s.stopping = none) : places (destroy s) = places s := by
  simp [places, destroy, hf]

theorem stop_places (hc : s.stopping = some c) :
    (places { s with stopping := none, stopped := s.stopped ++ [c] }).Perm (places s) := by
  refine List.Perm.append_left _ ?_
  simp only [hc, Option.toList_none, Option.toList_some, List.nil_append]
  exact List.perm_append_comm

theorem stepAlive_served (h : Served s) (hn : s.terminated = false)
    (hs : stepAlive s e = some t) : Served t := by
  have hp := h.places hn
  cases e with
  | handleMatch msg =>
    simp only [stepAlive] at hs
    split at hs <;> cases hs
    exact handleCompletion_served hp h.fresh h.gone h.unregistered
  | start =>
    simp only [stepAlive] at hs
    split at hs <;> cases hs
    rename_i halive
    exact start_served h halive hn
  | complete i =>
    simp only [stepAlive] at hs
    split at hs
    · cases hs
    · rename_i d hi
      cases hs
      have hplaces := (complete_places hi).trans hp
      exact ⟨fun _ => hplaces, settled_nodup hplaces, h.apart, h.fresh, h.gone, h.unregistered⟩
  | destroy =>
    simp only [stepAlive] at hs
    split at hs <;> cases hs
    rename_i halive
    obtain ⟨hslot, hstopping, _⟩ := h.fresh halive
    have hplaces : (places (destroy s)).Perm (List.range s.started) := by
      rw [destroy_places hstopping]
      exact hp
    exact ⟨fun _ => hplaces, settled_nodup hplaces, fun _ => .inl rfl, nofun, fun _ => rfl,
      fun hno => absurd (hslot.symm.trans hno) nofun⟩
  | stop =>
    simp only [stepAlive] at hs
    split at hs
    · cases hs
    · rename_i c hc
      cases hs
      have hplaces := (stop_places hc).trans hp
      exact ⟨fun _ => hplaces, settled_nodup hplaces, h.apart,
        fun halive => absurd (hc.symm.trans (h.fresh halive).2.1) nofun, h.gone, fun _ => rfl⟩
  | unref =>
    simp only [stepAlive] at hs
    split at hs <;> cases hs
    rename_i hdone
    exact ⟨h.places, h.once, h.apart, fun halive => absurd (halive.symm.trans hdone.1) nofun,
      h.gone, fun _ => hdone.2.1⟩

theorem step_alive (hs : step s e = some t) : s.terminated = false ∧ stepAlive s e = some t := by
  unfold step at hs
  split at hs
  · cases hs
  · rename_i hn
    exact ⟨by simpa using hn, hs⟩

theorem initial_served : Served (initial : State Msg) := by
  constructor <;> simp [initial, places, settled]

theorem reachable_served (hr : (machine Msg).Reachable s) : Served s :=
  hr.invariant initial_served
    (fun _ _ _ h _ hs => stepAlive_served h (step_alive hs).1 (step_alive hs).2)

/-- One task awaits the match: it starts no await while the message of an earlier
one is on its way to it. -/
def OneAwait (s : State Msg) : Event Msg → Prop
  | .start => s.transit = []
  | _ => True

instance : Decidable (OneAwait s e) :=
  match e with
  | .start => decidable_of_iff (s.transit.isEmpty = true) List.isEmpty_iff
  | .handleMatch _ | .complete _ | .destroy | .stop | .unref => inferInstanceAs (Decidable True)

/-- What was received is what was handed over, then what is on its way, then the queue. -/
structure InOrder (s : State Msg) : Prop where
  order : s.received = s.delivered.map Prod.snd ++ s.transit.map Prod.snd ++ s.queue
  single : s.transit.length ≤ 1
  alone : s.complete ≠ none → s.transit = []

theorem handleCompletion_inOrder (h : InOrder s) : InOrder (handleCompletion s) := by
  rcases handleCompletion_cases s with ⟨hs, _⟩ | ⟨c, msg, queue, hc, hq, hs⟩
  · rw [hs]
    exact h
  · have hempty := h.alone (by simp [hc])
    have horder := h.order
    rw [hs]
    refine ⟨?_, by simp [hempty], fun hne => absurd rfl hne⟩
    rw [hempty, hq] at horder
    simpa [hempty] using horder

theorem stepAlive_inOrder (h : InOrder s) (ha : OneAwait s e) (hs : stepAlive s e = some t) :
    InOrder t := by
  cases e with
  | handleMatch msg =>
    simp only [stepAlive] at hs
    split at hs <;> cases hs
    apply handleCompletion_inOrder
    refine ⟨?_, h.single, h.alone⟩
    change s.received ++ [msg] = _
    rw [h.order, List.append_assoc]
  | start =>
    simp only [stepAlive] at hs
    split at hs <;> cases hs
    have hstart : InOrder { s with complete := some s.started, started := s.started + 1 } :=
      ⟨h.order, h.single, fun _ => ha⟩
    unfold start
    dsimp only
    split
    · exact ⟨h.order, h.single, fun _ => ha⟩
    · exact handleCompletion_inOrder hstart
  | complete i =>
    simp only [stepAlive] at hs
    split at hs
    · cases hs
    · rename_i d hi
      cases hs
      -- There is one element in transit only, and the message goes.
      have hlist : s.transit = [d] := by
        obtain ⟨hlt, hget⟩ := List.getElem?_eq_some_iff.mp hi
        obtain ⟨d', hd'⟩ := List.length_eq_one_iff.mp
          (Nat.le_antisymm h.single (Nat.lt_of_le_of_lt (Nat.zero_le i) hlt))
        have hmem : d ∈ s.transit := List.mem_of_getElem? hi
        rw [hd', List.mem_singleton] at hmem
        rw [hd', hmem]
      have hz : i = 0 := by
        have hlt := (List.getElem?_eq_some_iff.mp hi).1
        rw [hlist, List.length_singleton] at hlt
        omega
      refine ⟨?_, by simp [hlist, hz], fun _ => by simp [hlist, hz]⟩
      have horder := h.order
      rw [hlist] at horder
      simpa [hlist, hz] using horder
  | destroy =>
    simp only [stepAlive] at hs
    split at hs <;> cases hs
    exact ⟨h.order, h.single, fun hne => absurd rfl hne⟩
  | stop =>
    simp only [stepAlive] at hs
    split at hs <;> cases hs
    exact ⟨h.order, h.single, h.alone⟩
  | unref =>
    simp only [stepAlive] at hs
    split at hs <;> cases hs
    exact ⟨h.order, h.single, h.alone⟩

theorem reachable_inOrder (hr : (machine Msg).ReachableBy OneAwait s) : InOrder s :=
  hr.invariant (by constructor <;> simp [machine, initial])
    (fun _ _ _ h ha hs => stepAlive_inOrder h ha (step_alive hs).2)

/-- After the destructor's exchange the receiver it found is stopped, and no other. -/
structure Stopping (c : Option Nat) (s : State Msg) : Prop where
  dead : s.alive = false
  nobody : s.complete = none
  once : s.stopped ++ s.stopping.toList = c.toList
  unregistered : s.slot = false → s.stopping = none

theorem destroy_stopping (h : Served s) (ha : s.alive = true) :
    Stopping s.complete (destroy s) := by
  obtain ⟨hslot, _, hstopped⟩ := h.fresh ha
  refine ⟨rfl, rfl, ?_, fun hno => absurd (hslot.symm.trans hno) nofun⟩
  change s.stopped ++ s.complete.toList = _
  rw [hstopped, List.nil_append]

theorem step_stopping {w : Option Nat} (h : Stopping w s) (hs : step s e = some t) :
    Stopping w t := by
  obtain ⟨hd, hc, ho, hu⟩ := h
  have hs := (step_alive hs).2
  cases e with
  | handleMatch msg =>
    simp only [stepAlive] at hs
    split at hs <;> cases hs
    have hsame : handleMatch msg s =
        { s with queue := s.queue ++ [msg], received := s.received ++ [msg] } := by
      simp [handleMatch, handleCompletion, hc]
    rw [hsame]
    exact ⟨hd, hc, ho, hu⟩
  | start => simp [stepAlive, hd] at hs
  | complete i =>
    simp only [stepAlive] at hs
    split at hs <;> cases hs
    exact ⟨hd, hc, ho, hu⟩
  | destroy => simp [stepAlive, hd] at hs
  | stop =>
    simp only [stepAlive] at hs
    split at hs
    · cases hs
    · rename_i c hstop
      cases hs
      rw [hstop] at ho
      exact ⟨hd, hc, (List.append_nil _).trans ho, fun _ => rfl⟩
  | unref =>
    simp only [stepAlive] at hs
    split at hs <;> cases hs
    rename_i hdone
    exact ⟨hd, hc, ho, fun _ => hdone.2.1⟩

theorem start_terminates (ha : s.alive = true) (hn : s.terminated = false) :
    ∃ t, step s .start = some t ∧ (t.terminated = true ↔ s.complete ≠ none) ∧
      (t.terminated = true → t.delivered = s.delivered ∧ t.transit = s.transit ∧
        t.stopped = s.stopped ∧ ∀ e, step t e = none) := by
  refine ⟨start s, by simp [step, stepAlive, hn, ha], ?_⟩
  unfold start
  dsimp only
  cases hc : s.complete with
  | some c => simp [step]
  | none =>
    have hkeeps : ∀ s : State Msg, (handleCompletion s).terminated = s.terminated := by
      intro s
      rcases handleCompletion_cases s with ⟨hs, _⟩ | ⟨_, _, _, _, _, hs⟩ <;> rw [hs]
    simp [hkeeps, hn]

/-- async::match delivers every signal once and in order. Whatever the interleaving,
a receiver is completed or stopped once at most and is not lost, a free lock means no
receiver waits beside a message, another start() beside a waiting receiver ends the
process, and the destructor stops the waiting receiver. As long as one task awaits
the match, the messages go to the receivers in the order they came. -/
theorem delivers_once_in_order :
    (∀ s : State Msg, (machine Msg).Reachable s →
      (s.delivered.map Prod.fst ++ s.stopped).Nodup ∧
      (s.terminated = false → (places s).Perm (List.range s.started) ∧
        (s.complete = none ∨ s.queue = [])) ∧
      (s.alive = true → s.terminated = false →
        ∃ t, step s .start = some t ∧ (t.terminated = true ↔ s.complete ≠ none) ∧
          (t.terminated = true → t.delivered = s.delivered ∧ t.transit = s.transit ∧
            t.stopped = s.stopped ∧ ∀ e, step t e = none)) ∧
      ∀ t, step s .destroy = some t → ∀ as u, (machine Msg).run t as = some u →
        u.stopped ++ u.stopping.toList = s.complete.toList ∧
        (u.slot = false → u.stopped = s.complete.toList)) ∧
    ∀ s : State Msg, (machine Msg).ReachableBy OneAwait s →
      s.received = s.delivered.map Prod.snd ++ s.transit.map Prod.snd ++ s.queue ∧
      s.transit.length ≤ 1 ∧ s.delivered.map Prod.snd <+: s.received := by
  constructor
  · intro s hr
    have h := reachable_served hr
    refine ⟨?_, fun hn => ⟨h.places hn, h.apart hn⟩, start_terminates, ?_⟩
    · refine h.once.sublist (List.Sublist.append ?_ ?_)
      · exact List.sublist_append_left _ _
      · exact List.sublist_append_right _ _
    · intro t ht as u hrun
      have hdestroy : s.alive = true ∧ t = destroy s := by
        have hs := (step_alive ht).2
        simp only [stepAlive] at hs
        split at hs <;> cases hs
        rename_i ha
        exact ⟨ha, rfl⟩
      obtain ⟨ha, rfl⟩ := hdestroy
      have hend := Machine.run_keeps (destroy_stopping h ha) hrun
        (fun _ _ _ h hs => step_stopping h hs)
      refine ⟨hend.once, fun hslot => ?_⟩
      have honce := hend.once
      rwa [hend.unregistered hslot, Option.toList_none, List.append_nil] at honce
  · intro s hr
    have h := reachable_inOrder hr
    refine ⟨h.order, h.single, ?_⟩
    rw [h.order, List.append_assoc]
    exact List.prefix_append _ _

/-- Two signals come while nobody awaits. The receiver of the first one, when
resumed, starts again and gets the second; it then waits until the match goes. -/
def awaitsAgain : List (Event Nat) :=
  [.handleMatch 7, .handleMatch 8, .start, .complete 0, .start, .complete 0, .start, .destroy,
   .stop, .unref]

theorem delivers_once_in_order_awaitsAgain :
    ∃ s, (machine Nat).run initial awaitsAgain = some s ∧ s.delivered = [(0, 7), (1, 8)] ∧
      s.stopped = [2] ∧ (s.delivered.map Prod.fst ++ s.stopped).Nodup ∧
      s.delivered.map Prod.snd <+: s.received :=
  ⟨_, rfl, rfl, rfl,
    (delivers_once_in_order.1 _ (Machine.reachable_of_run (M := machine Nat) awaitsAgain rfl)).1,
    (delivers_once_in_order.2 _ (Machine.reachableBy_of_runBy (M := machine Nat) OneAwait
      awaitsAgain rfl)).2.2⟩

end Sdbusplus.Proofs.Match
