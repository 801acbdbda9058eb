import Sdbusplus.Async.LockGuard

namespace Sdbusplus.Proofs.LockGuard
open Async Async.LockGuard

variable {s s' : State} {e : Event} {g h x : Nat}

/-- unlock() and the destructor find the flag set only when the sender that the
guard's latest lock() returned has completed and no earlier unlock() of the guard
is still under way. -/
def UnlocksAcquired (s : State) : Event → Prop
  | .unlockGuard g | .destroy g =>
    (s.guard g).owned = true →
      ((s.guard g).latest.any fun x => (s.sender x).status = .completed) ∧ (s.guard g).inside = 0
  | _ => True

instance : Decidable (UnlocksAcquired s e) :=
  match e with
  | .unlockGuard _ | .destroy _ => inferInstanceAs (Decidable (_ → _))
  | .construct _ | .lock _ | .start _ | .drop _ | .complete _ | .unlock _ | .completeNext _ _
  | .disown _ => inferInstanceAs (Decidable True)

/-- Whose turn it is at the mutex. -/
inductive Turn
  | free
  | starting (x : Nat)
  | passing (g x : Nat)
  | owner (g : Nat)
  deriving DecidableEq

/-- The mutex, the calls under way and the counts of every guard fit one turn. -/
structure Fits (s : State) (turn : Turn) : Prop where
  locked : s.mutex.locked = true ↔ turn ≠ .free
  waiting : turn = .free → s.mutex.waitingTasks = []
  count : ∀ g, (s.guard g).completions =
    (s.guard g).releases + if turn = .owner g then 1 else 0
  starting : ∀ x, (s.sender x).status = .starting ↔ turn = .starting x
  completing : ∀ g x, (s.guard g).completing = [x] ↔ turn = .passing g x
  single : ∀ g, (s.guard g).completing = [] ∨ ∃ x, (s.guard g).completing = [x]

/-- No guard has more unlocks invoked and to come than it has acquisitions, and
one that has acquired last and not been unlocked since has fewer. -/
structure Backed (s : State) : Prop where
  bound : ∀ g, (s.guard g).releases + (s.guard g).unlocking ≤ (s.guard g).completions
  acquired : ∀ g x, (s.guard g).owned = true → (s.guard g).latest = some x →
    (s.sender x).status = .completed → (s.guard g).inside = 0 →
    (s.guard g).releases < (s.guard g).completions
  owner : ∀ g x, (s.guard g).latest = some x → x < s.senders ∧ (s.sender x).guard = g
  fresh : ∀ x, s.senders ≤ x → (s.sender x).status ≠ .unstarted ∧ (s.sender x).status ≠ .starting

structure Sound (s : State) : Prop where
  turn : ∃ turn, Fits s turn
  backed : Backed s
  alive : s.terminated = false

section guards

variable {f : Guard → Guard} {y : Nat} {q : Status}

theorem setGuard_same : (s.setGuard g f).guard g = f (s.guard g) := if_pos rfl

theorem setGuard_other (hne : h ≠ g) : (s.setGuard g f).guard h = s.guard h := if_neg hne

theorem setStatus_same : ((s.setStatus x q).sender x).status = q := by
  simp [State.setStatus]

theorem setStatus_other (hne : y ≠ x) : (s.setStatus x q).sender y = s.sender y := if_neg hne

theorem setStatus_guard : ((s.setStatus x q).sender y).guard = (s.sender y).guard := by
  by_cases hy : y = x
  · simp [State.setStatus, hy]
  · rw [setStatus_other hy]

theorem complete_owner (hg : h = (s.sender x).guard) : (complete x s).guard h =
    { s.guard h with completions := (s.guard h).completions + 1 } := if_pos hg

theorem complete_other (hg : h ≠ (s.sender x).guard) : (complete x s).guard h = s.guard h :=
  if_neg hg

theorem complete_keeps : ((complete x s).guard h).releases = (s.guard h).releases ∧
    ((complete x s).guard h).completing = (s.guard h).completing := by
  by_cases hg : h = (s.sender x).guard
  · rw [complete_owner hg]
    exact ⟨rfl, rfl⟩
  · rw [complete_other hg]
    exact ⟨rfl, rfl⟩

theorem complete_sender : (complete x s).sender = (s.setStatus x .completed).sender := rfl

end guards

section fits

variable {turn : Turn}

/-- Nothing else of the state says whose turn it is. -/
theorem Fits.congr (hf : Fits s turn) (hl : s'.mutex.locked = s.mutex.locked)
    (hw : turn = .free → s'.mutex.waitingTasks = s.mutex.waitingTasks)
    (hg : ∀ g, (s'.guard g).completions = (s.guard g).completions ∧
      (s'.guard g).releases = (s.guard g).releases ∧
      (s'.guard g).completing = (s.guard g).completing)
    (hs : ∀ x, (s'.sender x).status = .starting ↔ (s.sender x).status = .starting) :
    Fits s' turn := by
  refine
    { locked := by rw [hl]; exact hf.locked
      waiting := fun ht => (hw ht).trans (hf.waiting ht)
      count := fun g => ?_
      starting := fun x => (hs x).trans (hf.starting x)
      completing := fun g x => by rw [(hg g).2.2]; exact hf.completing g x
      single := fun g => by rw [(hg g).2.2]; exact hf.single g }
  rw [(hg g).1, (hg g).2.1]
  exact hf.count g

theorem Fits.none_completing (hf : Fits s turn) (ht : ∀ x, turn ≠ .passing g x) :
    (s.guard g).completing = [] := by
  rcases hf.single g with hnone | ⟨x, hx⟩
  · exact hnone
  · exact absurd ((hf.completing g x).mp hx) (ht x)

/-- A guard with an unlock that is still to come has the mutex. -/
theorem Fits.owner (hf : Fits s turn) (hlt : (s.guard g).releases < (s.guard g).completions) :
    turn = .owner g := by
  have hc := hf.count g
  by_cases ht : turn = .owner g
  · exact ht
  · rw [if_neg ht] at hc
    omega

end fits

section backed

theorem Backed.setGuard {f : Guard → Guard} (hb : Backed s)
    (hbound : (f (s.guard g)).releases + (f (s.guard g)).unlocking ≤
      (f (s.guard g)).completions)
    (hacquired : ∀ x, (f (s.guard g)).owned = true → (f (s.guard g)).latest = some x →
      (s.sender x).status = .completed → (f (s.guard g)).inside = 0 →
      (f (s.guard g)).releases < (f (s.guard g)).completions)
    (hlatest : (f (s.guard g)).latest = (s.guard g).latest) : Backed (s.setGuard g f) := by
  refine
    { bound := fun h => ?_
      acquired := fun h x => ?_
      owner := fun h x => ?_
      fresh := hb.fresh }
  all_goals by_cases hg : h = g
  · subst hg
    rw [setGuard_same]
    exact hbound
  · rw [setGuard_other hg]
    exact hb.bound h
  · subst hg
    rw [setGuard_same]
    exact hacquired x
  · rw [setGuard_other hg]
    exact hb.acquired h x
  · subst hg
    rw [setGuard_same, hlatest]
    exact hb.owner h x
  · rw [setGuard_other hg]
    exact hb.owner h x

/-- A sender that was returned and not started can only be of one that exists. -/
theorem Backed.exists_ (hb : Backed s)
    (hx : (s.sender x).status = .unstarted ∨ (s.sender x).status = .starting) : x < s.senders := by
  by_cases hlt : x < s.senders
  · exact hlt
  · obtain ⟨hu, hs⟩ := hb.fresh x (Nat.le_of_not_lt hlt)
    rcases hx with hx | hx
    · exact absurd hx hu
    · exact absurd hx hs

/-- A sender gets on, but not to its completion. -/
theorem Backed.setStatus {q : Status} (hb : Backed s) (hx : x < s.senders)
    (hq : q ≠ .completed) : Backed (s.setStatus x q) := by
  refine
    { bound := hb.bound
      acquired := fun g y ho hl hc => ?_
      owner := fun g y hl => ?_
      fresh := fun y hy => ?_ }
  · by_cases hyx : y = x
    · subst hyx
      rw [setStatus_same] at hc
      exact absurd hc hq
    · rw [setStatus_other hyx] at hc
      exact hb.acquired g y ho hl hc
  · rw [setStatus_guard]
    exact hb.owner g y hl
  · have hyx : y ≠ x := fun heq => absurd hx (Nat.not_lt.mpr (heq ▸ hy))
    rw [setStatus_other hyx]
    exact hb.fresh y hy

/-- A completion is one more acquisition of the guard. -/
theorem Backed.complete (hb : Backed s) : Backed (complete x s) := by
  have hgrows : ∀ h, (s.guard h).completions ≤
      ((LockGuard.complete x s).guard h).completions := by
    intro h
    by_cases hg : h = (s.sender x).guard
    · rw [complete_owner hg]
      exact Nat.le_succ _
    · exact Nat.le_of_eq (by rw [complete_other hg])
  have hsame : ∀ h, ((LockGuard.complete x s).guard h) =
      { s.guard h with completions := ((LockGuard.complete x s).guard h).completions } := by
    intro h
    by_cases hg : h = (s.sender x).guard
    · rw [complete_owner hg]
    · rw [complete_other hg]
  refine
    { bound := fun h => ?_
      acquired := fun h y ho hl hc hi => ?_
      owner := fun h y hl => ?_
      fresh := fun y hy => ?_ }
  · rw [hsame]
    exact Nat.le_trans (hb.bound h) (hgrows h)
  · rw [hsame] at ho hl hi ⊢
    by_cases hyx : y = x
    · -- The completed sender is the guard's latest, so the new acquisition is its own.
      subst hyx
      have hg : h = (s.sender y).guard := (hb.owner h y hl).2.symm
      have hbound := hb.bound h
      rw [complete_owner hg]
      dsimp only
      omega
    · have hold : (s.sender y).status = .completed := by
        rwa [complete_sender, setStatus_other hyx] at hc
      exact Nat.lt_of_lt_of_le (hb.acquired h y ho hl hold hi) (hgrows h)
  · rw [hsame] at hl
    rw [complete_sender, setStatus_guard]
    exact hb.owner h y hl
  · rw [complete_sender]
    by_cases hyx : y = x
    · subst hyx
      rw [setStatus_same]
      exact ⟨nofun, nofun⟩
    · rw [setStatus_other hyx]
      exact hb.fresh y hy

end backed

/-- An unlock() that was called for is that of the guard whose turn it is. -/
theorem Sound.turn_owner (h : Sound s) (hu : 0 < (s.guard g).unlocking) : Fits s (.owner g) := by
  obtain ⟨turn, hf⟩ := h.turn
  have hbound := h.backed.bound g
  have howner : turn = .owner g := hf.owner (by omega)
  rw [← howner]
  exact hf

theorem unlock_nil (hq : s.mutex.waitingTasks = []) (hl : s.mutex.locked = true) :
    unlock g s = { s with mutex := { s.mutex with locked := false } }.setGuard g (fun p =>
      { p with
        unlocking := p.unlocking - 1
        releases := p.releases + 1
        disowning := p.disowning + 1 }) := by
  simp only [unlock, Mutex.unlock, State.setGuard, hq, hl, if_true]
  congr 1
  funext h
  split <;> rfl

theorem unlock_cons {rest : List Nat} (hq : s.mutex.waitingTasks = x :: rest) :
    unlock g s = { s with mutex := { s.mutex with waitingTasks := rest } }.setGuard g (fun p =>
      { p with
        unlocking := p.unlocking - 1
        releases := p.releases + 1
        completing := x :: p.completing }) := by
  simp only [unlock, Mutex.unlock, State.setGuard, hq]
  congr 1
  funext h
  split <;> rfl

theorem Fits.given_back (hf : Fits s (.owner g)) :
    (s.guard g).completions = (s.guard g).releases + 1 := by
  have hc := hf.count g
  rwa [if_pos rfl] at hc

theorem Fits.even (hf : Fits s (.owner g)) (hne : h ≠ g) :
    (s.guard h).completions = (s.guard h).releases := by
  have hc := hf.count h
  rwa [if_neg (fun heq => hne (Turn.owner.inj heq).symm)] at hc

/-- With nobody waiting the mutex becomes free. -/
theorem Fits.freed (hf : Fits s (.owner g)) (hq : s.mutex.waitingTasks = [])
    {f : Guard → Guard} (hc : ∀ p, (f p).completions = p.completions)
    (hr : ∀ p, (f p).releases = p.releases + 1) (hp : ∀ p, (f p).completing = p.completing) :
    Fits ({ s with mutex := { s.mutex with locked := false } }.setGuard g f) .free := by
  have hnone : ∀ h, ((State.setGuard { s with mutex := { s.mutex with locked := false } }
      g f).guard h).completing = [] := by
    intro h
    have hold : (s.guard h).completing = [] := hf.none_completing fun _ => nofun
    by_cases hg : h = g
    · subst hg
      rw [setGuard_same, hp]
      exact hold
    · rw [setGuard_other hg]
      exact hold
  refine
    { locked := ⟨nofun, fun ht => absurd rfl ht⟩
      waiting := fun _ => hq
      count := fun h => ?_
      starting := fun y => (hf.starting y).trans ⟨nofun, nofun⟩
      completing := fun h y => by rw [hnone h]; exact ⟨nofun, nofun⟩
      single := fun h => .inl (hnone h) }
  by_cases hg : h = g
  · subst hg
    rw [setGuard_same, hc, hr]
    exact hf.given_back
  · rw [setGuard_other hg]
    exact hf.even hg

/-- With somebody waiting the mutex is passed on. -/
theorem Fits.passed {rest : List Nat} (hf : Fits s (.owner g)) {f : Guard → Guard}
    (hc : ∀ p, (f p).completions = p.completions)
    (hr : ∀ p, (f p).releases = p.releases + 1)
    (hp : ∀ p, (f p).completing = x :: p.completing) :
    Fits ({ s with mutex := { s.mutex with waitingTasks := rest } }.setGuard g f)
      (.passing g x) := by
  have hold : ∀ h, (s.guard h).completing = [] := fun h => hf.none_completing fun _ => nofun
  refine
    { locked := ⟨fun _ => nofun, fun _ => hf.locked.mpr nofun⟩
      waiting := nofun
      count := fun h => ?_
      starting := fun y => (hf.starting y).trans ⟨nofun, nofun⟩
      completing := fun h y => ?_
      single := fun h => ?_ }
  all_goals by_cases hg : h = g
  · subst hg
    rw [setGuard_same, hc, hr]
    exact hf.given_back
  · rw [setGuard_other hg]
    exact hf.even hg
  · subst hg
    rw [setGuard_same, hp, show ({ s with mutex := _ } : State).guard h = s.guard h from rfl, hold]
    simp
  · rw [setGuard_other hg, show ({ s with mutex := _ } : State).guard h = s.guard h from rfl, hold]
    simp [Ne.symm hg]
  · subst hg
    rw [setGuard_same, hp, show ({ s with mutex := _ } : State).guard h = s.guard h from rfl, hold]
    exact .inr ⟨x, rfl⟩
  · rw [setGuard_other hg]
    exact .inl (hold h)

/-- The release was backed, and its unlock() has yet to come to its end. -/
theorem Backed.released {m : Mutex Nat} (hb : Backed s) (hu : 0 < (s.guard g).unlocking)
    {f : Guard → Guard} (hc : ∀ p, (f p).completions = p.completions)
    (hr : ∀ p, (f p).releases = p.releases + 1) (hl : ∀ p, (f p).latest = p.latest)
    (hn : ∀ p, (f p).unlocking = p.unlocking - 1) (hi : ∀ p, (f p).inside ≠ 0) :
    Backed ({ s with mutex := m }.setGuard g f) := by
  have hkeep : Backed { s with mutex := m } := ⟨hb.bound, hb.acquired, hb.owner, hb.fresh⟩
  have hbound := hb.bound g
  refine hkeep.setGuard ?_ (fun _ _ _ _ hin => absurd hin (hi _)) (hl _)
  rw [hr, hn, hc]
  dsimp only
  omega

theorem unlock_sound (h : Sound s) (hu : 0 < (s.guard g).unlocking) : Sound (unlock g s) := by
  have hf := h.turn_owner hu
  cases hq : s.mutex.waitingTasks with
  | nil =>
    rw [unlock_nil hq (hf.locked.mpr nofun)]
    refine ⟨⟨.free, hf.freed hq (fun _ => rfl) (fun _ => rfl) (fun _ => rfl)⟩, ?_, h.alive⟩
    refine h.backed.released hu (fun _ => rfl) (fun _ => rfl) (fun _ => rfl) (fun _ => rfl) ?_
    exact fun p => Nat.succ_ne_zero _
  | cons x rest =>
    rw [unlock_cons hq]
    refine ⟨⟨.passing g x, hf.passed (fun _ => rfl) (fun _ => rfl) (fun _ => rfl)⟩, ?_, h.alive⟩
    refine h.backed.released hu (fun _ => rfl) (fun _ => rfl) (fun _ => rfl) (fun _ => rfl) ?_
    intro p
    simp only [Guard.inside, List.length_cons]
    omega

theorem start_free (hl : s.mutex.locked = false) :
    start x s = State.setStatus { s with
      mutex := { s.mutex with locked := true } } x .starting := by
  simp [start, Mutex.start, hl]

theorem start_locked (hl : s.mutex.locked = true) :
    start x s = State.setStatus { s with
      mutex := { s.mutex with waitingTasks := s.mutex.waitingTasks ++ [x] } } x .waiting := by
  simp [start, Mutex.start, hl]

/-- A free mutex is taken. -/
theorem Fits.taken (hf : Fits s .free) :
    Fits (State.setStatus { s with mutex := { s.mutex with locked := true } } x .starting)
      (.starting x) := by
  refine
    { locked := ⟨fun _ => nofun, fun _ => rfl⟩
      waiting := nofun
      count := hf.count
      starting := fun y => ?_
      completing := fun g y => (hf.completing g y).trans ⟨nofun, nofun⟩
      single := hf.single }
  by_cases hyx : y = x
  · subst hyx
    rw [setStatus_same]
    simp
  · rw [setStatus_other hyx]
    refine (hf.starting y).trans ⟨nofun, fun heq => ?_⟩
    exact absurd (Turn.starting.inj heq).symm hyx

theorem keep_backed {m : Mutex Nat} (hb : Backed s) : Backed { s with mutex := m } :=
  ⟨hb.bound, hb.acquired, hb.owner, hb.fresh⟩

/-- A sender that neither takes the mutex nor completes leaves the turn alone. -/
theorem Fits.setStatus {turn : Turn} {q : Status} (hf : Fits s turn)
    (hx : (s.sender x).status = .unstarted) (hq : q ≠ .starting) :
    Fits (s.setStatus x q) turn := by
  refine hf.congr rfl (fun _ => rfl) (fun _ => ⟨rfl, rfl, rfl⟩) fun y => ?_
  by_cases hyx : y = x
  · subst hyx
    rw [setStatus_same, hx]
    exact ⟨fun heq => absurd heq hq, nofun⟩
  · rw [setStatus_other hyx]

theorem start_sound (h : Sound s) (hx : (s.sender x).status = .unstarted) :
    Sound (start x s) := by
  obtain ⟨⟨turn, hf⟩, hb, ha⟩ := h
  have hlt := hb.exists_ (.inl hx)
  cases hm : s.mutex.locked with
  | false =>
    have hfree : turn = .free := by
      by_cases ht : turn = .free
      · exact ht
      · exact absurd (hm.symm.trans (hf.locked.mpr ht)) nofun
    subst hfree
    rw [start_free hm]
    exact ⟨⟨.starting x, hf.taken⟩, (keep_backed hb).setStatus hlt nofun, ha⟩
  | true =>
    have hqueue : Fits { s with mutex := { s.mutex with
        waitingTasks := s.mutex.waitingTasks ++ [x] } } turn :=
      hf.congr rfl (fun ht => absurd ht (hf.locked.mp hm)) (fun _ => ⟨rfl, rfl, rfl⟩)
        (fun _ => Iff.rfl)
    rw [start_locked hm]
    exact ⟨⟨turn, hqueue.setStatus hx nofun⟩, (keep_backed hb).setStatus hlt nofun, ha⟩

theorem drop_sound (h : Sound s) (hx : (s.sender x).status = .unstarted) :
    Sound (s.setStatus x .dropped) := by
  obtain ⟨⟨turn, hf⟩, hb, ha⟩ := h
  exact ⟨⟨turn, hf.setStatus hx nofun⟩, hb.setStatus (hb.exists_ (.inl hx)) nofun, ha⟩

/-- The sender that was to be completed next makes its guard the owner. -/
theorem Fits.completed {turn : Turn} (hf : Fits s turn) (ht : turn ≠ .free)
    (ho : ∀ g, turn ≠ .owner g) (hx : ∀ y, turn = .starting y → y = x)
    (hm : s'.mutex = s.mutex)
    (hg : ∀ h, (s'.guard h).completions = ((complete x s).guard h).completions ∧
      (s'.guard h).releases = (s.guard h).releases ∧ (s'.guard h).completing = [])
    (hs : s'.sender = (complete x s).sender) : Fits s' (.owner (s.sender x).guard) := by
  have heven : ∀ h, (s.guard h).completions = (s.guard h).releases := by
    intro h
    have hc := hf.count h
    rwa [if_neg (ho h)] at hc
  refine
    { locked := ⟨fun _ => nofun, fun _ => by rw [hm]; exact hf.locked.mpr ht⟩
      waiting := nofun
      count := fun h => ?_
      starting := fun y => ?_
      completing := fun h y => by rw [(hg h).2.2]; exact ⟨nofun, nofun⟩
      single := fun h => .inl (hg h).2.2 }
  · rw [(hg h).1, (hg h).2.1, ← heven h]
    by_cases hown : h = (s.sender x).guard
    · rw [complete_owner hown, if_pos (by rw [hown])]
    · rw [complete_other hown, if_neg fun heq => hown (Turn.owner.inj heq).symm, Nat.add_zero]
  · rw [hs, complete_sender]
    by_cases hyx : y = x
    · subst hyx
      rw [setStatus_same]
      exact ⟨nofun, nofun⟩
    · rw [setStatus_other hyx]
      refine (hf.starting y).trans ⟨fun heq => absurd (hx y heq) hyx, nofun⟩

theorem complete_sound (h : Sound s) (hx : (s.sender x).status = .starting) :
    Sound (complete x s) := by
  obtain ⟨⟨turn, hf⟩, hb, ha⟩ := h
  have hturn := (hf.starting x).mp hx
  subst hturn
  refine ⟨⟨.owner (s.sender x).guard, ?_⟩, hb.complete, ha⟩
  refine hf.completed nofun (fun _ => nofun) (fun y heq => (Turn.starting.inj heq).symm) rfl
    (fun h => ?_) rfl
  obtain ⟨hreleases, hcompleting⟩ := complete_keeps (s := s) (x := x) (h := h)
  exact ⟨rfl, hreleases, hcompleting.trans (hf.none_completing fun _ => nofun)⟩

theorem completeNext_sound (h : Sound s) (hx : x ∈ (s.guard g).completing) :
    Sound ((complete x s).setGuard g (fun p =>
      { p with completing := p.completing.erase x, disowning := p.disowning + 1 })) := by
  obtain ⟨⟨turn, hf⟩, hb, ha⟩ := h
  have hone : (s.guard g).completing = [x] := by
    rcases hf.single g with hnone | ⟨y, hy⟩
    · rw [hnone] at hx
      exact absurd hx List.not_mem_nil
    · rw [hy, List.mem_singleton] at hx
      rw [hy, hx]
  have hturn := (hf.completing g x).mp hone
  subst hturn
  refine ⟨⟨.owner (s.sender x).guard, ?_⟩, ?_, ha⟩
  · refine hf.completed nofun (fun _ => nofun) (fun _ => nofun) rfl (fun h => ?_) rfl
    obtain ⟨hreleases, hcompleting⟩ := complete_keeps (s := s) (x := x) (h := h)
    by_cases hg : h = g
    · subst hg
      rw [setGuard_same]
      exact ⟨rfl, hreleases, by rw [hcompleting, hone, List.erase_cons_head]⟩
    · rw [setGuard_other hg]
      refine ⟨rfl, hreleases, hcompleting.trans (hf.none_completing fun y heq => ?_)⟩
      exact hg (Turn.passing.inj heq).1.symm
  · have hbound := hb.complete (x := x) |>.bound g
    exact hb.complete.setGuard hbound (fun _ _ _ _ hin => absurd hin (Nat.succ_ne_zero _)) rfl

theorem lock_guard_same : (lock g s).guard g =
    { s.guard g with owned := true, latest := some s.senders } := if_pos rfl

theorem lock_guard_other (hne : h ≠ g) : (lock g s).guard h = s.guard h := if_neg hne

theorem lock_sender_new : (lock g s).sender s.senders = ⟨g, .unstarted⟩ := if_pos rfl

theorem lock_sender_other (hne : x ≠ s.senders) : (lock g s).sender x = s.sender x := if_neg hne

theorem Fits.lock {turn : Turn} (hf : Fits s turn) (hb : Backed s) :
    Fits (LockGuard.lock g s) turn := by
  refine hf.congr rfl (fun _ => rfl) (fun h => ?_) (fun y => ?_)
  · by_cases hg : h = g
    · subst hg
      rw [lock_guard_same]
      exact ⟨rfl, rfl, rfl⟩
    · rw [lock_guard_other hg]
      exact ⟨rfl, rfl, rfl⟩
  · by_cases hy : y = s.senders
    · subst hy
      rw [lock_sender_new]
      exact ⟨nofun, fun heq => absurd heq (hb.fresh _ (Nat.le_refl _)).2⟩
    · rw [lock_sender_other hy]

/-- The new sender has not completed, and the earlier ones stay what they were. -/
theorem Backed.lock (hb : Backed s) : Backed (LockGuard.lock g s) := by
  have hold : ∀ {h x}, (s.guard h).latest = some x → x ≠ s.senders :=
    fun hl => Nat.ne_of_lt (hb.owner _ _ hl).1
  refine
    { bound := fun h => ?_
      acquired := fun h x ho hl hc hi => ?_
      owner := fun h x hl => ?_
      fresh := fun x hx => ?_ }
  · by_cases hg : h = g
    · subst hg
      rw [lock_guard_same]
      exact hb.bound h
    · rw [lock_guard_other hg]
      exact hb.bound h
  · by_cases hg : h = g
    · subst hg
      rw [lock_guard_same] at hl
      cases hl
      rw [lock_sender_new] at hc
      cases hc
    · rw [lock_guard_other hg] at ho hl hi ⊢
      rw [lock_sender_other (hold hl)] at hc
      exact hb.acquired h x ho hl hc hi
  · by_cases hg : h = g
    · subst hg
      rw [lock_guard_same] at hl
      cases hl
      rw [lock_sender_new]
      exact ⟨Nat.lt_succ_self _, rfl⟩
    · rw [lock_guard_other hg] at hl
      rw [lock_sender_other (hold hl)]
      exact ⟨Nat.lt_succ_of_lt (hb.owner h x hl).1, (hb.owner h x hl).2⟩
  · rw [lock_sender_other (Nat.ne_of_gt hx)]
    exact hb.fresh x (Nat.le_of_succ_le hx)

theorem lock_sound (h : Sound s) : Sound (lock g s) := by
  obtain ⟨⟨turn, hf⟩, hb, ha⟩ := h
  exact ⟨⟨turn, hf.lock hb⟩, hb.lock, ha⟩

/-- A change of one guard that keeps the calls in mutex::unlock, the counts and
the latest sender leaves the turn alone. -/
theorem setGuard_sound {f : Guard → Guard} (h : Sound s)
    (hc : ∀ p, (f p).completing = p.completing ∧ (f p).completions = p.completions ∧
      (f p).releases = p.releases ∧ (f p).latest = p.latest)
    (hb : (f (s.guard g)).releases + (f (s.guard g)).unlocking ≤ (f (s.guard g)).completions)
    (hi : (f (s.guard g)).owned = true → (f (s.guard g)).inside = 0 →
      (s.guard g).owned = true ∧ (s.guard g).inside = 0) : Sound (s.setGuard g f) := by
  obtain ⟨⟨turn, hf⟩, hback, ha⟩ := h
  obtain ⟨hcompleting, hcompletions, hreleases, hlatest⟩ := hc (s.guard g)
  refine ⟨⟨turn, ?_⟩, ?_, ha⟩
  · refine hf.congr rfl (fun _ => rfl) (fun h => ?_) (fun _ => Iff.rfl)
    by_cases hg : h = g
    · subst hg
      rw [setGuard_same]
      exact ⟨hcompletions, hreleases, hcompleting⟩
    · rw [setGuard_other hg]
      exact ⟨rfl, rfl, rfl⟩
  · refine hback.setGuard hb (fun x ho hl hs hin => ?_) hlatest
    obtain ⟨hown, hidle⟩ := hi ho hin
    rw [hreleases, hcompletions]
    exact hback.acquired g x hown (hlatest ▸ hl) hs hidle

theorem testOwned_sound (h : Sound s)
    (hu : (s.guard g).owned = true →
      ((s.guard g).latest.any fun x => (s.sender x).status = .completed) ∧
        (s.guard g).inside = 0) : Sound (testOwned g s) := by
  unfold testOwned
  split
  · rename_i hown
    obtain ⟨hlat, hin⟩ := hu hown
    obtain ⟨x, hx, hdone⟩ := (Option.any_eq_true _ _).mp hlat
    have hlt := h.backed.acquired g x hown hx (by simpa using hdone) hin
    have hnone : (s.guard g).unlocking = 0 := by
      unfold Guard.inside at hin
      omega
    apply setGuard_sound h
    · intro p
      exact ⟨rfl, rfl, rfl, rfl⟩
    · dsimp only
      omega
    · intro _ hins
      simp only [Guard.inside] at hins
      omega
  · exact h

theorem step_sound (h : Sound s) (hu : UnlocksAcquired s e) (hs : step s e = some s') :
    Sound s' := by
  cases e with
  | construct g =>
    simp only [step] at hs
    split at hs <;> cases hs
    exact setGuard_sound h (fun _ => ⟨rfl, rfl, rfl, rfl⟩) (h.backed.bound g) (by simp)
  | lock g =>
    simp only [step] at hs
    split at hs <;> cases hs
    exact lock_sound h
  | start x =>
    simp only [step] at hs
    split at hs <;> cases hs
    rename_i hx
    exact start_sound h hx
  | drop x =>
    simp only [step] at hs
    split at hs <;> cases hs
    rename_i hx
    exact drop_sound h hx
  | complete x =>
    simp only [step] at hs
    split at hs <;> cases hs
    rename_i hx
    exact complete_sound h hx
  | unlockGuard g =>
    simp only [step] at hs
    split at hs <;> cases hs
    exact testOwned_sound h hu
  | destroy g =>
    simp only [step] at hs
    split at hs <;> cases hs
    apply testOwned_sound
    · exact setGuard_sound h (fun _ => ⟨rfl, rfl, rfl, rfl⟩) (h.backed.bound g)
        (fun ho hi => ⟨ho, hi⟩)
    · simpa [State.setGuard, UnlocksAcquired, Guard.inside] using hu
  | unlock g =>
    simp only [step] at hs
    split at hs <;> cases hs
    rename_i hg
    exact unlock_sound h hg
  | completeNext g x =>
    simp only [step] at hs
    split at hs <;> cases hs
    rename_i hx
    exact completeNext_sound h hx
  | disown g =>
    simp only [step] at hs
    split at hs <;> cases hs
    exact setGuard_sound h (fun _ => ⟨rfl, rfl, rfl, rfl⟩) (h.backed.bound g) (by simp)

theorem reachable_sound (hr : machine.ReachableBy UnlocksAcquired s) : Sound s := by
  refine hr.invariant ⟨⟨.free, ?_⟩, ?_, rfl⟩ (fun _ _ _ h hu hs => step_sound h hu hs)
  · constructor <;> simp [machine, initial, Mutex.unlocked, unborn]
  · constructor <;> simp [machine, initial, unborn]

/-- mutex::unlock is invoked through a guard at most once for each completed
acquisition of it; a guard with an acquisition that was not given back has the
mutex, alone; and the process is not terminated. -/
structure ReleasesOwn (s : State) : Prop where
  released : ∀ g, (s.guard g).releases ≤ (s.guard g).completions
  kept : ∀ g, (s.guard g).releases < (s.guard g).completions → s.mutex.locked = true ∧
    ∀ h, (s.guard h).releases < (s.guard h).completions → h = g
  alive : s.terminated = false

theorem releases_own (hr : machine.ReachableBy UnlocksAcquired s) : ReleasesOwn s := by
  obtain ⟨⟨turn, hf⟩, hb, ha⟩ := reachable_sound hr
  have howner : ∀ g, (s.guard g).releases < (s.guard g).completions → turn = .owner g :=
    fun _ hg => hf.owner hg
  refine ⟨fun g => ?_, fun g hg => ⟨hf.locked.mpr ?_, fun h hh => ?_⟩, ha⟩
  · have := hb.bound g
    omega
  · simp [howner g hg]
  · have he := (howner h hh).symm.trans (howner g hg)
    exact Turn.owner.inj he

/-- Two guards take turns: the second waits, gets the mutex when the first is
unlocked, and gives it back when it is destroyed. -/
def twoGuards : List Event :=
  [.construct 0, .construct 1, .lock 0, .start 0, .complete 0, .lock 1, .start 1,
   .unlockGuard 0, .unlock 0, .completeNext 0 1, .disown 0, .destroy 0, .destroy 1, .unlock 1]

theorem releases_own_twoGuards :
    ∃ s, machine.run machine.init twoGuards = some s ∧ s.mutex.locked = false ∧
      (s.guard 1).releases = 1 ∧ ReleasesOwn s :=
  ⟨_, rfl, rfl, rfl, releases_own
    (Machine.reachableBy_of_runBy UnlocksAcquired twoGuards rfl)⟩

/-- A guard whose lock() sender was dropped is destroyed. -/
def destroyUnacquired (x : Nat) : List Event :=
  [.construct 1, .lock 1, .drop x, .destroy 1, .unlock 1]

/-- With another guard inside its critical section that one's mutex is unlocked,
and with the mutex unlocked the process is terminated. -/
theorem releases_another :
    (∃ s, machine.run machine.init
        ([.construct 0, .lock 0, .start 0, .complete 0] ++ destroyUnacquired 1) = some s ∧
      (s.guard 1).completions = 0 ∧ (s.guard 1).releases = 1 ∧
      (s.guard 0).releases < (s.guard 0).completions ∧ s.mutex.locked = false) ∧
    (∃ s, machine.run machine.init (destroyUnacquired 0) = some s ∧ s.terminated = true) ∧
    ¬ ∀ s, machine.Reachable s → ReleasesOwn s := by
  refine ⟨⟨_, rfl, rfl, rfl, by decide, rfl⟩, ⟨_, rfl, rfl⟩, fun h => ?_⟩
  exact Bool.noConfusion (h _ (Machine.reachable_of_run (destroyUnacquired 0) rfl)).alive

end Sdbusplus.Proofs.LockGuard
