import Sdbusplus.Base.Machine

/-! Calls between two parties with any number of them under way. What is under way of a
call, its request, its task or its reply, may overtake what is under way of others, and a
caller may stop waiting. -/

/-- The two parties: what comes of a request at once, an answer or a task; what a task sends
when it ends, if anything; what the caller makes of a reply, and of none in time. The server
may be lost on a request or a task. Y and X are what else these depend on. -/
structure Exchange (Q R T X Y O : Type) where
  accept : Q → Y → Option (R ⊕ T)
  finish : T → X → Option (Option R)
  complete : R → O
  expired : O

namespace Exchange

variable {Q R T X Y O : Type}

/-- The requests that were made, by number; what is under way of which; on what each request
and each task depended; the calls that ended without a reply; those whose reply has arrived,
also if it was too late; those that are waited for and those whose time is over; and what the
callers were told. -/
structure State (Q R T X Y O : Type) where
  asked : List Q
  requests : List (Nat × Q)
  tasks : List (Nat × T)
  replies : List (Nat × R)
  begun : List (Nat × Y)
  finished : List (Nat × X)
  silent : List Nat
  arrived : List Nat
  waiting : List Nat
  timedOut : List Nat
  completed : List (Nat × O)

def initial : State Q R T X Y O := ⟨[], [], [], [], [], [], [], [], [], [], []⟩

inductive Event (Q X Y : Type)
  | ask (q : Q)
  /-- The i-th of the requests under way comes to the server; and so on. -/
  | accept (i : Nat) (y : Y)
  | finish (i : Nat) (x : X)
  | arrive (i : Nat)
  | expire (c : Nat)

variable (E : Exchange Q R T X Y O)

def ask (s : State Q R T X Y O) (q : Q) : State Q R T X Y O :=
  { s with
    asked := s.asked ++ [q]
    requests := s.requests ++ [(s.asked.length, q)]
    waiting := s.waiting ++ [s.asked.length] }

/-- An answer at once, or a task. -/
def started (s : State Q R T X Y O) (c : Nat) (y : Y) : R ⊕ T → State Q R T X Y O
  | .inl r => { s with begun := s.begun ++ [(c, y)], replies := s.replies ++ [(c, r)] }
  | .inr t => { s with begun := s.begun ++ [(c, y)], tasks := s.tasks ++ [(c, t)] }

/-- A reply, or none. -/
def ended (s : State Q R T X Y O) (c : Nat) (x : X) : Option R → State Q R T X Y O
  | some r => { s with finished := s.finished ++ [(c, x)], replies := s.replies ++ [(c, r)] }
  | none => { s with finished := s.finished ++ [(c, x)], silent := s.silent ++ [c] }

/-- The caller is told if it still waits. -/
def tell (s : State Q R T X Y O) (c : Nat) (o : O) : State Q R T X Y O :=
  if c ∈ s.waiting then
    { s with waiting := s.waiting.erase c, completed := s.completed ++ [(c, o)] }
  else s

def step (s : State Q R T X Y O) : Event Q X Y → Option (State Q R T X Y O)
  | .ask q => some (ask s q)
  | .accept i y => do
    let (c, q) ← s.requests[i]?
    let a ← E.accept q y
    some (started { s with requests := s.requests.eraseIdx i } c y a)
  | .finish i x => do
    let (c, t) ← s.tasks[i]?
    let r ← E.finish t x
    some (ended { s with tasks := s.tasks.eraseIdx i } c x r)
  | .arrive i => do
    let (c, r) ← s.replies[i]?
    some (tell { s with replies := s.replies.eraseIdx i, arrived := s.arrived ++ [c] } c
      (E.complete r))
  | .expire c =>
    if c ∈ s.waiting then some (tell { s with timedOut := s.timedOut ++ [c] } c E.expired)
    else none

def machine : Machine (State Q R T X Y O) (Event Q X Y) := ⟨initial, E.step⟩

section counting

variable {α : Type}

/-- How many of numbered things have a number. -/
def tally (xs : List (Nat × α)) (c : Nat) : Nat := (xs.map Prod.fst).count c

theorem tally_append (xs ys : List (Nat × α)) (c : Nat) :
    tally (xs ++ ys) c = tally xs c + tally ys c := by
  unfold tally
  rw [List.map_append, List.count_append]

theorem tally_singleton (a : Nat) (x : α) (c : Nat) :
    tally [(a, x)] c = if a = c then 1 else 0 := by
  by_cases h : a = c
  · subst h
    simp [tally]
  · simp [tally, h]

theorem tally_eraseIdx {xs : List (Nat × α)} {i : Nat} {p : Nat × α} (h : xs[i]? = some p)
    (c : Nat) : tally (xs.eraseIdx i) c + (if p.1 = c then 1 else 0) = tally xs c := by
  induction xs generalizing i with
  | nil => simp at h
  | cons x xs ih =>
    cases i with
    | zero =>
      obtain rfl : x = p := by simpa using h
      rw [List.eraseIdx_cons_zero, ← tally_singleton x.1 x.2, Nat.add_comm, ← tally_append]
      rfl
    | succ i =>
      have hrest := ih (i := i) (by simpa using h)
      have hcons : ∀ ys : List (Nat × α), tally (x :: ys) c =
          (if x.1 = c then 1 else 0) + tally ys c := by
        intro ys
        rw [← tally_singleton x.1 x.2, ← tally_append]
        rfl
      rw [List.eraseIdx_cons_succ, hcons, hcons]
      omega

theorem forall_mem_concat {P : α → Prop} {xs : List α} {a : α} (h : ∀ x ∈ xs, P x) (ha : P a) :
    ∀ x ∈ xs ++ [a], P x :=
  List.forall_mem_append.mpr ⟨h, List.forall_mem_singleton.mpr ha⟩

theorem count_erase_mem {xs : List Nat} {a : Nat} (h : a ∈ xs) (c : Nat) :
    (xs.erase a).count c + (if a = c then 1 else 0) = xs.count c := by
  rw [List.count_erase]
  by_cases hc : a = c
  · subst hc
    have hpos := List.count_pos_iff.mpr h
    simp
    omega
  · simp [hc]

end counting

section invariants

variable {E : Exchange Q R T X Y O} {s s' : State Q R T X Y O} {e : Event Q X Y}

/-- Where the calls with a number are. -/
def places (s : State Q R T X Y O) (c : Nat) : Nat :=
  tally s.requests c + tally s.tasks c + tally s.replies c + s.silent.count c + s.arrived.count c

/-- A task that the server has for what was asked, as the request found it. -/
def Serves (E : Exchange Q R T X Y O) (s : State Q R T X Y O) (c : Nat) (t : T) : Prop :=
  ∃ q y, s.asked[c]? = some q ∧ (c, y) ∈ s.begun ∧ E.accept q y = some (.inr t)

/-- What the task of a call ended with, as it found the server. -/
def Ends (E : Exchange Q R T X Y O) (s : State Q R T X Y O) (c : Nat) (r : Option R) : Prop :=
  ∃ t x, Serves E s c t ∧ (c, x) ∈ s.finished ∧ E.finish t x = some r

/-- A reply that the server made for what was asked, at once or by its task. -/
def Answers (E : Exchange Q R T X Y O) (s : State Q R T X Y O) (c : Nat) (r : R) : Prop :=
  (∃ q y, s.asked[c]? = some q ∧ (c, y) ∈ s.begun ∧ E.accept q y = some (.inl r)) ∨
    Ends E s c (some r)

/-- What a caller is told: that time is over, or a reply. -/
def Tells (E : Exchange Q R T X Y O) (s : State Q R T X Y O) (c : Nat) (o : O) : Prop :=
  (c ∈ s.timedOut ∧ o = E.expired) ∨ ∃ r, Answers E s c r ∧ o = E.complete r

/-- Every call is in one place, and waited for or completed, once; its request and its task
come to the server once; nobody waits for a call whose reply has arrived; and what is under way
of a call comes from what was asked. -/
structure Inv (E : Exchange Q R T X Y O) (s : State Q R T X Y O) : Prop where
  placed : ∀ c, places s c = if c < s.asked.length then 1 else 0
  told : ∀ c, s.waiting.count c + tally s.completed c = if c < s.asked.length then 1 else 0
  begins : ∀ c, tally s.requests c + tally s.begun c = if c < s.asked.length then 1 else 0
  ends : ∀ c, tally s.tasks c + tally s.finished c ≤ tally s.begun c
  heard : ∀ c ∈ s.arrived, c ∉ s.waiting
  requests : ∀ p ∈ s.requests, s.asked[p.1]? = some p.2
  tasks : ∀ p ∈ s.tasks, Serves E s p.1 p.2
  replies : ∀ p ∈ s.replies, Answers E s p.1 p.2
  silent : ∀ c ∈ s.silent, Ends E s c none
  completed : ∀ p ∈ s.completed, Tells E s p.1 p.2

theorem inv_initial : Inv E (initial : State Q R T X Y O) := by
  constructor <;> simp [initial, places, tally]

/-- What has happened stays. -/
structure Later (s s' : State Q R T X Y O) : Prop where
  asked : ∀ (c : Nat) (q : Q), s.asked[c]? = some q → s'.asked[c]? = some q
  begun : ∀ p ∈ s.begun, p ∈ s'.begun
  finished : ∀ p ∈ s.finished, p ∈ s'.finished
  timedOut : ∀ c ∈ s.timedOut, c ∈ s'.timedOut

theorem Serves.later {c : Nat} {t : T} (h : Serves E s c t) (hl : Later s s') :
    Serves E s' c t := by
  obtain ⟨q, y, hq, hy, ht⟩ := h
  exact ⟨q, y, hl.asked c q hq, hl.begun _ hy, ht⟩

theorem Ends.later {c : Nat} {r : Option R} (h : Ends E s c r) (hl : Later s s') :
    Ends E s' c r := by
  obtain ⟨t, x, ht, hx, hr⟩ := h
  exact ⟨t, x, ht.later hl, hl.finished _ hx, hr⟩

theorem Answers.later {c : Nat} {r : R} (h : Answers E s c r) (hl : Later s s') :
    Answers E s' c r := by
  rcases h with ⟨q, y, hq, hy, hr⟩ | h
  · exact .inl ⟨q, y, hl.asked c q hq, hl.begun _ hy, hr⟩
  · exact .inr (h.later hl)

theorem Tells.later {c : Nat} {o : O} (h : Tells E s c o) (hl : Later s s') :
    Tells E s' c o := by
  rcases h with ⟨hc, ho⟩ | ⟨r, hr, ho⟩
  · exact .inl ⟨hl.timedOut c hc, ho⟩
  · exact .inr ⟨r, hr.later hl, ho⟩

theorem later_ask (q : Q) : Later s (ask s q) := by
  refine ⟨fun c q' hq => ?_, fun _ hp => hp, fun _ hp => hp, fun _ hc => hc⟩
  change (s.asked ++ [q])[c]? = some q'
  rw [List.getElem?_append_left (List.getElem?_eq_some_iff.mp hq).1]
  exact hq

theorem inv_ask (h : Inv E s) (q : Q) : Inv E (ask s q) := by
  have hlater : Later s (ask s q) := later_ask q
  have hfresh : ∀ c, (if c < (ask s q).asked.length then 1 else 0) =
      (if c < s.asked.length then 1 else 0) + if s.asked.length = c then 1 else 0 := by
    intro c
    have hlength : (ask s q).asked.length = s.asked.length + 1 := List.length_append
    rw [hlength]
    split <;> split <;> split <;> omega
  refine ⟨fun c => ?_, fun c => ?_, fun c => ?_, h.ends, fun c hc => ?_, ?_,
    fun p hp => (h.tasks p hp).later hlater, fun p hp => (h.replies p hp).later hlater,
    fun c hc => (h.silent c hc).later hlater, fun p hp => (h.completed p hp).later hlater⟩
  · have hplaced := h.placed c
    rw [hfresh]
    unfold places at hplaced ⊢
    simp only [ask, tally_append, tally_singleton]
    omega
  · have htold := h.told c
    rw [hfresh]
    simp only [ask, List.count_append, List.count_singleton, beq_iff_eq, tally] at htold ⊢
    omega
  · have hbegins := h.begins c
    rw [hfresh]
    simp only [ask, tally_append, tally_singleton]
    omega
  · have hold := h.heard c hc
    have hplaced := h.placed c
    have hcount : 0 < s.arrived.count c := List.count_pos_iff.mpr hc
    unfold places at hplaced
    simp only [ask, List.mem_append, List.mem_singleton, not_or]
    refine ⟨hold, fun heq => ?_⟩
    rw [if_neg (by omega)] at hplaced
    omega
  · exact forall_mem_concat (fun p hp => hlater.asked _ _ (h.requests p hp))
      List.getElem?_concat_length

theorem inv_accept {i c : Nat} {q : Q} {y : Y} {a : R ⊕ T} (h : Inv E s)
    (hi : s.requests[i]? = some (c, q)) (ha : E.accept q y = some a) :
    Inv E (started { s with requests := s.requests.eraseIdx i } c y a) := by
  have hq := h.requests _ (List.mem_of_getElem? hi)
  have hrest : ∀ p ∈ s.requests.eraseIdx i, s.asked[p.1]? = some p.2 :=
    fun p hp => h.requests p (List.mem_of_mem_eraseIdx hp)
  have hcount : ∀ d, tally (s.requests.eraseIdx i) d + (if c = d then 1 else 0) =
      tally s.requests d := tally_eraseIdx hi
  have hnew : (c, y) ∈ s.begun ++ [(c, y)] := List.mem_concat_self
  have hlater : Later s (started { s with requests := s.requests.eraseIdx i } c y a) := by
    cases a <;> exact ⟨fun _ _ hq => hq, fun _ hp => List.mem_append_left _ hp,
      fun _ hp => hp, fun _ hc => hc⟩
  cases a with
  | inl r =>
    refine ⟨fun d => ?_, h.told, fun d => ?_, fun d => ?_, h.heard, hrest,
      fun p hp => (h.tasks p hp).later hlater, ?_,
      fun d hd => (h.silent d hd).later hlater, fun p hp => (h.completed p hp).later hlater⟩
    · refine Eq.trans ?_ (h.placed d)
      simp only [places, started, tally_append, tally_singleton, ← hcount d]
      omega
    · refine Eq.trans ?_ (h.begins d)
      simp only [started, tally_append, tally_singleton, ← hcount d]
      omega
    · refine Nat.le_trans (h.ends d) ?_
      simp only [started, tally_append]
      omega
    · exact forall_mem_concat (fun p hp => (h.replies p hp).later hlater)
        (.inl ⟨q, y, hq, hnew, ha⟩)
  | inr t =>
    refine ⟨fun d => ?_, h.told, fun d => ?_, fun d => ?_, h.heard, hrest, ?_,
      fun p hp => (h.replies p hp).later hlater, fun d hd => (h.silent d hd).later hlater,
      fun p hp => (h.completed p hp).later hlater⟩
    · refine Eq.trans ?_ (h.placed d)
      simp only [places, started, tally_append, tally_singleton, ← hcount d]
      omega
    · refine Eq.trans ?_ (h.begins d)
      simp only [started, tally_append, tally_singleton, ← hcount d]
      omega
    · have hends := h.ends d
      simp only [started, tally_append, tally_singleton]
      omega
    · exact forall_mem_concat (fun p hp => (h.tasks p hp).later hlater) ⟨q, y, hq, hnew, ha⟩

theorem inv_finish {i c : Nat} {t : T} {x : X} {r : Option R} (h : Inv E s)
    (hi : s.tasks[i]? = some (c, t)) (hx : E.finish t x = some r) :
    Inv E (ended { s with tasks := s.tasks.eraseIdx i } c x r) := by
  have ht := h.tasks _ (List.mem_of_getElem? hi)
  have hcount : ∀ d, tally (s.tasks.eraseIdx i) d + (if c = d then 1 else 0) =
      tally s.tasks d := tally_eraseIdx hi
  have hnew : (c, x) ∈ s.finished ++ [(c, x)] := List.mem_concat_self
  have hlater : Later s (ended { s with tasks := s.tasks.eraseIdx i } c x r) := by
    cases r <;> exact ⟨fun _ _ hq => hq, fun _ hp => hp,
      fun _ hp => List.mem_append_left _ hp, fun _ hc => hc⟩
  have hrest : ∀ p ∈ s.tasks.eraseIdx i,
      Serves E (ended { s with tasks := s.tasks.eraseIdx i } c x r) p.1 p.2 :=
    fun p hp => (h.tasks p (List.mem_of_mem_eraseIdx hp)).later hlater
  have hserves := ht.later hlater
  cases r with
  | some r =>
    refine ⟨fun d => ?_, h.told, h.begins, fun d => ?_, h.heard, h.requests, hrest,
      ?_, fun d hd => (h.silent d hd).later hlater,
      fun p hp => (h.completed p hp).later hlater⟩
    · refine Eq.trans ?_ (h.placed d)
      simp only [places, ended, tally_append, tally_singleton, ← hcount d]
      omega
    · refine Nat.le_trans (Nat.le_of_eq ?_) (h.ends d)
      simp only [ended, tally_append, tally_singleton, ← hcount d]
      omega
    · exact forall_mem_concat (fun p hp => (h.replies p hp).later hlater)
        (.inr ⟨t, x, hserves, hnew, hx⟩)
  | none =>
    refine ⟨fun d => ?_, h.told, h.begins, fun d => ?_, h.heard, h.requests, hrest,
      fun p hp => (h.replies p hp).later hlater, ?_,
      fun p hp => (h.completed p hp).later hlater⟩
    · refine Eq.trans ?_ (h.placed d)
      simp only [places, ended, List.count_append, List.count_singleton, beq_iff_eq, ← hcount d]
      omega
    · refine Nat.le_trans (Nat.le_of_eq ?_) (h.ends d)
      simp only [ended, tally_append, tally_singleton, ← hcount d]
      omega
    · exact forall_mem_concat (fun d hd => (h.silent d hd).later hlater) ⟨t, x, hserves, hnew, hx⟩

/-- The time of a call that is waited for is over. -/
theorem inv_expire {c : Nat} (h : Inv E s) (hc : c ∈ s.waiting) :
    Inv E (tell { s with timedOut := s.timedOut ++ [c] } c E.expired) := by
  have hlater : Later s { s with
      waiting := s.waiting.erase c
      timedOut := s.timedOut ++ [c]
      completed := s.completed ++ [(c, E.expired)] } :=
    ⟨fun _ _ hq => hq, fun _ hp => hp, fun _ hp => hp, fun _ hd => List.mem_append_left _ hd⟩
  unfold tell
  rw [if_pos hc]
  refine ⟨h.placed, fun d => ?_, h.begins, h.ends,
    fun d hd hw => h.heard d hd (List.mem_of_mem_erase hw), h.requests,
    fun p hp => (h.tasks p hp).later hlater, fun p hp => (h.replies p hp).later hlater,
    fun d hd => (h.silent d hd).later hlater, ?_⟩
  · have htold := h.told d
    have hd := count_erase_mem hc d
    simp only [tally_append, tally_singleton]
    omega
  · exact forall_mem_concat (fun p hp => (h.completed p hp).later hlater)
      (.inl ⟨List.mem_concat_self, rfl⟩)

/-- A reply that is there is the only thing that is under way of its call. -/
theorem inv_arrive {i c : Nat} {r : R} (h : Inv E s) (hi : s.replies[i]? = some (c, r)) :
    Inv E (tell { s with replies := s.replies.eraseIdx i, arrived := s.arrived ++ [c] } c
      (E.complete r)) := by
  have hanswer := h.replies _ (List.mem_of_getElem? hi)
  have hrest : ∀ p ∈ s.replies.eraseIdx i, Answers E s p.1 p.2 :=
    fun p hp => h.replies p (List.mem_of_mem_eraseIdx hp)
  have hcount : ∀ d, tally (s.replies.eraseIdx i) d + (if c = d then 1 else 0) =
      tally s.replies d := tally_eraseIdx hi
  have hwaits : s.waiting.count c ≤ 1 := by
    have htold := h.told c
    split at htold <;> omega
  have harrived : ∀ d, places
      { s with replies := s.replies.eraseIdx i, arrived := s.arrived ++ [c] } d =
        if d < s.asked.length then 1 else 0 := by
    intro d
    refine Eq.trans ?_ (h.placed d)
    simp only [places, List.count_append, List.count_singleton, beq_iff_eq, ← hcount d]
    omega
  unfold tell
  split
  · rename_i hc
    refine ⟨harrived, fun d => ?_, h.begins, h.ends, ?_, h.requests, h.tasks, hrest, h.silent,
      ?_⟩
    · refine Eq.trans ?_ (h.told d)
      have hd : (s.waiting.erase c).count d + (if c = d then 1 else 0) = s.waiting.count d :=
        count_erase_mem hc d
      simp only [tally_append, tally_singleton]
      omega
    · refine forall_mem_concat (fun d hd hw => h.heard d hd (List.mem_of_mem_erase hw)) fun hw => ?_
      have hgone : (s.waiting.erase c).count c + (if c = c then 1 else 0) = s.waiting.count c :=
        count_erase_mem hc c
      have hleft : 0 < (s.waiting.erase c).count c := List.count_pos_iff.mpr hw
      rw [if_pos rfl] at hgone
      omega
    · exact forall_mem_concat h.completed (.inr ⟨r, hanswer, rfl⟩)
  · rename_i hc
    exact ⟨harrived, h.told, h.begins, h.ends, forall_mem_concat h.heard hc, h.requests, h.tasks,
      hrest, h.silent, h.completed⟩

theorem inv_step (h : Inv E s) (hstep : E.step s e = some s') : Inv E s' := by
  cases e with
  | ask q =>
    obtain rfl : ask s q = s' := Option.some.inj hstep
    exact inv_ask h q
  | accept i y =>
    obtain ⟨⟨c, q⟩, hi, hstep⟩ := Option.bind_eq_some_iff.mp hstep
    obtain ⟨a, ha, hstep⟩ := Option.bind_eq_some_iff.mp hstep
    obtain rfl := Option.some.inj hstep
    exact inv_accept h hi ha
  | finish i x =>
    obtain ⟨⟨c, t⟩, hi, hstep⟩ := Option.bind_eq_some_iff.mp hstep
    obtain ⟨r, hr, hstep⟩ := Option.bind_eq_some_iff.mp hstep
    obtain rfl := Option.some.inj hstep
    exact inv_finish h hi hr
  | arrive i =>
    obtain ⟨⟨c, r⟩, hi, hstep⟩ := Option.bind_eq_some_iff.mp hstep
    obtain rfl := Option.some.inj hstep
    exact inv_arrive h hi
  | expire c =>
    rw [step] at hstep
    split at hstep
    · rename_i hc
      obtain rfl := Option.some.inj hstep
      exact inv_expire h hc
    · cases hstep

end invariants

end Exchange
