import Mathlib.Data.List.Perm.Basic
import Sdbusplus.Asio.AsyncSend
import Sdbusplus.Proofs.RoundTrip

namespace Sdbusplus.Proofs.AsyncSend
open Message
open Asio (BusError ErrnoTable Reply)
open Asio.AsyncSend
open Proofs.RoundTrip (newestFirst lenient)
open Asio.YieldMethodCall (ErrorCode Request SdBus)

variable {h : HashOrder} {lib : LibSystemd} {errnos : ErrnoTable} {bus : SdBus}
  {contexts : Nat → Option Context} {as bs : List Nat} {a i n : Nat} {x : Context}
  {w w' : World} {due : List Nat} {r : Int}

section memory

/-- Every context that is allocated has one owner, and the owners own nothing else. -/
structure Owned (contexts : Nat → Option Context) (as : List Nat) : Prop where
  nodup : as.Nodup
  allocated : ∀ a, a ∈ as ↔ contexts a ≠ none

theorem Owned.perm (ho : Owned contexts as) (hp : bs.Perm as) : Owned contexts bs :=
  ⟨hp.nodup_iff.mpr ho.nodup, fun a => hp.mem_iff.trans (ho.allocated a)⟩

theorem Owned.alloc (ho : Owned contexts as) (ha : contexts a = none) :
    Owned (Function.update contexts a (some x)) (a :: as) := by
  refine ⟨List.nodup_cons.mpr ⟨fun hmem => (ho.allocated a).mp hmem ha, ho.nodup⟩, fun b => ?_⟩
  by_cases hb : b = a
  · subst hb
    rw [Function.update_self]
    exact ⟨fun _ => nofun, fun _ => List.mem_cons_self⟩
  · rw [Function.update_of_ne hb, ← ho.allocated b, List.mem_cons, or_iff_right hb]

theorem Owned.free (ho : Owned contexts (a :: as)) :
    Owned (Function.update contexts a none) as := by
  obtain ⟨hnew, hnodup⟩ := List.nodup_cons.mp ho.nodup
  refine ⟨hnodup, fun b => ?_⟩
  by_cases hb : b = a
  · subst hb
    rw [Function.update_self]
    exact ⟨fun hmem => absurd hmem hnew, fun hne => absurd rfl hne⟩
  · rw [Function.update_of_ne hb, ← ho.allocated b, List.mem_cons, or_iff_right hb]

/-- The calls whose contexts are at some addresses. -/
def numbers (contexts : Nat → Option Context) (as : List Nat) : List Nat :=
  as.filterMap (fun a => (contexts a).map Context.number)

theorem numbers_append : numbers contexts (as ++ bs) = numbers contexts as ++ numbers contexts bs :=
  List.filterMap_append

theorem numbers_singleton (ha : contexts a = some x) : numbers contexts [a] = [x.number] := by
  unfold numbers
  rw [List.filterMap_cons, ha]
  rfl

theorem numbers_update (ha : a ∉ as) (y : Option Context) :
    numbers (Function.update contexts a y) as = numbers contexts as := by
  refine List.filterMap_congr (fun b hb => ?_)
  have hne : b ≠ a := fun heq => ha (heq ▸ hb)
  rw [Function.update_of_ne hne]

theorem eraseIdx_perm (hi : as[i]? = some a) : as.Perm (a :: as.eraseIdx i) := by
  obtain ⟨hlt, rfl⟩ := List.getElem?_eq_some_iff.mp hi
  exact (List.getElem_cons_eraseIdx_perm hlt).symm

theorem count_numbers_eraseIdx (hi : as[i]? = some a) (ha : contexts a = some x) :
    (numbers contexts as).count n =
      (numbers contexts (as.eraseIdx i)).count n + [x.number].count n := by
  have hperm : (numbers contexts as).Perm (numbers contexts ([a] ++ as.eraseIdx i)) :=
    (eraseIdx_perm hi).filterMap _
  rw [hperm.count_eq, numbers_append, numbers_singleton ha, List.count_append, Nat.add_comm]

end memory

/-- How the handler of a call comes to be called, with what, where sd_bus_call_async returns
`r` of it. -/
inductive Comes (h : HashOrder) (lib : LibSystemd) (errnos : ErrnoTable) (bus : SdBus)
    (came : List (Nat × Option Reply)) (n : Nat) (c : MethodCall) (r : Int) :
    Response c.retTypes → Prop
  | notBuilt {e : Asio.YieldMethodCall.Errno} {y : Response c.retTypes}
      (built : c.build lib bus = .error e) (called : c.unpack h (.ofErrno e.val) .null = some y) :
      Comes h lib errnos bus came n c r y
  | notSent {m : Request} {y : Response c.retTypes} (built : c.build lib bus = .ok m)
      (failed : r < 0) (called : c.unpack h (.ofErrno (-r)) (.request m) = some y) :
      Comes h lib errnos bus came n c r y
  | answered {m : Request} {reply : Reply} {y : Response c.retTypes}
      (built : c.build lib bus = .ok m) (heard : (n, some reply) ∈ came)
      (called : c.unpack h (.ofErrno (Msg.getErrno errnos reply)) (.reply reply) = some y) :
      Comes h lib errnos bus came n c r y

theorem Comes.later {came came' : List (Nat × Option Reply)} {c : MethodCall}
    {y : Response c.retTypes} (hy : Comes h lib errnos bus came n c r y)
    (hcame : ∀ p ∈ came, p ∈ came') : Comes h lib errnos bus came' n c r y := by
  cases hy with
  | notBuilt built called => exact .notBuilt built called
  | notSent built failed called => exact .notSent built failed called
  | answered built heard called => exact .answered built (hcame _ heard) called

/-- Where a call is: its handler was called, or nothing came of it, or sd-bus has it, or had
it when the connection was closed. -/
def places (w : World) (n : Nat) : Nat :=
  (w.invoked.map Invocation.number).count n + w.lost.count n +
    (numbers w.contexts w.slots).count n + (numbers w.contexts w.leaked).count n

def owners (w : World) : List Nat := w.slots ++ w.stack ++ w.leaked

/-- The invariant where a function has some contexts in its unique_ptrs, and has taken some
calls from where they were. -/
structure Inv (h : HashOrder) (lib : LibSystemd) (errnos : ErrnoTable) (bus : SdBus)
    (as due : List Nat) (w : World) : Prop where
  sound : w.faulted = false
  owned : Owned w.contexts (as ++ owners w)
  placed : ∀ n, places w n + due.count n = if n < w.calls.length then 1 else 0
  holds : ∀ a x, w.contexts a = some x →
    (∃ r, w.calls[x.number]? = some (x.call, r)) ∧ ∃ m, x.call.build lib bus = .ok m
  called : ∀ i ∈ w.invoked, ∃ r, w.calls[i.number]? = some (i.call, r) ∧
    Comes h lib errnos bus w.came i.number i.call r i.response
  lost : ∀ n ∈ w.lost, (n, none) ∈ w.came
  once : ∀ n, (w.came.map Prod.fst).count n ≤
    (w.invoked.map Invocation.number).count n + w.lost.count n + due.count n

theorem inv_initial : Inv h lib errnos bus [] [] initial :=
  ⟨rfl, ⟨List.nodup_nil, fun _ => ⟨nofun, fun hne => absurd rfl hne⟩⟩, fun _ => rfl, nofun,
    nofun, nofun, fun _ => Nat.le_refl 0⟩

section parts

/-- A new call, which is nowhere yet. -/
theorem inv_new (hw : Inv h lib errnos bus [] [] w) (c : MethodCall) (r : Int) :
    Inv h lib errnos bus [] [w.calls.length] { w with calls := w.calls ++ [(c, r)] } := by
  have hgrows : ∀ (n : Nat) (d : MethodCall × Int), w.calls[n]? = some d →
      (w.calls ++ [(c, r)])[n]? = some d := by
    intro n d hd
    rw [List.getElem?_append_left (List.getElem?_eq_some_iff.mp hd).1]
    exact hd
  refine ⟨hw.sound, hw.owned, fun n => ?_, fun a x hx => ?_, fun i hi => ?_, hw.lost,
    fun n => Nat.le_trans (hw.once n) (Nat.le_add_right _ _)⟩
  · have hplaced := hw.placed n
    change places w n + [w.calls.length].count n =
      if n < (w.calls ++ [(c, r)]).length then 1 else 0
    rw [List.count_singleton, List.length_append, List.length_singleton]
    simp only [List.count_nil, beq_iff_eq] at hplaced ⊢
    split at hplaced <;> split <;> split <;> omega
  · obtain ⟨⟨r', hr'⟩, hbuilt⟩ := hw.holds a x hx
    exact ⟨⟨r', hgrows _ _ hr'⟩, hbuilt⟩
  · obtain ⟨r', hr', hcomes⟩ := hw.called i hi
    exact ⟨r', hgrows _ _ hr', hcomes⟩

theorem notMem_owners (hw : Inv h lib errnos bus [a] due w) : a ∉ owners w :=
  (List.nodup_cons.mp hw.owned.nodup).1

theorem free_lost : (w.free a).lost = w.lost := by
  unfold World.free
  split <;> rfl

theorem free_came : (w.free a).came = w.came := by
  unfold World.free
  split <;> rfl

theorem inv_free (hw : Inv h lib errnos bus [a] due w) :
    Inv h lib errnos bus [] due (w.free a) := by
  have hout := notMem_owners hw
  simp only [owners, List.mem_append, not_or] at hout
  obtain ⟨x, hx⟩ := Option.ne_none_iff_exists'.mp
    ((hw.owned.allocated a).mp List.mem_cons_self)
  have hfree : w.free a = { w with contexts := Function.update w.contexts a none } := by
    unfold World.free
    rw [hx]
  rw [hfree]
  refine ⟨hw.sound, hw.owned.free, fun n => ?_, fun b y hy => ?_, hw.called, hw.lost, hw.once⟩
  · refine Eq.trans ?_ (hw.placed n)
    unfold places
    rw [numbers_update hout.1.1, numbers_update hout.2]
  · change Function.update w.contexts a none b = some y at hy
    by_cases hb : b = a
    · subst hb
      rw [Function.update_self] at hy
      cases hy
    · rw [Function.update_of_ne hb] at hy
      exact hw.holds b y hy

theorem count_invoked {v : Invocation} :
    ((w.invoked ++ [v]).map Invocation.number).count n =
      (w.invoked.map Invocation.number).count n + [v.number].count n := by
  rw [List.map_append, List.count_append]
  rfl

/-- The handler of a call is called, from the context that a unique_ptr has. -/
theorem inv_invoke {ec : ErrorCode} {m : Msg} (hw : Inv h lib errnos bus [a] [x.number] w)
    (hx : w.contexts a = some x) (hr : w.calls[x.number]? = some (x.call, r))
    (hcomes : ∀ y, x.call.unpack h ec m = some y →
      Comes h lib errnos bus w.came x.number x.call r y)
    (hinvoke : w.invoke h a ec m = some w') : Inv h lib errnos bus [] [] w' := by
  unfold World.invoke at hinvoke
  rw [hx] at hinvoke
  obtain ⟨y, hy, hinvoke⟩ := Option.bind_eq_some_iff.mp hinvoke
  obtain rfl := Option.some.inj hinvoke
  refine ⟨hw.sound, hw.owned.perm ?_, fun n => ?_, hw.holds, fun i hi => ?_, hw.lost, fun n => ?_⟩
  · change (w.slots ++ a :: w.stack ++ w.leaked).Perm (a :: (w.slots ++ w.stack ++ w.leaked))
    rw [List.append_assoc, List.append_assoc]
    exact List.perm_middle
  · have hplaced := hw.placed n
    unfold places at hplaced ⊢
    rw [count_invoked]
    simp only [List.count_nil]
    omega
  · rcases List.mem_append.mp hi with hi | hi
    · exact hw.called i hi
    · obtain rfl := List.mem_singleton.mp hi
      exact ⟨r, hr, hcomes y hy⟩
  · have honce := hw.once n
    rw [count_invoked, List.count_nil]
    simp only
    omega

/-- The context that a call gets. -/
theorem inv_alloc {m : Request} (hw : Inv h lib errnos bus [] due w) (ha : w.contexts a = none)
    (hx : w.calls[x.number]? = some (x.call, r)) (hbuilt : x.call.build lib bus = .ok m) :
    Inv h lib errnos bus [a] due
      { w with contexts := Function.update w.contexts a (some x) } := by
  have hout : a ∉ owners w := fun hmem => (hw.owned.allocated a).mp hmem ha
  simp only [owners, List.mem_append, not_or] at hout
  refine ⟨hw.sound, hw.owned.alloc ha, fun n => ?_, fun b y hy => ?_, hw.called, hw.lost, hw.once⟩
  · refine Eq.trans ?_ (hw.placed n)
    unfold places
    rw [numbers_update hout.1.1, numbers_update hout.2]
  · change Function.update w.contexts a (some x) b = some y at hy
    by_cases hb : b = a
    · subst hb
      rw [Function.update_self] at hy
      obtain rfl := Option.some.inj hy
      exact ⟨⟨r, hx⟩, m, hbuilt⟩
    · rw [Function.update_of_ne hb] at hy
      exact hw.holds b y hy

/-- sd-bus keeps a call, of which it has not come back before. -/
theorem inv_keep (hw : Inv h lib errnos bus [a] [x.number] w) (hx : w.contexts a = some x)
    (hfresh : (w.came.map Prod.fst).count x.number = 0) :
    Inv h lib errnos bus [] [] { w with slots := w.slots ++ [a] } := by
  refine ⟨hw.sound, hw.owned.perm ?_, fun n => ?_, hw.holds, hw.called, hw.lost, fun n => ?_⟩
  · change (w.slots ++ [a] ++ w.stack ++ w.leaked).Perm (a :: (w.slots ++ w.stack ++ w.leaked))
    rw [List.append_assoc, List.append_assoc, List.append_assoc]
    exact List.perm_middle
  · have hplaced := hw.placed n
    unfold places at hplaced ⊢
    simp only at hplaced ⊢
    rw [numbers_append, numbers_singleton hx, List.count_append]
    change _ + 0 = _
    omega
  · have honce := hw.once n
    by_cases hn : x.number = n
    · rw [← hn]
      exact Nat.le_trans (Nat.le_of_eq hfresh) (Nat.zero_le _)
    · rw [List.count_singleton, if_neg (by simpa using hn)] at honce
      exact honce

theorem inv_asyncSend {m : Request} (hw : Inv h lib errnos bus [] [x.number] w)
    (hx : w.calls[x.number]? = some (x.call, r)) (hbuilt : x.call.build lib bus = .ok m)
    (hfresh : (w.came.map Prod.fst).count x.number = 0)
    (hsend : w.asyncSend h x m a r = some w') : Inv h lib errnos bus [] [] w' := by
  unfold World.asyncSend at hsend
  cases ha : w.contexts a with
  | some y =>
    rw [ha] at hsend
    cases hsend
  | none =>
    have hnew := inv_alloc hw ha hx hbuilt
    have hself : Function.update w.contexts a (some x) a = some x := Function.update_self ..
    rw [ha, if_neg (by simp)] at hsend
    by_cases hr : r < 0
    · rw [if_pos hr] at hsend
      exact inv_invoke hnew hself hx (fun y hy => .notSent hbuilt hr hy) hsend
    · rw [if_neg hr] at hsend
      obtain rfl := Option.some.inj hsend
      exact inv_keep hnew hself hfresh

end parts

section events

theorem notCame_new (hw : Inv h lib errnos bus [] [] w) :
    (w.came.map Prod.fst).count w.calls.length = 0 := by
  have hplaced := hw.placed w.calls.length
  have honce := hw.once w.calls.length
  rw [if_neg (Nat.lt_irrefl _)] at hplaced
  unfold places at hplaced
  omega

theorem inv_call {c : MethodCall} (hw : Inv h lib errnos bus [] [] w)
    (hstep : step h lib errnos bus w (.call c a r) = some w') :
    Inv h lib errnos bus [] [] w' := by
  have hnew := inv_new hw c r
  have hlast : (w.calls ++ [(c, r)])[w.calls.length]? = some (c, r) :=
    List.getElem?_concat_length
  rw [step, World.asyncMethodCall] at hstep
  cases hbuilt : c.build lib bus with
  | error e =>
    rw [hbuilt] at hstep
    obtain ⟨y, hy, hstep⟩ := Option.bind_eq_some_iff.mp hstep
    obtain rfl := Option.some.inj hstep
    refine ⟨hnew.sound, hnew.owned, fun n => ?_, hnew.holds, fun i hi => ?_, hnew.lost,
      fun n => ?_⟩
    · have hplaced := hnew.placed n
      unfold places at hplaced ⊢
      rw [count_invoked]
      change _ + 0 = _
      simp only at hplaced ⊢
      omega
    · rcases List.mem_append.mp hi with hi | hi
      · exact hnew.called i hi
      · obtain rfl := List.mem_singleton.mp hi
        exact ⟨r, hlast, .notBuilt hbuilt hy⟩
    · have honce := hw.once n
      rw [count_invoked]
      simp only at honce ⊢
      omega
  | ok m =>
    rw [hbuilt] at hstep
    exact inv_asyncSend (x := ⟨w.calls.length, c⟩) hnew hlast hbuilt (notCame_new hw) hstep

/-- sd-bus comes back of a call that it has. -/
theorem inv_taken (m : Option Reply) (hw : Inv h lib errnos bus [] [] w)
    (hi : w.slots[i]? = some a) (hx : w.contexts a = some x) :
    Inv h lib errnos bus [a] [x.number]
      { w with slots := w.slots.eraseIdx i, came := w.came ++ [(x.number, m)] } := by
  have hkept : ∀ p ∈ w.came, p ∈ w.came ++ [(x.number, m)] :=
    fun p hp => List.mem_append_left _ hp
  refine ⟨hw.sound, hw.owned.perm ?_, fun n => ?_, hw.holds, fun j hj => ?_,
    fun n hn => hkept _ (hw.lost n hn), fun n => ?_⟩
  · change (a :: (w.slots.eraseIdx i ++ w.stack ++ w.leaked)).Perm
      (w.slots ++ w.stack ++ w.leaked)
    exact (((eraseIdx_perm hi).symm.append_right _).append_right _)
  · have hplaced := hw.placed n
    have hcount := @count_numbers_eraseIdx w.contexts w.slots a i n x hi hx
    unfold places at hplaced ⊢
    simp only [List.count_nil] at hplaced ⊢
    omega
  · obtain ⟨r, hr, hcomes⟩ := hw.called j hj
    exact ⟨r, hr, hcomes.later hkept⟩
  · have honce := hw.once n
    rw [List.map_append, List.count_append]
    exact Nat.add_le_add_right honce _

/-- Without a message there is nothing to call the handler with. -/
theorem inv_lose {n : Nat} (hw : Inv h lib errnos bus [a] [n] w) (hn : (n, none) ∈ w.came) :
    Inv h lib errnos bus [] [] { w.free a with lost := w.lost ++ [n] } := by
  have hfree := inv_free hw
  refine ⟨hfree.sound, hfree.owned, fun k => ?_, hfree.holds, hfree.called, fun k hk => ?_,
    fun k => ?_⟩
  · have hplaced := hfree.placed k
    unfold places at hplaced ⊢
    rw [free_lost] at hplaced
    simp only [List.count_append, List.count_nil] at hplaced ⊢
    omega
  · rw [free_came]
    rcases List.mem_append.mp hk with hk | hk
    · exact hw.lost k hk
    · obtain rfl := List.mem_singleton.mp hk
      exact hn
  · have honce := hfree.once k
    rw [free_lost] at honce
    simp only [List.count_append, List.count_nil] at honce ⊢
    omega

theorem inv_unpack {m : Option Reply} (hw : Inv h lib errnos bus [] [] w)
    (hstep : step h lib errnos bus w (.unpack i m) = some w') :
    Inv h lib errnos bus [] [] w' := by
  obtain ⟨a, hi, hstep⟩ := Option.bind_eq_some_iff.mp hstep
  have hmem : a ∈ owners w :=
    List.mem_append_left _ (List.mem_append_left _ (List.mem_of_getElem? hi))
  obtain ⟨x, hx⟩ := Option.ne_none_iff_exists'.mp ((hw.owned.allocated a).mp hmem)
  rw [hx] at hstep
  have htaken := inv_taken m hw hi hx
  have hheard : (x.number, m) ∈ w.came ++ [(x.number, m)] := List.mem_concat_self
  obtain ⟨⟨r, hr⟩, m', hbuilt⟩ := hw.holds a x hx
  cases m with
  | some m => exact inv_invoke htaken hx hr (fun y hy => .answered hbuilt hheard hy) hstep
  | none =>
    simp only [World.doUnpack, Option.map_some, Option.toList_some, List.map_cons, List.map_nil,
      hx] at hstep
    obtain rfl := Option.some.inj hstep
    exact inv_lose htaken hheard

theorem inv_returned (hw : Inv h lib errnos bus [] [] w)
    (hstep : step h lib errnos bus w .returned = some w') : Inv h lib errnos bus [] [] w' := by
  rw [step] at hstep
  cases hstack : w.stack with
  | nil =>
    rw [hstack] at hstep
    cases hstep
  | cons a stack =>
    rw [hstack] at hstep
    obtain rfl := Option.some.inj hstep
    refine inv_free ⟨hw.sound, hw.owned.perm ?_, hw.placed, hw.holds, hw.called, hw.lost, hw.once⟩
    change (a :: (w.slots ++ stack ++ w.leaked)).Perm (w.slots ++ w.stack ++ w.leaked)
    rw [hstack, List.append_assoc, List.append_assoc]
    exact List.perm_middle.symm

theorem inv_closed (hw : Inv h lib errnos bus [] [] w)
    (hstep : step h lib errnos bus w .closed = some w') : Inv h lib errnos bus [] [] w' := by
  obtain rfl := Option.some.inj hstep
  refine ⟨hw.sound, hw.owned.perm ?_, fun n => ?_, hw.holds, hw.called, hw.lost, hw.once⟩
  · change (w.stack ++ (w.leaked ++ w.slots)).Perm (w.slots ++ w.stack ++ w.leaked)
    rw [← List.append_assoc, List.append_assoc w.slots]
    exact List.perm_append_comm
  · have hplaced := hw.placed n
    unfold places at hplaced ⊢
    simp only [numbers_append, List.count_append]
    change _ + _ + 0 + _ + _ = _
    omega

theorem inv_step {e : Event} (hw : Inv h lib errnos bus [] [] w)
    (hstep : step h lib errnos bus w e = some w') : Inv h lib errnos bus [] [] w' := by
  cases e with
  | call c a r => exact inv_call hw hstep
  | unpack i m => exact inv_unpack hw hstep
  | returned => exact inv_returned hw hstep
  | closed => exact inv_closed hw hstep

end events

/-- The message that a handler gets. -/
def wanted (c : MethodCall) (r : Msg) : Option Msg := if c.wantsMessage then some r else none

/-- All that the handler of a call can be told, where sd_bus_call_async returns `r` of it. -/
inductive Told (h : HashOrder) (lib : LibSystemd) (errnos : ErrnoTable) (bus : SdBus)
    (came : List (Nat × Option Reply)) (n : Nat) (c : MethodCall) (r : Int) :
    Response c.retTypes → Prop
  | notBuilt {e : Asio.YieldMethodCall.Errno} (built : c.build lib bus = .error e) :
      Told h lib errnos bus came n c r
        ⟨.ofErrno e.val, wanted c .null, some (tupleDefault c.retTypes)⟩
  | notSent {m : Request} (built : c.build lib bus = .ok m) (failed : r < 0) :
      Told h lib errnos bus came n c r
        ⟨.ofErrno (-r), wanted c (.request m), some (tupleDefault c.retTypes)⟩
  | refused {m : Request} {e : BusError} (built : c.build lib bus = .ok m)
      (heard : (n, some (.methodError e)) ∈ came) :
      Told h lib errnos bus came n c r ⟨.ofErrno (errnos.getErrno (some e)),
        wanted c (.reply (.methodError e)), some (tupleDefault c.retTypes)⟩
  | unreadable {m : Request} {items : List Wire} {e : Exception}
      (built : c.build lib bus = .ok m) (heard : (n, some (.methodReturn items)) ∈ came)
      (thrown : Asio.YieldMethodCall.unpack h c.retTypes items = .error e)
      (ends : e ≠ .diverges) : Told h lib errnos bus came n c r
        ⟨.ofErrno 22, wanted c (.reply (.methodReturn items)), none⟩
  | returned {m : Request} {items : List Wire} {values : TupleVal c.retTypes}
      (built : c.build lib bus = .ok m) (heard : (n, some (.methodReturn items)) ∈ came)
      (read : Asio.YieldMethodCall.unpack h c.retTypes items = .ok values) :
      Told h lib errnos bus came n c r
        ⟨.ofErrno 0, wanted c (.reply (.methodReturn items)), some values⟩

theorem unpack_failed {c : MethodCall} {e : Int} {r : Msg} (he : 0 < e) :
    c.unpack h (.ofErrno e) r =
      some ⟨.ofErrno e, wanted c r, some (tupleDefault c.retTypes)⟩ := by
  have hfailed : (ErrorCode.ofErrno e).failed = true :=
    decide_eq_true (Int.ne_of_gt he)
  unfold MethodCall.unpack wanted
  rw [if_pos hfailed]

theorem unpack_returned {c : MethodCall} {items : List Wire} {values : TupleVal c.retTypes}
    (hread : Asio.YieldMethodCall.unpack h c.retTypes items = .ok values) :
    c.unpack h (.ofErrno 0) (.reply (.methodReturn items)) =
      some ⟨.ofErrno 0, wanted c (.reply (.methodReturn items)), some values⟩ := by
  have hsuccess : (ErrorCode.ofErrno 0).failed = false := rfl
  unfold MethodCall.unpack wanted
  rw [hsuccess, if_neg Bool.false_ne_true, Msg.body, hread]

theorem unpack_unreadable {c : MethodCall} {items : List Wire} {e : Exception}
    {y : Response c.retTypes} (hread : Asio.YieldMethodCall.unpack h c.retTypes items = .error e)
    (hy : c.unpack h (.ofErrno 0) (.reply (.methodReturn items)) = some y) :
    e ≠ .diverges ∧ y = ⟨.ofErrno 22, wanted c (.reply (.methodReturn items)), none⟩ := by
  have hsuccess : (ErrorCode.ofErrno 0).failed = false := rfl
  unfold MethodCall.unpack at hy
  rw [hsuccess, if_neg Bool.false_ne_true, Msg.body, hread] at hy
  cases e with
  | diverges => cases hy
  | sdBusError error what => exact ⟨nofun, (Option.some.inj hy).symm⟩
  | invalidEnumString => exact ⟨nofun, (Option.some.inj hy).symm⟩
  | nullString => exact ⟨nofun, (Option.some.inj hy).symm⟩

theorem told_of_comes {came : List (Nat × Option Reply)} {c : MethodCall}
    {y : Response c.retTypes} (hpositive : ∀ e, 0 < errnos.getErrno (some e))
    (hy : Comes h lib errnos bus came n c r y) : Told h lib errnos bus came n c r y := by
  cases hy with
  | @notBuilt e _ built called =>
    obtain rfl := Option.some.inj ((unpack_failed e.property).symm.trans called)
    exact .notBuilt built
  | @notSent m _ built failed called =>
    have hr : 0 < -r := Int.neg_pos_of_neg failed
    obtain rfl := Option.some.inj ((unpack_failed hr).symm.trans called)
    exact .notSent built failed
  | @answered m reply _ built heard called =>
    cases reply with
    | methodError e =>
      obtain rfl := Option.some.inj ((unpack_failed (hpositive e)).symm.trans called)
      exact .refused built heard
    | methodReturn items =>
      cases hread : Asio.YieldMethodCall.unpack h c.retTypes items with
      | ok values =>
        obtain rfl := Option.some.inj ((unpack_returned hread).symm.trans called)
        exact .returned built heard hread
      | error e =>
        obtain ⟨hends, rfl⟩ := unpack_unreadable hread called
        exact .unreadable built heard hread hends

/-- However calls, answers, ends of handlers and the end of the connection follow each other,
also where handlers make calls: no context is used after it was freed or freed twice; those
that are allocated are those of the calls that sd-bus has, of the handlers that run, and of
the calls it dropped; sd-bus comes back of a call once at most; of every call either the handler
has been called, once, or sd-bus has it, or has dropped it, or has come back without a message;
and a handler is told what became of its own call. -/
theorem handlers_called (hpositive : ∀ e, 0 < errnos.getErrno (some e))
    (hw : (machine h lib errnos bus).Reachable w) :
    w.faulted = false ∧ (owners w).Nodup ∧ (∀ a, a ∈ owners w ↔ w.contexts a ≠ none) ∧
    (∀ n, places w n = if n < w.calls.length then 1 else 0) ∧
    (w.came.map Prod.fst).Nodup ∧ (∀ n ∈ w.lost, (n, none) ∈ w.came) ∧
    ∀ i ∈ w.invoked, ∃ r, w.calls[i.number]? = some (i.call, r) ∧
      Told h lib errnos bus w.came i.number i.call r i.response := by
  have hinv : Inv h lib errnos bus [] [] w :=
    hw.invariant inv_initial (fun _ _ _ hs _ hstep => inv_step hs hstep)
  refine ⟨hinv.sound, hinv.owned.nodup, hinv.owned.allocated, hinv.placed,
    List.nodup_iff_count.mpr fun n => ?_, hinv.lost, fun i hi => ?_⟩
  · have honce := hinv.once n
    have hplaced := hinv.placed n
    unfold places at hplaced
    split at hplaced <;> omega
  · obtain ⟨r, hr, hcomes⟩ := hinv.called i hi
    exact ⟨r, hr, told_of_comes hpositive hcomes⟩

def someErrnos : ErrnoTable := ⟨fun _ => ⟨"a.Error.B", ""⟩, fun _ => 5⟩

def peers : SdBus := ⟨fun _ => none, fun _ _ => .ok ⟨0, []⟩⟩

/-- A call whose handler takes its message. -/
def asks : MethodCall := ⟨⟨⟨[97], [47], [98], [99]⟩, [], (), [.basic .uint16]⟩, true⟩

/-- A call that is answered while the handler of one that was not sent still runs. -/
def twoCalls : List Event :=
  [.call asks 8 1, .call asks 16 (-5), .unpack 0 (some (.methodReturn [.basic .uint16 7#16])),
    .returned, .returned]

theorem handlers_called_twoCalls :
    ∃ w, (machine newestFirst lenient someErrnos peers).run initial twoCalls = some w ∧
      w.faulted = false ∧ places w 0 = 1 ∧ places w 1 = 1 ∧ w.contexts 8 = none := by
  refine ⟨_, rfl, ?_⟩
  have hcalled := @handlers_called newestFirst lenient someErrnos peers _
    (fun _ => by simp [someErrnos])
    (Machine.reachable_of_run (M := machine newestFirst lenient someErrnos peers) twoCalls rfl)
  exact ⟨hcalled.1, hcalled.2.2.2.1 0, hcalled.2.2.2.1 1, rfl⟩

end Sdbusplus.Proofs.AsyncSend
