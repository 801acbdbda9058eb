import Sdbusplus.Message.AppendRun
import Sdbusplus.Proofs.Append

namespace Sdbusplus.Proofs.AppendRun
open Message Message.AppendRun

variable {σ : Type} {intf : SdBusInterface σ} {calls more : List AppendCall} {x y : Run σ Unit}
  {t : Ty} {ts : List Ty} {m : σ} {sig : List Char}

/-- The message after these calls. -/
def performed (intf : SdBusInterface σ) (m : σ) (calls : List AppendCall) : σ :=
  calls.foldl (fun m c => (intf m c).2) m

/-- What these calls return. -/
def answers (intf : SdBusInterface σ) (m : σ) : List AppendCall → List Int
  | [] => []
  | c :: calls => (intf m c).1 :: answers intf (intf m c).2 calls

/-- It makes these calls, one after the other, whatever they return, and throws nothing. -/
def Follows (intf : SdBusInterface σ) (x : Run σ Unit) (calls : List AppendCall) : Prop :=
  ∀ m, x.run.run m = (.ok (), performed intf m calls)

theorem follows_nil : Follows intf (pure ()) [] := fun _ => rfl

theorem follows_statement (c : AppendCall) : Follows intf (statement intf c) [c] := fun _ => rfl

theorem Follows.seq (hx : Follows intf x calls) (hy : Follows intf y more) :
    Follows intf (x >>= fun _ => y) (calls ++ more) := by
  intro m
  have hcont : (x >>= fun _ => y).run.run m =
      (ExceptT.bindCont (fun _ => y) (x.run.run m).1).run (x.run.run m).2 := rfl
  have hmore : performed intf m (calls ++ more) = performed intf (performed intf m calls) more :=
    List.foldl_append
  rw [hcont, hx m, hmore]
  exact hy _

theorem Follows.container (hx : Follows intf x calls) (k : Kind) (sig : List Char) :
    Follows intf (appendContainer intf k sig x) (Message.appendContainer k sig calls) :=
  (follows_statement _).seq (hx.seq (follows_statement _))

theorem follows_forM {α : Type} {f : α → Run σ Unit} {g : α → List AppendCall} {xs : List α}
    (h : ∀ a ∈ xs, Follows intf (f a) (g a)) : Follows intf (xs.forM f) (xs.flatMap g) := by
  induction xs with
  | nil => exact follows_nil
  | cons a xs ih =>
    obtain ⟨ha, hxs⟩ := List.forall_mem_cons.mp h
    exact ha.seq (ih hxs)

theorem follows_each {α : Type} {f : α → Run σ Unit} {g : α → List AppendCall} {xs : List α}
    (h : ∀ a ∈ xs, Follows intf (f a) (g a)) :
    Follows intf (appendEach intf sig f xs) (Message.appendEach sig g xs) :=
  (follows_forM h).container _ _

theorem follows_basic (b : Basic) (v : b.Val) :
    Follows intf (appendBasic intf b v) (Message.appendBasic b v) := by
  cases b <;> exact follows_statement _

theorem follows_key (k : Key) (v : k.Val) :
    Follows intf (appendKey intf k v) (Message.appendKey k v) := by
  cases k with
  | basic b _ => exact follows_basic b v
  | enum e => exact follows_basic .string _

theorem follows_contiguous {xs : List t.Val}
    (h : ∀ v, Follows intf (append intf t v) (Message.append t v)) :
    Follows intf (appendContiguous intf t (append intf t) xs)
      (Message.appendContiguous t (Message.append t) xs) := by
  cases t
  case basic b =>
    simp only [AppendRun.appendContiguous, Message.appendContiguous]
    split
    case isTrue hb => exact follows_statement _
    case isFalse hb => exact follows_each (fun v _ => h v)
  all_goals exact follows_each (fun v _ => h v)

theorem follows_pair {α β : Type} {id id' : List Char} {f : α → Run σ Unit} {g : β → Run σ Unit}
    {f' : α → List AppendCall} {g' : β → List AppendCall} {p : α × β}
    (hf : Follows intf (f p.1) (f' p.1)) (hg : Follows intf (g p.2) (g' p.2)) :
    Follows intf (appendPair intf id id' f g p) (Message.appendPair id id' f' g' p) :=
  (hf.seq hg).container _ _

theorem follows_tuple
    (h : ∀ t ∈ ts, ∀ v, Follows intf (append intf t v) (Message.append t v)) (vs : TupleVal ts) :
    Follows intf (appendTuple intf ts vs) (Message.appendTuple ts vs) := by
  induction ts with
  | nil => exact follows_nil
  | cons t ts ih =>
    obtain ⟨v, vs⟩ := vs
    exact (h t List.mem_cons_self v).seq (ih (fun u hu => h u (List.mem_cons_of_mem _ hu)) vs)

theorem follows_alternative
    (h : ∀ t ∈ ts, ∀ v, Follows intf (append intf t v) (Message.append t v)) (v : VariantVal ts) :
    Follows intf (appendAlternative intf ts v) (Message.appendAlternative ts v) := by
  induction ts, v using variant_induct with
  | first t ts v => exact (h t List.mem_cons_self v).container _ _
  | later t ts v ih => exact ih (fun u hu => h u (List.mem_cons_of_mem _ hu))

/-- Every specialization goes through its calls to the end. -/
theorem append_follows (v : t.Val) : Follows intf (append intf t v) (Message.append t v) := by
  induction t using Ty.induct with
  | basic b => exact follows_basic b v
  | enum e => exact follows_basic .string _
  | monostate => exact follows_nil
  | sequence q t ih =>
    cases q with
    | vector => exact follows_contiguous ih
    | deque | list => exact follows_each (fun x _ => ih x)
  | array n t ih => exact follows_contiguous ih
  | set o k => exact follows_each (fun x _ => follows_key k x)
  | map o k t ih => exact follows_each (fun p _ => follows_pair (follows_key k p.1) (ih p.2))
  | pair t u iht ihu => exact follows_pair (iht v.1) (ihu v.2)
  | tuple ts ih => exact (follows_tuple ih v).container _ _
  | variant t ts iht ihs =>
    cases v with
    | inl v => exact (iht v).container _ _
    | inr v => exact follows_alternative ihs v

theorem appendTuple_follows (vs : TupleVal ts) :
    Follows intf (appendTuple intf ts vs) (Message.appendTuple ts vs) :=
  follows_tuple (fun _ _ => append_follows) vs

/-! ## Failing calls -/

/-- The caller of append hears of a failing call, and sends nothing. -/
structure Reported (intf : SdBusInterface σ) (m : σ) (ts : List Ty) (vs : TupleVal ts) : Prop where
  thrown : ∃ e, ((appendTuple intf ts vs).run.run m).1 = .error e
  unsent : ∀ sent, asyncMethodCallTimed intf (.ok m) ts vs ≠ .asyncSend sent

theorem asyncMethodCallTimed_sends (intf : SdBusInterface σ) (m : σ) (ts : List Ty)
    (vs : TupleVal ts) : asyncMethodCallTimed intf (.ok m) ts vs =
      .asyncSend (performed intf m (Message.appendTuple ts vs)) := by
  rw [asyncMethodCallTimed]
  simp only [appendTuple_follows vs m]

theorem not_reported (intf : SdBusInterface σ) (m : σ) (ts : List Ty) (vs : TupleVal ts) :
    ¬ Reported intf m ts vs := by
  intro h
  obtain ⟨e, he⟩ := h.thrown
  rw [appendTuple_follows vs m] at he
  cases he

/-- Every failing call, at whichever position, is reported. -/
def ReportsAll (intf : SdBusInterface σ) (m : σ) (ts : List Ty) (vs : TupleVal ts) : Prop :=
  ∀ (k : Nat) (r : Int), (answers intf m (Message.appendTuple ts vs))[k]? = some r → r < 0 →
    Reported intf m ts vs

/-- Nothing is left unreported just when no call fails. -/
theorem reportsAll_iff (intf : SdBusInterface σ) (m : σ) (ts : List Ty) (vs : TupleVal ts) :
    ReportsAll intf m ts vs ↔ ∀ r ∈ answers intf m (Message.appendTuple ts vs), 0 ≤ r := by
  constructor
  · intro h r hr
    obtain ⟨k, hk⟩ := List.mem_iff_getElem?.mp hr
    by_contra hneg
    exact not_reported intf m ts vs (h k r hk (Int.not_le.mp hneg))
  · intro h k r hk hneg
    exact absurd hneg (Int.not_lt.mpr (h r (List.mem_of_getElem? hk)))

/-- Failures are reported exactly if there are none. Whichever call fails, append goes on to its
last call and returns, and the caller hands what has become of the message to async_send. -/
theorem failures_unreported (intf : SdBusInterface σ) (m : σ) (ts : List Ty) (vs : TupleVal ts) :
    (ReportsAll intf m ts vs ↔ ∀ r ∈ answers intf m (Message.appendTuple ts vs), 0 ≤ r) ∧
    (∀ (k : Nat) (r : Int), (answers intf m (Message.appendTuple ts vs))[k]? = some r → r < 0 →
      ¬ Reported intf m ts vs) ∧
    (appendTuple intf ts vs).run.run m =
      (.ok (), performed intf m (Message.appendTuple ts vs)) ∧
    asyncMethodCallTimed intf (.ok m) ts vs =
      .asyncSend (performed intf m (Message.appendTuple ts vs)) :=
  ⟨reportsAll_iff intf m ts vs, fun _ _ _ _ => not_reported intf m ts vs, appendTuple_follows vs m,
    asyncMethodCallTimed_sends intf m ts vs⟩

/-- A libsystemd that takes ASCII for text. -/
def ascii : LibSystemd := ⟨fun s => s.all (· < 128), fun _ => true, fun _ => true⟩

/-- The same with an open_container that fails. -/
def refuseOpen (w : Writer) : AppendCall → Int × Writer
  | .openContainer _ _ => (-einval, w)
  | c => ascii.perform w c

/-- A std::vector<std::string> is sent without its second element, and the member of a
std::tuple outside of it. -/
theorem elements_lost :
    answers ascii.perform Writer.empty
      (Message.appendTuple [.sequence .vector (.basic .string)] ([[97], [255]], ())) =
        [1, 1, -22, 1] ∧
    (appendTuple ascii.perform [.sequence .vector (.basic .string)] ([[97], [255]], ())).run.run
      Writer.empty = (.ok (), ⟨[.container .array ['s'] [.basic .string [97]]], []⟩) ∧
    answers refuseOpen Writer.empty
      (Message.appendTuple [.tuple [.basic .int32]] ((7#32, ()), ())) = [-22, 1, -22] ∧
    (appendTuple refuseOpen [.tuple [.basic .int32]] ((7#32, ()), ())).run.run Writer.empty =
      (.ok (), ⟨[.basic .int32 7#32], []⟩) ∧
    ¬ ∀ (intf : SdBusInterface Writer) m ts vs, ReportsAll intf m ts vs := by
  have hanswers : answers refuseOpen Writer.empty
      (Message.appendTuple [.tuple [.basic .int32]] ((7#32, ()), ())) = [-22, 1, -22] := rfl
  refine ⟨rfl, rfl, hanswers, rfl, fun h => ?_⟩
  have hreported := h refuseOpen Writer.empty [.tuple [.basic .int32]] ((7#32, ()), ()) 0 (-22)
    (by rw [hanswers]; rfl) (by omega)
  exact not_reported _ _ _ _ hreported

end Sdbusplus.Proofs.AppendRun
