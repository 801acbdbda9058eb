import Mathlib.Data.List.Chain

/-! Texts like `[a, b, [c, d]]`: nested sequences of scalars that are written plainly. -/

namespace FlowSequence

inductive Node
  | scalar (s : List Char)
  | list (nodes : List Node)

inductive Token
  | scalar (s : List Char)
  | comma
  | opening
  | closing
  deriving DecidableEq, Repr

def blank (c : Char) : Bool := c = ' '

def trim (s : List Char) : List Char := ((s.dropWhile blank).reverse.dropWhile blank).reverse

def punctuation : Char → Option Token
  | ',' => some .comma
  | '[' => some .opening
  | ']' => some .closing
  | _ => none

/-- What stands between two punctuation characters. -/
def flush (between : List Char) : List Token :=
  if between.all blank then [] else [.scalar (trim between)]

def lexFrom (between : List Char) : List Char → List Token
  | [] => flush between
  | c :: cs =>
    match punctuation c with
    | some t => flush between ++ t :: lexFrom [] cs
    | none => lexFrom (between ++ [c]) cs

def lex (text : List Char) : List Token := lexFrom [] text

/-- The entries of the sequence that is open, the last one first, those of the sequences
around it, and whether another entry may follow. -/
structure State where
  current : List Node
  outer : List (List Node)
  ready : Bool

def step (s : State) : Token → Option State
  | .scalar x =>
    if s.ready then some { s with current := .scalar x :: s.current, ready := false } else none
  | .opening => if s.ready then some ⟨[], s.current :: s.outer, true⟩ else none
  | .closing =>
    match s.outer with
    | [] => none
    | o :: os => some ⟨.list s.current.reverse :: o, os, false⟩
  | .comma => if s.ready then none else some { s with ready := true }

def run (s : State) : List Token → Option State
  | [] => some s
  | t :: ts => (step s t).bind (fun s => run s ts)

/-- The entries of a text that is one sequence. A comma may stand after the last entry. -/
def parse (ts : List Token) : Option (List Node) :=
  match run ⟨[], [], true⟩ ts with
  | some ⟨[.list nodes], [], false⟩ => some nodes
  | _ => none

mutual

def Node.tokens : Node → List Token
  | .scalar s => [.scalar s]
  | .list nodes => .opening :: (entries nodes ++ [.closing])

def entries : List Node → List Token
  | [] => []
  | n :: ns => n.tokens ++ laterEntries ns

def laterEntries : List Node → List Token
  | [] => []
  | n :: ns => .comma :: (n.tokens ++ laterEntries ns)

end

example : parse (lex "[a, [b ,c], ]".toList) =
    some [.scalar ['a'], .list [.scalar ['b'], .scalar ['c']]] := rfl

example : (parse (lex "[a,,b]".toList)).isNone = true := rfl

/-- The tokens of a sequence that is open, with its entries in reverse. -/
inductive Part : List Node → Bool → List Token → Prop
  | nil : Part [] true []
  | scalar {cur : List Node} {ts : List Token} (x : List Char) (before : Part cur true ts) :
      Part (.scalar x :: cur) false (ts ++ [.scalar x])
  | list {cur inner : List Node} {ready : Bool} {ts us : List Token} (before : Part cur true ts)
      (inside : Part inner ready us) :
      Part (.list inner.reverse :: cur) false (ts ++ .opening :: (us ++ [.closing]))
  | comma {cur : List Node} {ts : List Token} (before : Part cur false ts) :
      Part cur true (ts ++ [.comma])

/-- The same with the sequences around it. -/
inductive Consumed : State → List Token → Prop
  | top {cur : List Node} {ready : Bool} {ts : List Token} (part : Part cur ready ts) :
      Consumed ⟨cur, [], ready⟩ ts
  | inside {cur o : List Node} {os : List (List Node)} {ready : Bool} {ts us : List Token}
      (outer : Consumed ⟨o, os, true⟩ ts) (part : Part cur ready us) :
      Consumed ⟨cur, o :: os, ready⟩ (ts ++ .opening :: us)

variable {s s' : State} {n : Node} {ns : List Node} {ts us : List Token} {t : Token}
  {cur : List Node} {ready : Bool}

theorem run_append : run s (ts ++ us) = (run s ts).bind (fun s => run s us) := by
  induction ts generalizing s with
  | nil => rfl
  | cons t ts ih =>
    rw [List.cons_append, run, run]
    cases step s t with
    | none => rfl
    | some s' => exact ih

mutual

/-- A written entry is read back as the next entry. -/
theorem run_node (n : Node) (s : State) (hs : s.ready = true) :
    run s n.tokens = some { s with current := n :: s.current, ready := false } := by
  cases n with
  | scalar x => simp [Node.tokens, run, step, hs]
  | list nodes =>
    rw [Node.tokens, run, step, hs]
    simp only [if_true, Option.bind_some]
    obtain ⟨s', hrun, hcur, hout⟩ := run_entries nodes ⟨[], s.current :: s.outer, true⟩ rfl
    rw [run_append, hrun]
    simp [run, step, hout, hcur]

theorem run_entries (ns : List Node) (s : State) (hs : s.ready = true) :
    ∃ s', run s (entries ns) = some s' ∧ s'.current = ns.reverse ++ s.current ∧
      s'.outer = s.outer := by
  cases ns with
  | nil => exact ⟨s, rfl, rfl, rfl⟩
  | cons n ns =>
    rw [entries, run_append, run_node n s hs]
    refine ⟨_, run_laterEntries ns _ rfl, ?_, rfl⟩
    simp

theorem run_laterEntries (ns : List Node) (s : State) (hs : s.ready = false) :
    run s (laterEntries ns) = some { s with current := ns.reverse ++ s.current } := by
  cases ns with
  | nil => rfl
  | cons n ns =>
    rw [laterEntries, run, step, hs]
    simp only [Bool.false_eq_true, if_false, Option.bind_some]
    rw [run_append, run_node n _ rfl]
    simp only [Option.bind_some]
    rw [run_laterEntries ns _ rfl]
    simp

end

theorem parse_tokens (nodes : List Node) : parse (Node.list nodes).tokens = some nodes := by
  rw [parse, run_node _ _ rfl]

/-- The sequence that is open goes on, whatever is around it. -/
theorem Consumed.more {cur' : List Node} {ready' : Bool} {vs : List Token} {os : List (List Node)}
    (h : Consumed ⟨cur, os, ready⟩ ts)
    (hmore : ∀ us, Part cur ready us → Part cur' ready' (us ++ vs)) :
    Consumed ⟨cur', os, ready'⟩ (ts ++ vs) := by
  cases h with
  | top part => exact .top (hmore _ part)
  | inside outer part =>
    rw [List.append_assoc, List.cons_append]
    exact .inside outer (hmore _ part)

theorem step_consumed (h : Consumed s ts) (hs : step s t = some s') : Consumed s' (ts ++ [t]) := by
  obtain ⟨cur, os, ready⟩ := s
  cases t with
  | scalar x =>
    cases ready <;> simp [step] at hs
    subst hs
    exact h.more (fun _ part => .scalar x part)
  | comma =>
    cases ready <;> simp [step] at hs
    subst hs
    exact h.more (fun _ part => .comma part)
  | opening =>
    cases ready <;> simp [step] at hs
    subst hs
    exact .inside h .nil
  | closing =>
    cases h with
    | top part => simp [step] at hs
    | inside outer part =>
      simp only [step, Option.some.injEq] at hs
      subst hs
      rw [List.append_assoc, List.cons_append]
      exact outer.more (fun _ before => .list before part)

theorem run_consumed (h : Consumed s ts) (hrun : run s us = some s') : Consumed s' (ts ++ us) := by
  induction us generalizing s ts with
  | nil =>
    obtain rfl := Option.some.inj hrun
    simpa using h
  | cons u us ih =>
    obtain ⟨s₁, hstep, hrest⟩ := Option.bind_eq_some_iff.mp hrun
    have hnext := ih (step_consumed h hstep) hrest
    rwa [List.append_assoc] at hnext

theorem parse_part {nodes : List Node} (hp : parse ts = some nodes) :
    ∃ inner ready us, nodes = inner.reverse ∧ ts = .opening :: (us ++ [.closing]) ∧
      Part inner ready us := by
  rw [parse] at hp
  split at hp
  · rename_i ns hrun
    obtain rfl := Option.some.inj hp
    have hc : Consumed ⟨[.list ns], [], false⟩ ts := run_consumed (.top .nil) hrun
    cases hc with
    | top part =>
      cases part with
      | list before inside =>
        cases before with
        | nil => exact ⟨_, _, _, rfl, rfl, inside⟩
        | comma before => cases before
  · cases hp

/-- No comma stands right before a closing bracket. -/
def NoTrailing (ts : List Token) : Prop :=
  ts.IsChain (fun t u => ¬ (t = .comma ∧ u = .closing))

theorem noTrailing_cons (ht : t ≠ .comma) (h : NoTrailing ts) : NoTrailing (t :: ts) :=
  List.isChain_cons.mpr ⟨fun _ _ hcomma => ht hcomma.1, h⟩

theorem noTrailing_comma (hu : t ≠ .closing) (h : NoTrailing (t :: ts)) :
    NoTrailing (.comma :: t :: ts) :=
  List.isChain_cons_cons.mpr ⟨fun hclosing => hu hclosing.2, h⟩

mutual

theorem noTrailing_node (n : Node) (ts : List Token) (h : NoTrailing ts) :
    NoTrailing (n.tokens ++ ts) := by
  cases n with
  | scalar x =>
    apply noTrailing_cons _ h
    simp
  | list nodes =>
    rw [Node.tokens, List.cons_append, List.append_assoc]
    apply noTrailing_cons (by simp)
    apply noTrailing_entries
    exact noTrailing_cons (by simp) h

theorem noTrailing_entries (ns : List Node) (ts : List Token) (h : NoTrailing ts) :
    NoTrailing (entries ns ++ ts) := by
  cases ns with
  | nil => exact h
  | cons n ns =>
    rw [entries, List.append_assoc]
    exact noTrailing_node n _ (noTrailing_laterEntries ns ts h)

theorem noTrailing_laterEntries (ns : List Node) (ts : List Token) (h : NoTrailing ts) :
    NoTrailing (laterEntries ns ++ ts) := by
  cases ns with
  | nil => exact h
  | cons n ns =>
    have hrest := noTrailing_node n _ (noTrailing_laterEntries ns ts h)
    rw [laterEntries, List.cons_append, List.append_assoc]
    cases n with
    | scalar x => exact noTrailing_comma (by simp) hrest
    | list nodes => exact noTrailing_comma (by simp) hrest

end

theorem laterEntries_append (ns ms : List Node) :
    laterEntries (ns ++ ms) = laterEntries ns ++ laterEntries ms := by
  induction ns with
  | nil => rfl
  | cons n ns ih => simp [laterEntries, ih]

/-- The comma that separates the next entry from those before it. -/
def separator (ns : List Node) : List Token := if ns = [] then [] else [.comma]

theorem entries_concat (ns : List Node) (n : Node) :
    entries (ns ++ [n]) = entries ns ++ (separator ns ++ n.tokens) := by
  cases ns with
  | nil => simp [entries, laterEntries, separator]
  | cons m ns => simp [entries, laterEntries_append, laterEntries, separator]

/-- A part that was read without such a comma is what is written of its entries. -/
theorem Part.canonical (h : Part cur ready ts) (hts : NoTrailing ts) :
    ts = entries cur.reverse ++ (if ready then separator cur else []) := by
  induction h with
  | nil => rfl
  | @scalar cur ts x before ih =>
    rw [ih hts.left_of_append, List.reverse_cons, entries_concat]
    simp [separator, Node.tokens]
  | @list cur inner ready ts us before inside ih ih' =>
    have hclose : NoTrailing (us ++ [.closing]) := (List.IsChain.right_of_append hts).tail
    have hus : us = entries inner.reverse := by
      have hus := ih' hclose.left_of_append
      cases ready with
      | false => simpa using hus
      | true =>
        by_cases hinner : inner = []
        · simpa [separator, hinner] using hus
        · simp only [if_true, separator, hinner, if_false] at hus
          rw [hus, List.append_assoc] at hclose
          have hbad : NoTrailing [.comma, .closing] := List.IsChain.right_of_append hclose
          exact absurd ⟨rfl, rfl⟩ (List.isChain_cons_cons.mp hbad).1
    rw [ih (List.IsChain.left_of_append hts), hus, List.reverse_cons, entries_concat]
    simp [separator, Node.tokens]
  | @comma cur ts before ih =>
    have hcur : cur ≠ [] := by
      cases before <;> simp
    rw [ih hts.left_of_append]
    simp [separator, hcur]

/-- A text without such a comma is read exactly as the sequence that is written like it. -/
theorem parse_iff {nodes : List Node} (hts : NoTrailing ts) :
    parse ts = some nodes ↔ ts = (Node.list nodes).tokens := by
  refine ⟨fun hp => ?_, fun h => h ▸ parse_tokens nodes⟩
  obtain ⟨inner, ready, us, rfl, rfl, hpart⟩ := parse_part hp
  have hlist : Part [.list inner.reverse] false ([] ++ .opening :: (us ++ [.closing])) :=
    .list .nil hpart
  have hcanonical := hlist.canonical hts
  simpa [entries, laterEntries] using hcanonical

/-! ## Scalars in a text -/

/-- A scalar without blanks. -/
structure Word (w : List Char) : Prop where
  nonempty : w ≠ []
  letters : ∀ c ∈ w, punctuation c = none ∧ blank c = false

/-- A text that ends the scalar before it. -/
def Stops : List Char → Prop
  | [] => True
  | c :: _ => punctuation c ≠ none

theorem lexFrom_letters {between w rest : List Char} (hw : ∀ c ∈ w, punctuation c = none) :
    lexFrom between (w ++ rest) = lexFrom (between ++ w) rest := by
  induction w generalizing between with
  | nil => simp
  | cons c w ih =>
    obtain ⟨hc, hw⟩ := List.forall_mem_cons.mp hw
    simp only [List.cons_append, lexFrom, hc]
    rw [ih hw, List.append_assoc]
    rfl

theorem lexFrom_stops {between rest : List Char} (h : Stops rest) :
    lexFrom between rest = flush between ++ lexFrom [] rest := by
  cases rest with
  | nil => simp [lexFrom, flush]
  | cons c cs =>
    obtain ⟨t, ht⟩ := Option.ne_none_iff_exists'.mp h
    simp [lexFrom, ht, flush]

theorem dropWhile_letters {w : List Char} (hw : ∀ c ∈ w, blank c = false) :
    w.dropWhile blank = w := by
  cases w with
  | nil => rfl
  | cons c w => rw [List.dropWhile_cons_of_neg (by simp [hw c List.mem_cons_self])]

theorem flush_word {w : List Char} (n : Nat) (hw : Word w) :
    flush (List.replicate n ' ' ++ w) = [.scalar w] := by
  have hletters : ∀ c ∈ w, blank c = false := fun c hc => (hw.letters c hc).2
  obtain ⟨c, cs, rfl⟩ := List.exists_cons_of_ne_nil hw.nonempty
  have hall : (List.replicate n ' ' ++ c :: cs).all blank = false := by
    simp [hletters c List.mem_cons_self]
  have hdrop : (List.replicate n ' ' ++ c :: cs).dropWhile blank = c :: cs := by
    rw [List.dropWhile_append_of_pos (by simp [blank]), dropWhile_letters hletters]
  have hlast : (c :: cs).reverse.dropWhile blank = (c :: cs).reverse :=
    dropWhile_letters (fun d hd => hletters d (List.mem_reverse.mp hd))
  rw [flush, hall, trim, hdrop, hlast, List.reverse_reverse]
  rfl

theorem lexFrom_word {w rest : List Char} (n : Nat) (hw : Word w) (h : Stops rest) :
    lexFrom [] (List.replicate n ' ' ++ (w ++ rest)) = .scalar w :: lexFrom [] rest := by
  have hblanks : ∀ c ∈ List.replicate n ' ', punctuation c = none := by
    intro c hc
    rw [(List.mem_replicate.mp hc).2]
    rfl
  rw [lexFrom_letters hblanks, lexFrom_letters (fun c hc => (hw.letters c hc).1), lexFrom_stops h,
    List.nil_append, flush_word n hw]
  rfl

end FlowSequence
