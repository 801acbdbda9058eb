import Mathlib.Data.List.Infix

/-! What replacing every occurrence of a text by another one gives, from left to right. -/

namespace Replacement

variable {α : Type} {old new text rest r r' cs : List α} {c : α}

/-- The second text is the first one with every occurrence of `old` replaced by `new`. -/
inductive Replaced (old new : List α) : List α → List α → Prop
  | nil : Replaced old new [] []
  | here {rest r : List α} (later : Replaced old new rest r) :
      Replaced old new (old ++ rest) (new ++ r)
  | next {cs r : List α} (c : α) (absent : ¬ old <+: c :: cs) (later : Replaced old new cs r) :
      Replaced old new (c :: cs) (c :: r)

theorem Replaced.of_absent (h : ¬ old <:+: text) : Replaced old new text text := by
  induction text with
  | nil => exact .nil
  | cons c cs ih =>
    refine .next c (fun hp => h hp.isInfix) (ih fun hi => h ?_)
    exact hi.trans (List.suffix_cons c cs).isInfix

theorem Replaced.unique (hne : old ≠ []) (h : Replaced old new text r)
    (h' : Replaced old new text r') : r = r' := by
  induction h generalizing r' with
  | nil =>
    generalize hnil : ([] : List α) = text at h'
    cases h' with
    | nil => rfl
    | here later => exact absurd (List.append_eq_nil_iff.mp hnil.symm).1 hne
    | next c absent later => cases hnil
  | @here rest r later ih =>
    generalize htext : old ++ rest = text at h'
    cases h' with
    | nil => exact absurd (List.append_eq_nil_iff.mp htext).1 hne
    | here later' =>
      obtain rfl := List.append_cancel_left htext
      rw [ih later']
    | next c absent later' => exact absurd (htext ▸ List.prefix_append old rest) absent
  | @next cs r c absent later ih =>
    generalize htext : c :: cs = text at h'
    cases h' with
    | nil => cases htext
    | here later' => exact absurd (htext ▸ List.prefix_append old _) absent
    | next d absent' later' =>
      obtain ⟨rfl, rfl⟩ := List.cons.inj htext
      rw [ih later']

/-- How many occurrences were replaced, by the lengths of the texts. -/
theorem Replaced.count (h : Replaced old new text r) :
    ∃ n, r.length + n * old.length = text.length + n * new.length ∧
      (n = 0 → ¬ old <:+: text ∨ old = []) := by
  induction h with
  | nil =>
    refine ⟨0, by simp, fun _ => ?_⟩
    by_cases hold : old = []
    · exact .inr hold
    · exact .inl (fun hi => hold (List.infix_nil.mp hi))
  | here later ih =>
    obtain ⟨n, hlen, -⟩ := ih
    refine ⟨n + 1, ?_, nofun⟩
    simp only [List.length_append, Nat.add_mul, Nat.one_mul]
    omega
  | next c absent later ih =>
    obtain ⟨n, hlen, hnone⟩ := ih
    refine ⟨n, ?_, fun hn => ?_⟩
    · simp only [List.length_cons]
      omega
    · obtain h | h := hnone hn
      · refine .inl (fun hi => ?_)
        obtain hp | hi := List.infix_cons_iff.mp hi
        · exact absent hp
        · exact h hi
      · exact .inr h

theorem Replaced.eq_of_same (h : Replaced old old text r) : r = text := by
  induction h with
  | nil => rfl
  | here later ih => rw [ih]
  | next c absent later ih => rw [ih]

theorem Replaced.same_of_eq (h : Replaced old new text r) (heq : r = text)
    (hlen : new.length = old.length) (hi : old <:+: text) : new = old := by
  induction h with
  | nil =>
    rw [List.infix_nil.mp hi] at hlen ⊢
    exact List.eq_nil_of_length_eq_zero hlen
  | here later ih => exact (List.append_inj heq hlen).1
  | next c absent later ih =>
    obtain hp | hi := List.infix_cons_iff.mp hi
    · exact absurd hp absent
    · exact ih (List.cons.inj heq).2 hi

/-- A text is left as it is exactly if there is nothing to replace, or nothing to change. -/
theorem Replaced.self_iff (hne : old ≠ []) (h : Replaced old new text r) :
    r = text ↔ ¬ old <:+: text ∨ new = old := by
  refine ⟨fun heq => ?_, fun hor => ?_⟩
  · by_cases hi : old <:+: text
    · obtain ⟨n, hlen, hnone⟩ := h.count
      have hpos : 0 < n := by
        by_contra hn
        obtain hno | hno := hnone (by omega)
        · exact hno hi
        · exact hne hno
      rw [heq] at hlen
      have hsize : old.length = new.length :=
        Nat.eq_of_mul_eq_mul_left hpos (Nat.add_left_cancel hlen)
      exact .inr (h.same_of_eq heq hsize.symm hi)
    · exact .inl hi
  · obtain hi | hnew := hor
    · exact h.unique hne (.of_absent hi)
    · rw [hnew] at h
      exact h.eq_of_same

/-! ## Placeholders -/

/-- Every placeholder that is the first of a rule's is replaced by what the rule says. -/
inductive Filled (rules : List (List α × List α)) : List α → List α → Prop
  | nil : Filled rules [] []
  | here {rest r : List α} (before : List (List α × List α)) (q : List α × List α)
      (after : List (List α × List α)) (split : rules = before ++ q :: after)
      (first : ∀ b ∈ before, ¬ b.1 <+: q.1 ++ rest) (later : Filled rules rest r) :
      Filled rules (q.1 ++ rest) (q.2 ++ r)
  | next {cs r : List α} (c : α) (absent : ∀ q ∈ rules, ¬ q.1 <+: c :: cs)
      (later : Filled rules cs r) : Filled rules (c :: cs) (c :: r)

/-- A name between two characters that stand in no name. -/
def Placeholder (opening closing mark : α) (old : List α) : Prop :=
  ∃ name, old = opening :: (name ++ [closing]) ∧ opening ∉ name ∧ closing ∉ name ∧ mark ∉ name

/-- What a placeholder is replaced by. -/
def Marked (opening mark : α) (new : List α) : Prop := ∃ value, new = mark :: value ∧ opening ∉ new

theorem Replaced.nil_cases (hne : old ≠ []) (h : Replaced old new [] r) : r = [] :=
  h.unique hne .nil

theorem Replaced.cons_cases (h : Replaced old new (c :: cs) r) :
    (∃ rest r', c :: cs = old ++ rest ∧ r = new ++ r' ∧ Replaced old new rest r') ∨
    ¬ old <+: c :: cs ∧ ∃ r', r = c :: r' ∧ Replaced old new cs r' := by
  generalize htext : c :: cs = text at h
  cases h with
  | nil => cases htext
  | here later => exact .inl ⟨_, _, rfl, rfl, later⟩
  | next d absent later =>
    obtain ⟨rfl, rfl⟩ := List.cons.inj htext
    exact .inr ⟨absent, _, rfl, later⟩

theorem Filled.nil_cases {rules : List (List α × List α)} (hne : ∀ q ∈ rules, q.1 ≠ [])
    (h : Filled rules [] r) : r = [] := by
  generalize htext : ([] : List α) = text at h
  cases h with
  | nil => rfl
  | here before q after split first later =>
    have hq : q ∈ rules := by simp [split]
    exact absurd (List.append_eq_nil_iff.mp htext.symm).1 (hne q hq)
  | next c absent later => cases htext

theorem Filled.cons_cases {rules : List (List α × List α)} (h : Filled rules (c :: cs) r) :
    (∃ before q after rest r', rules = before ++ q :: after ∧ c :: cs = q.1 ++ rest ∧
      (∀ b ∈ before, ¬ b.1 <+: q.1 ++ rest) ∧ r = q.2 ++ r' ∧ Filled rules rest r') ∨
    (∀ q ∈ rules, ¬ q.1 <+: c :: cs) ∧ ∃ r', r = c :: r' ∧ Filled rules cs r' := by
  generalize htext : c :: cs = text at h
  cases h with
  | nil => cases htext
  | here before q after split first later =>
    exact .inl ⟨before, q, after, _, _, split, rfl, first, rfl, later⟩
  | next d absent later =>
    obtain ⟨rfl, rfl⟩ := List.cons.inj htext
    exact .inr ⟨absent, _, rfl, later⟩

theorem Filled.without_rules (text : List α) : Filled [] text text := by
  induction text with
  | nil => exact .nil
  | cons c cs ih => exact .next c nofun ih

section placeholders

variable {opening closing mark : α} {w : List α} {rules : List (List α × List α)}

theorem Placeholder.ne_nil (h : Placeholder opening closing mark old) : old ≠ [] := by
  obtain ⟨name, rfl, -⟩ := h
  simp

/-- Nothing begins inside a text without opening characters. -/
theorem Placeholder.absent (h : Placeholder opening closing mark old) (hc : c ≠ opening) :
    ¬ old <+: c :: cs := by
  obtain ⟨name, rfl, -⟩ := h
  rw [List.cons_prefix_cons]
  exact fun hp => hc hp.1.symm

theorem Replaced.plain_append (ho : Placeholder opening closing mark old) (hw : opening ∉ w)
    (h : Replaced old new (w ++ rest) r) : ∃ r', r = w ++ r' ∧ Replaced old new rest r' := by
  induction w generalizing r with
  | nil => exact ⟨r, rfl, h⟩
  | cons c w ih =>
    have hc : c ≠ opening := fun hc => hw (hc ▸ List.mem_cons_self)
    obtain ⟨rest', r', heq, -⟩ | ⟨-, r', rfl, hlater⟩ := Replaced.cons_cases h
    · exact absurd (heq ▸ List.prefix_append old rest') (ho.absent hc)
    · obtain ⟨r'', rfl, hrest⟩ := ih (fun hmem => hw (List.mem_cons_of_mem c hmem)) hlater
      exact ⟨r'', rfl, hrest⟩

/-- A part without marks of what comes out stood there before. -/
theorem Replaced.plain_result (hnew : Marked opening mark new) (hw : mark ∉ w)
    (h : Replaced old new text (w ++ r)) : ∃ rest, text = w ++ rest ∧ Replaced old new rest r := by
  induction w generalizing text with
  | nil => exact ⟨text, rfl, h⟩
  | cons c w ih =>
    obtain ⟨value, hvalue, -⟩ := hnew
    generalize hr : c :: w ++ r = result at h
    cases h with
    | nil => cases hr
    | here later =>
      rw [hvalue] at hr
      exact absurd (List.cons.inj hr).1 (fun hc => hw (hc ▸ List.mem_cons_self))
    | next d absent later =>
      obtain ⟨rfl, rfl⟩ := List.cons.inj hr
      obtain ⟨rest, rfl, hrest⟩ := ih (fun hmem => hw (List.mem_cons_of_mem c hmem)) later
      exact ⟨rest, rfl, hrest⟩

theorem Filled.plain_append (hrules : ∀ q ∈ rules, Placeholder opening closing mark q.1)
    (hw : opening ∉ w) (h : Filled rules (w ++ rest) r) :
    ∃ r', r = w ++ r' ∧ Filled rules rest r' := by
  induction w generalizing r with
  | nil => exact ⟨r, rfl, h⟩
  | cons c w ih =>
    have hc : c ≠ opening := fun hc => hw (hc ▸ List.mem_cons_self)
    obtain ⟨before, q, after, rest', r', rfl, heq, -⟩ | ⟨-, r', rfl, hlater⟩ := Filled.cons_cases h
    · exact absurd (heq ▸ List.prefix_append q.1 rest') ((hrules q (by simp)).absent hc)
    · obtain ⟨r'', rfl, hrest⟩ := ih (fun hmem => hw (List.mem_cons_of_mem c hmem)) hlater
      exact ⟨r'', rfl, hrest⟩

theorem append_closing {name name' : List α} {tail tail' : List α} (hn : c ∉ name)
    (hn' : c ∉ name') (h : name ++ c :: tail = name' ++ c :: tail') :
    name = name' ∧ tail = tail' := by
  induction name generalizing name' with
  | nil =>
    cases name' with
    | nil => exact ⟨rfl, (List.cons.inj h).2⟩
    | cons d name' => exact absurd (List.cons.inj h).1 (fun hc => hn' (hc ▸ List.mem_cons_self))
  | cons d name ih =>
    cases name' with
    | nil => exact absurd (List.cons.inj h).1.symm (fun hc => hn (hc ▸ List.mem_cons_self))
    | cons e name' =>
      obtain ⟨rfl, htail⟩ := List.cons.inj h
      obtain ⟨rfl, rfl⟩ := ih (fun hm => hn (List.mem_cons_of_mem d hm))
        (fun hm => hn' (List.mem_cons_of_mem d hm)) htail
      exact ⟨rfl, rfl⟩

theorem Placeholder.eq_of_begins {old' : List α} (h : Placeholder opening closing mark old)
    (h' : Placeholder opening closing mark old') (hp : old <+: old' ++ rest) : old = old' := by
  obtain ⟨name, rfl, -, hname, -⟩ := h
  obtain ⟨name', rfl, -, hname', -⟩ := h'
  obtain ⟨tail, htail⟩ := hp
  simp only [List.cons_append, List.append_assoc, List.cons.injEq, true_and] at htail
  obtain ⟨rfl, -⟩ := append_closing hname hname' htail
  rfl

theorem Filled.rule_first {before : List (List α × List α)}
    (hold : Placeholder opening closing mark old)
    (hbefore : ∀ b ∈ before, Placeholder opening closing mark b.1)
    (first : ∀ b ∈ before, ¬ b.1 <+: old ++ rest) (cs : List α) :
    ∀ b ∈ before, ¬ b.1 <+: old ++ cs := by
  intro b hb hp
  have heq := (hbefore b hb).eq_of_begins hold hp
  exact first b hb (heq ▸ List.prefix_append b.1 rest)

/-- Replacing the placeholders one after the other is replacing them all at once. -/
theorem Filled.of_replaced (hclosing : opening ≠ closing) (hmark : mark ≠ closing)
    (ho : Placeholder opening closing mark old) (hn : Marked opening mark new)
    (hrules : ∀ q ∈ rules, Placeholder opening closing mark q.1) {mid : List α}
    (h : Replaced old new text mid) (hf : Filled rules mid r) :
    Filled ((old, new) :: rules) text r := by
  have hinside : ∀ {x name}, x ∉ name → x ≠ closing → x ∉ name ++ [closing] := by
    intro x name hname hx
    simp [hname, hx]
  induction hlen : text.length using Nat.strong_induction_on generalizing text mid r with
  | _ n ih =>
    cases text with
    | nil =>
      obtain rfl := h.nil_cases ho.ne_nil
      obtain rfl := hf.nil_cases (fun q hq => (hrules q hq).ne_nil)
      exact .nil
    | cons c cs =>
      obtain ⟨rest, r', htext, rfl, hrest⟩ | ⟨habsent, m, rfl, hm⟩ := Replaced.cons_cases h
      · obtain ⟨r'', rfl, hlater⟩ := hf.plain_append hrules hn.choose_spec.2
        have hlt : rest.length < n := by
          have hsize := congrArg List.length htext
          have hpos := List.length_pos_of_ne_nil ho.ne_nil
          rw [List.length_append] at hsize
          omega
        rw [htext]
        exact .here [] (old, new) rules rfl (by simp) (ih _ hlt hrest hlater rfl)
      · obtain ⟨before, q, after, rest, r', rfl, hq, first, rfl, hlater⟩ |
          ⟨hnone, r', rfl, hlater⟩ := Filled.cons_cases hf
        · -- The placeholder that comes next stood in the text before.
          have hplace := hrules q (by simp)
          obtain ⟨name, hname, hopen, hclose, hno⟩ := hplace
          rw [hname, List.cons_append] at hq
          obtain ⟨rfl, rfl⟩ := List.cons.inj hq
          obtain ⟨rest₀, rfl, hrest⟩ := hm.plain_result hn (hinside hno hmark)
          have hlt : rest₀.length < n := by
            simp only [List.length_cons, List.length_append] at hlen
            omega
          have htext : c :: (name ++ [closing] ++ rest₀) = q.1 ++ rest₀ := by simp [hname]
          rw [htext] at habsent ⊢
          refine .here ((old, new) :: before) q after rfl ?_ (ih _ hlt hrest hlater rfl)
          refine List.forall_mem_cons.mpr ⟨habsent, ?_⟩
          exact Filled.rule_first ⟨name, hname, hopen, hclose, hno⟩
            (fun b hb => hrules b (by simp [hb])) first rest₀
        · refine .next c (List.forall_mem_cons.mpr ⟨habsent, ?_⟩)
            (ih _ (by simp only [List.length_cons] at hlen; omega) hm hlater rfl)
          intro q hq hp
          obtain ⟨name, hname, hopen, hclose, hno⟩ := hrules q hq
          obtain ⟨rest, hrest⟩ := hp
          rw [hname, List.cons_append] at hrest
          obtain ⟨rfl, rfl⟩ := List.cons.inj hrest
          obtain ⟨m', rfl, -⟩ := hm.plain_append ho (hinside hopen hclosing)
          apply hnone q hq
          rw [hname]
          exact ⟨m', by simp⟩

end placeholders

end Replacement
