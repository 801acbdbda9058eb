import Mathlib.Algebra.Group.Nat.Defs
import Mathlib.Data.List.Basic
import Sdbusplus.Message.Filename
import Sdbusplus.Proofs.ObjectPath

namespace Sdbusplus.Proofs.Filename
open Message Message.ObjectPath ObjectPath
open Message.Filename (charAt charIndex unhexEntry unescapeFrom Fault)

variable {s d p out str before after : Bytes} {c hi lo b : UInt8} {i : Nat}

/-! ## Reads -/

theorem charIndex_table : ∀ n < 256, charIndex (UInt8.ofNat n) =
    if n < 128 then n else 2 ^ 64 - 256 + n := by
  decide +kernel

theorem charIndex_eq (c : UInt8) :
    charIndex c = if c < 128 then c.toNat else 2 ^ 64 - 256 + c.toNat := by
  have h := charIndex_table c.toNat c.toNat_lt
  rwa [UInt8.ofNat_toNat] at h

/-- Bytes from 0x80 on are outside of the table. -/
theorem unhexEntry_eq (c : UInt8) : unhexEntry c =
    if c < 128 then .ok (unhex c.toNat) else .error (.unhex (2 ^ 64 - 256 + c.toNat)) := by
  rw [unhexEntry, charIndex_eq]
  split
  case isTrue h =>
    have hlt : c.toNat < 128 := h
    rw [if_pos (by omega)]
  case isFalse h =>
    rw [if_neg (by omega)]

/-- An entry is read, or the table is left. -/
theorem unhexEntry_cases (c : UInt8) :
    (∃ v, unhexEntry c = .ok v ∧ unhexAt c = some v) ∨
    ∃ k, unhexEntry c = .error (.unhex k) ∧ unhexAt c = none := by
  rw [unhexEntry_eq, unhexAt]
  split
  case isTrue h => exact .inl ⟨_, rfl, rfl⟩
  case isFalse h => exact .inr ⟨_, rfl, rfl⟩

/-! ## The loop -/

theorem ok_bind {α β : Type} (a : α) (f : α → Except Fault β) : (Except.ok a >>= f) = f a := rfl

theorem charAt_drop {rest : Bytes} (h : s.drop i = c :: rest) : charAt s i = .ok c := by
  have hget : s[i]? = some c := by
    rw [← List.head?_drop, h]
    rfl
  rw [charAt, hget]

theorem drop_succ {rest : Bytes} (h : s.drop i = c :: rest) : s.drop (i + 1) = rest := by
  rw [← List.drop_drop, h]
  rfl

theorem length_drop {rest : Bytes} (h : s.drop i = rest) (hne : rest ≠ []) :
    s.length = i + rest.length := by
  have hlen := congrArg List.length h
  have hpos := List.length_pos_iff.mpr hne
  rw [List.length_drop] at hlen
  omega

theorem unescapeFrom_end (h : s.drop i = []) : unescapeFrom s out i = .ok out := by
  have hlen : s.length ≤ i := List.drop_eq_nil_iff.mp h
  rw [unescapeFrom, if_neg (by omega)]
  rfl

theorem unescapeFrom_plain {rest : Bytes} (h : s.drop i = c :: rest) (hc : c ≠ underscore) :
    unescapeFrom s out i = unescapeFrom s (out ++ [c]) (i + 1) := by
  have hlen := length_drop h (List.cons_ne_nil c rest)
  rw [List.length_cons] at hlen
  rw [unescapeFrom, if_pos (by omega), charAt_drop h]
  exact if_pos hc

theorem unescapeFrom_short {rest : Bytes} (h : s.drop i = underscore :: rest)
    (hrest : rest.length < 2) : unescapeFrom s out i = .ok [] := by
  have hlen := length_drop h (List.cons_ne_nil underscore rest)
  rw [List.length_cons] at hlen
  rw [unescapeFrom, if_pos (by omega), charAt_drop h, ok_bind, if_neg (fun hne => hne rfl),
    if_pos (by omega)]
  rfl

/-- Both characters behind '_' are looked up before either is checked. -/
theorem unescapeFrom_escape {rest : Bytes} (h : s.drop i = underscore :: hi :: lo :: rest) :
    unescapeFrom s out i = unhexEntry hi >>= fun ch => unhexEntry lo >>= fun cl =>
      if ch = -1 ∨ cl = -1 then pure []
      else unescapeFrom s (out ++ [byteOf ch cl]) (i + 3) := by
  have hlen := length_drop h (List.cons_ne_nil underscore _)
  have hhi := drop_succ h
  have hlo := drop_succ hhi
  simp only [List.length_cons] at hlen
  rw [unescapeFrom, if_pos (by omega), charAt_drop h, ok_bind, if_neg (fun hne => hne rfl),
    if_neg (by omega), charAt_drop hhi, charAt_drop hlo]
  rfl

/-- Whether two bytes are there. -/
theorem pair_cases (rest : Bytes) :
    rest = [] ∨ (∃ hi, rest = [hi]) ∨ ∃ hi lo tail, rest = hi :: lo :: tail := by
  cases rest with
  | nil => exact .inl rfl
  | cons hi rest =>
    cases rest with
    | nil => exact .inr (.inl ⟨hi, rfl⟩)
    | cons lo tail => exact .inr (.inr ⟨hi, lo, tail, rfl⟩)

/-- The loop is the recursion on the characters, and reads only characters of the segment. -/
theorem unescapeFrom_eq {rest : Bytes} (h : s.drop i = rest) :
    (unescapeFrom s out i).toOption = unescape out rest ∧
      ∀ k, unescapeFrom s out i ≠ .error (.segment k) := by
  induction hlen : rest.length using Nat.strongRecOn generalizing out i rest with
  | _ n ih =>
    cases rest with
    | nil =>
      rw [unescapeFrom_end h]
      exact ⟨rfl, fun k hk => by cases hk⟩
    | cons c rest =>
      rw [unescape.eq_def]
      by_cases hc : c ≠ underscore
      · rw [unescapeFrom_plain h hc]
        simp only [if_pos hc]
        exact ih _ (by simp only [List.length_cons] at hlen; omega) (drop_succ h) rfl
      · obtain rfl := not_not.mp hc
        simp only [if_neg hc]
        obtain rfl | ⟨hi, rfl⟩ | ⟨hi, lo, rest, rfl⟩ := pair_cases rest
        · rw [unescapeFrom_short h (by simp)]
          exact ⟨rfl, fun k hk => by cases hk⟩
        · rw [unescapeFrom_short h (by simp)]
          exact ⟨rfl, fun k hk => by cases hk⟩
        · have hrest : s.drop (i + 3) = rest := drop_succ (drop_succ (drop_succ h))
          rw [unescapeFrom_escape h]
          obtain ⟨ch, hch, hch'⟩ | ⟨k, hk, hk'⟩ := unhexEntry_cases hi
          · obtain ⟨cl, hcl, hcl'⟩ | ⟨k, hk, hk'⟩ := unhexEntry_cases lo
            · rw [hch, hcl, ok_bind, ok_bind]
              simp only [hch', hcl']
              by_cases hbad : ch = -1 ∨ cl = -1
              · rw [if_pos hbad, if_pos hbad]
                exact ⟨rfl, fun k hk => by cases hk⟩
              · rw [if_neg hbad, if_neg hbad]
                exact ih _ (by simp only [List.length_cons] at hlen; omega) hrest rfl
            · rw [hch, hk, ok_bind]
              simp only [hch', hk']
              exact ⟨rfl, fun k hk => by cases hk⟩
          · rw [hk]
            simp only [hk']
            exact ⟨rfl, fun k hk => by cases hk⟩

theorem filename_eq (str : Bytes) : (Message.Filename.filename str).toOption = filename str ∧
    ∀ k, Message.Filename.filename str ≠ .error (.segment k) := by
  rw [Message.Filename.filename, filename]
  cases hslash : rfindSlash str with
  | none => exact ⟨rfl, fun k hk => by cases hk⟩
  | some firstIndex =>
    dsimp only
    generalize str.drop (firstIndex + 1) = segment
    cases segment with
    | nil => exact ⟨rfl, fun k hk => by cases hk⟩
    | cons c rest =>
      have hchar : charAt (c :: rest) 0 = .ok c := rfl
      simp only [List.isEmpty_cons, Bool.false_eq_true, if_false, false_or, List.head?_cons, hchar,
        ok_bind, ne_eq, Option.some.injEq]
      by_cases hc : c = underscore
      · rw [if_neg (not_not.mpr hc), if_neg (not_not.mpr hc)]
        exact unescapeFrom_eq rfl
      · rw [if_pos hc, if_pos hc]
        exact ⟨rfl, fun k hk => by cases hk⟩

/-! ## Escapes -/

def HexDigit (c : UInt8) : Prop := (48 ≤ c ∧ c ≤ 57) ∨ (65 ≤ c ∧ c ≤ 70) ∨ (97 ≤ c ∧ c ≤ 102)

instance (c : UInt8) : Decidable (HexDigit c) := inferInstanceAs (Decidable (_ ∨ _))

def digit (c : UInt8) : Nat :=
  if c ≤ 57 then c.toNat - 48 else if c ≤ 70 then c.toNat - 55 else c.toNat - 87

/-- Behind each '_' of the text stand two hexadecimal digits. -/
def WellEscaped (s : Bytes) : Prop :=
  ∀ before after, s = before ++ underscore :: after →
    ∃ hi lo rest, after = hi :: lo :: rest ∧ HexDigit hi ∧ HexDigit lo

/-- What a segment with escapes stands for. -/
inductive Decodes : Bytes → Bytes → Prop
  | nil : Decodes [] []
  | plain {s d : Bytes} (c : UInt8) (other : c ≠ underscore) (later : Decodes s d) :
      Decodes (c :: s) (c :: d)
  | escape {s d : Bytes} (hi lo : UInt8) (high : HexDigit hi) (low : HexDigit lo)
      (later : Decodes s d) :
      Decodes (underscore :: hi :: lo :: s) (UInt8.ofNat (16 * digit hi + digit lo) :: d)

/-- The first '_' without its digits has two bytes behind it that are not both in the table. -/
def Outside (s : Bytes) : Prop :=
  ∃ before hi lo after, s = before ++ underscore :: hi :: lo :: after ∧ WellEscaped before ∧
    (128 ≤ hi ∨ 128 ≤ lo)

theorem hexDigit_table : ∀ n < 256, (HexDigit (UInt8.ofNat n) →
      n < 128 ∧ UInt8.ofNat n ≠ underscore ∧ unhex n = digit (UInt8.ofNat n) ∧
        digit (UInt8.ofNat n) < 16) ∧
    (unhex n ≠ -1 → HexDigit (UInt8.ofNat n)) := by
  decide +kernel

theorem byteOf_table : ∀ m < 16, ∀ n < 16,
    byteOf (m : Nat) (n : Nat) = UInt8.ofNat (16 * m + n) := by
  decide +kernel

theorem hexDigit_spec (h : HexDigit c) : c < 128 ∧ c ≠ underscore ∧
    unhexAt c = some (digit c : Int) ∧ digit c < 16 := by
  have htable := (hexDigit_table c.toNat c.toNat_lt).1
  rw [UInt8.ofNat_toNat] at htable
  obtain ⟨hlt, hne, hval, hdigit⟩ := htable h
  have hc : c < 128 := hlt
  exact ⟨hc, hne, by rw [unhexAt, if_pos hc, hval], hdigit⟩

theorem not_hexDigit (h : ¬ HexDigit c) (hc : c < 128) : unhexAt c = some (-1) := by
  have htable := (hexDigit_table c.toNat c.toNat_lt).2
  rw [UInt8.ofNat_toNat] at htable
  rw [unhexAt, if_pos hc]
  by_contra hne
  exact h (htable (fun heq => hne (congrArg some heq)))

theorem wellEscaped_cons {rest : Bytes} : WellEscaped (c :: rest) ↔
    (c = underscore → ∃ hi lo tail, rest = hi :: lo :: tail ∧ HexDigit hi ∧ HexDigit lo) ∧
      WellEscaped rest := by
  refine ⟨fun h => ⟨fun hc => h [] rest (by rw [hc]; rfl), fun before after heq => ?_⟩,
    fun ⟨hfirst, h⟩ before after heq => ?_⟩
  · exact h (c :: before) after (by rw [heq]; rfl)
  · cases before with
    | nil =>
      obtain ⟨rfl, rfl⟩ := List.cons.inj heq
      exact hfirst rfl
    | cons d before => exact h before after (List.cons.inj heq).2

theorem wellEscaped_nil : WellEscaped [] := by
  intro before after heq
  cases before <;> cases heq

theorem wellEscaped_plain {rest : Bytes} (hc : c ≠ underscore) :
    WellEscaped (c :: rest) ↔ WellEscaped rest := by
  rw [wellEscaped_cons]
  exact and_iff_right (fun heq => absurd heq hc)

theorem wellEscaped_escape {rest : Bytes} (hhi : HexDigit hi) (hlo : HexDigit lo) :
    WellEscaped (underscore :: hi :: lo :: rest) ↔ WellEscaped rest := by
  rw [wellEscaped_cons, wellEscaped_plain (hexDigit_spec hhi).2.1,
    wellEscaped_plain (hexDigit_spec hlo).2.1]
  exact and_iff_right (fun _ => ⟨hi, lo, rest, rfl, hhi, hlo⟩)

theorem not_outside_nil : ¬ Outside [] := by
  rintro ⟨before, hi, lo, after, heq, -⟩
  cases before <;> cases heq

theorem outside_plain {rest : Bytes} (hc : c ≠ underscore) :
    Outside (c :: rest) ↔ Outside rest := by
  refine ⟨fun ⟨before, hi, lo, after, heq, hwell, hbyte⟩ => ?_,
    fun ⟨before, hi, lo, after, heq, hwell, hbyte⟩ => ?_⟩
  · cases before with
    | nil => exact absurd (List.cons.inj heq).1 hc
    | cons d before =>
      obtain ⟨rfl, rfl⟩ := List.cons.inj heq
      exact ⟨before, hi, lo, after, rfl, (wellEscaped_plain hc).mp hwell, hbyte⟩
  · exact ⟨c :: before, hi, lo, after, by rw [heq]; rfl, (wellEscaped_plain hc).mpr hwell, hbyte⟩

theorem outside_escape {rest : Bytes} (hhi : HexDigit hi) (hlo : HexDigit lo) :
    Outside (underscore :: hi :: lo :: rest) ↔ Outside rest := by
  refine ⟨fun ⟨before, hi', lo', after, heq, hwell, hbyte⟩ => ?_,
    fun ⟨before, hi', lo', after, heq, hwell, hbyte⟩ => ?_⟩
  · match before with
    | [] =>
      simp only [List.nil_append, List.cons.injEq, true_and] at heq
      rw [← heq.1, ← heq.2.1] at hbyte
      have hlt := (hexDigit_spec hhi).1
      have hlt' := (hexDigit_spec hlo).1
      exact absurd hbyte (not_or.mpr ⟨UInt8.not_le.mpr hlt, UInt8.not_le.mpr hlt'⟩)
    | [d] | [d, e] =>
      obtain ⟨rfl, -⟩ := List.cons.inj heq
      obtain ⟨hi, lo, tail, htail, -⟩ := (wellEscaped_cons.mp hwell).1 rfl
      cases htail
    | d :: e :: f :: before =>
      simp only [List.cons_append, List.cons.injEq] at heq
      obtain ⟨rfl, rfl, rfl, rfl⟩ := heq
      exact ⟨before, hi', lo', after, rfl, (wellEscaped_escape hhi hlo).mp hwell, hbyte⟩
  · exact ⟨underscore :: hi :: lo :: before, hi', lo', after, by rw [heq]; rfl,
      (wellEscaped_escape hhi hlo).mpr hwell, hbyte⟩

/-- At the first '_' without its digits. -/
theorem outside_bad {rest : Bytes}
    (h : ¬ ∃ hi lo tail, rest = hi :: lo :: tail ∧ HexDigit hi ∧ HexDigit lo) :
    Outside (underscore :: rest) ↔
      ∃ hi lo tail, rest = hi :: lo :: tail ∧ (128 ≤ hi ∨ 128 ≤ lo) := by
  refine ⟨fun ⟨before, hi, lo, after, heq, hwell, hbyte⟩ => ?_,
    fun ⟨hi, lo, tail, heq, hbyte⟩ => ⟨[], hi, lo, tail, by rw [heq]; rfl, wellEscaped_nil, hbyte⟩⟩
  cases before with
  | nil => exact ⟨hi, lo, after, (List.cons.inj heq).2, hbyte⟩
  | cons d before =>
    obtain ⟨rfl, hrest⟩ := List.cons.inj heq
    obtain ⟨hi', lo', tail, rfl, hhi, hlo⟩ := (wellEscaped_cons.mp hwell).1 rfl
    exact absurd ⟨hi', lo', _, hrest, hhi, hlo⟩ h

theorem unescape_digits {rest : Bytes} (hhi : HexDigit hi) (hlo : HexDigit lo) :
    unescape out (underscore :: hi :: lo :: rest) =
      unescape (out ++ [UInt8.ofNat (16 * digit hi + digit lo)]) rest := by
  obtain ⟨-, -, hch, hch'⟩ := hexDigit_spec hhi
  obtain ⟨-, -, hcl, hcl'⟩ := hexDigit_spec hlo
  have hvalid : ¬ ((digit hi : Int) = -1 ∨ (digit lo : Int) = -1) := by omega
  rw [unescape, if_neg (fun hne => hne rfl)]
  simp only [hch, hcl, if_neg hvalid, byteOf_table _ hch' _ hcl']

theorem unescape_pair {rest : Bytes} :
    unescape out (underscore :: hi :: lo :: rest) =
      match unhexAt hi, unhexAt lo with
      | some ch, some cl =>
        if ch = -1 ∨ cl = -1 then some [] else unescape (out ++ [byteOf ch cl]) rest
      | _, _ => none := by
  rw [unescape]
  exact if_neg (fun hne => hne rfl)

theorem unescape_short {rest : Bytes} (h : rest = [] ∨ ∃ hi, rest = [hi]) :
    unescape out (underscore :: rest) = some [] := by
  obtain rfl | ⟨hi, rfl⟩ := h
  · rw [unescape.eq_def]
    exact if_neg (fun hne => hne rfl)
  · rw [unescape.eq_def]
    exact if_neg (fun hne => hne rfl)

theorem unescape_inside {rest : Bytes} (h : ¬ (HexDigit hi ∧ HexDigit lo)) (hhi : hi < 128)
    (hlo : lo < 128) : unescape out (underscore :: hi :: lo :: rest) = some [] := by
  have hhi' : unhexAt hi = some (unhex hi.toNat) := if_pos hhi
  have hlo' : unhexAt lo = some (unhex lo.toNat) := if_pos hlo
  have hbad : unhex hi.toNat = -1 ∨ unhex lo.toNat = -1 := by
    by_cases hdigit : HexDigit hi
    · have hno : ¬ HexDigit lo := fun hd => h ⟨hdigit, hd⟩
      exact .inr (Option.some.inj (hlo'.symm.trans (not_hexDigit hno hlo)))
    · exact .inl (Option.some.inj (hhi'.symm.trans (not_hexDigit hdigit hhi)))
  rw [unescape_pair]
  simp only [hhi', hlo', if_pos hbad]

theorem unescape_outside {rest : Bytes} (h : 128 ≤ hi ∨ 128 ≤ lo) :
    unescape out (underscore :: hi :: lo :: rest) = none := by
  rw [unescape_pair]
  obtain hhi | hlo := h
  · have hhi' : unhexAt hi = none := if_neg (UInt8.not_lt.mpr hhi)
    simp only [hhi']
  · have hlo' : unhexAt lo = none := if_neg (UInt8.not_lt.mpr hlo)
    rw [hlo']
    cases unhexAt hi <;> rfl

/-- The name is empty if the bytes behind '_' are in the table, and not known otherwise. -/
theorem unescape_bad {rest : Bytes}
    (h : ¬ ∃ hi lo tail, rest = hi :: lo :: tail ∧ HexDigit hi ∧ HexDigit lo) :
    (¬ Outside (underscore :: rest) ∧ unescape out (underscore :: rest) = some []) ∨
      (Outside (underscore :: rest) ∧ unescape out (underscore :: rest) = none) := by
  rw [outside_bad h]
  obtain rfl | ⟨hi, rfl⟩ | ⟨hi, lo, rest, rfl⟩ := pair_cases rest
  · exact .inl ⟨by simp, unescape_short (.inl rfl)⟩
  · exact .inl ⟨by simp, unescape_short (.inr ⟨hi, rfl⟩)⟩
  · by_cases hbyte : 128 ≤ hi ∨ 128 ≤ lo
    · exact .inr ⟨⟨hi, lo, rest, rfl, hbyte⟩, unescape_outside hbyte⟩
    · have hin := not_or.mp hbyte
      refine .inl ⟨?_, ?_⟩
      · rintro ⟨hi', lo', tail, heq, hbyte'⟩
        simp only [List.cons.injEq] at heq
        rw [← heq.1, ← heq.2.1] at hbyte'
        exact hbyte hbyte'
      · apply unescape_inside (fun hdigits => h ⟨hi, lo, rest, rfl, hdigits⟩)
        · exact UInt8.not_le.mp hin.1
        · exact UInt8.not_le.mp hin.2

/-- A segment is decoded, or is ill-formed inside or outside of the table. -/
theorem unescape_cases (s out : Bytes) :
    (∃ d, Decodes s d ∧ WellEscaped s ∧ ¬ Outside s ∧ unescape out s = some (out ++ d)) ∨
    (¬ WellEscaped s ∧ ¬ Outside s ∧ unescape out s = some []) ∨
    (¬ WellEscaped s ∧ Outside s ∧ unescape out s = none) := by
  induction hlen : s.length using Nat.strongRecOn generalizing s out with
  | _ n ih =>
    cases s with
    | nil => exact .inl ⟨[], .nil, wellEscaped_nil, not_outside_nil, by simp [unescape]⟩
    | cons c rest =>
      by_cases hc : c = underscore
      · subst hc
        by_cases hdigits : ∃ hi lo tail, rest = hi :: lo :: tail ∧ HexDigit hi ∧ HexDigit lo
        · obtain ⟨hi, lo, tail, rfl, hhi, hlo⟩ := hdigits
          have hlt : tail.length < n := by
            simp only [List.length_cons] at hlen
            omega
          rw [wellEscaped_escape hhi hlo, outside_escape hhi hlo, unescape_digits hhi hlo]
          have htail := ih _ hlt tail (out ++ [UInt8.ofNat (16 * digit hi + digit lo)]) rfl
          obtain ⟨d, hd, h⟩ | h := htail
          · refine .inl ⟨_, .escape hi lo hhi hlo hd, ?_⟩
            simpa using h
          · exact .inr h
        · have hill : ¬ WellEscaped (underscore :: rest) :=
            fun h => hdigits ((wellEscaped_cons.mp h).1 rfl)
          exact .inr ((unescape_bad hdigits).imp (fun h => ⟨hill, h⟩) (fun h => ⟨hill, h⟩))
      · have hlt : rest.length < n := by
          simp only [List.length_cons] at hlen
          omega
        have hstep : unescape out (c :: rest) = unescape (out ++ [c]) rest := by
          rw [unescape.eq_def]
          exact if_pos hc
        rw [wellEscaped_plain hc, outside_plain hc, hstep]
        obtain ⟨d, hd, h⟩ | h := ih _ hlt rest (out ++ [c]) rfl
        · refine .inl ⟨_, .plain c hc hd, ?_⟩
          simpa using h
        · exact .inr h

/-! ## Names -/

/-- What stands behind the last '/'. -/
def Segment (str s : Bytes) : Prop := ∃ front, str = front ++ slash :: s ∧ slash ∉ s

theorem segment_cases (str : Bytes) : slash ∉ str ∨ ∃ s, Segment str s := by
  by_cases h : slash ∈ str
  · obtain ⟨s, front, hrev, hs⟩ := List.eq_append_cons_of_mem (List.mem_reverse.mpr h)
    refine .inr ⟨s.reverse, front.reverse, ?_, by simpa using hs⟩
    rw [← List.reverse_reverse str, hrev]
    simp
  · exact .inl h

theorem Segment.rfindSlash (h : Segment str s) :
    ∃ k, rfindSlash str = some k ∧ str.drop (k + 1) = s := by
  obtain ⟨front, rfl, hs⟩ := h
  refine ⟨front.length, rfindSlash_append hs, ?_⟩
  rw [← List.drop_drop, List.drop_left]
  rfl

theorem Segment.unique {s' : Bytes} (h : Segment str s) (h' : Segment str s') : s = s' := by
  obtain ⟨k, hk, rfl⟩ := h.rfindSlash
  obtain ⟨k', hk', rfl⟩ := h'.rfindSlash
  rw [Option.some.inj (hk.symm.trans hk')]

theorem Segment.not_absent (h : Segment str s) : ¬ slash ∉ str := by
  obtain ⟨front, rfl, -⟩ := h
  simp

/-- The name is empty without a '/', for an empty segment and for one with ill-formed escapes. -/
def EmptyName (str : Bytes) : Prop :=
  slash ∉ str ∨ Segment str [] ∨ ∃ s, Segment str s ∧ s.head? = some underscore ∧ ¬ WellEscaped s

/-- Every read is in range, and the name is the segment or what it stands for, or is empty. -/
def InRange (str : Bytes) : Prop :=
  ∃ r, Message.Filename.filename str = .ok r ∧ (r = [] ↔ EmptyName str) ∧
    (EmptyName str ∨ ∃ s, Segment str s ∧
      ((s.head? ≠ some underscore ∧ r = s) ∨ (s.head? = some underscore ∧ Decodes s r)))

theorem Decodes.ne_nil (h : Decodes s d) (hs : s ≠ []) : d ≠ [] := by
  cases h with
  | nil => exact absurd rfl hs
  | plain c other later => simp
  | escape hi lo high low later => simp

theorem filename_ok {r : Bytes} :
    Message.Filename.filename str = .ok r ↔ filename str = some r := by
  rw [← (filename_eq str).1]
  cases Message.Filename.filename str <;> simp [Except.toOption]

theorem filename_raw (h : Segment str s) (hs : s.head? ≠ some underscore) :
    filename str = some s := by
  obtain ⟨k, hk, hdrop⟩ := h.rfindSlash
  rw [filename, hk]
  simp only [hdrop]
  exact if_pos (.inr hs)

theorem filename_escaped (h : Segment str s) (hs : s.head? = some underscore) :
    filename str = unescape [] s := by
  obtain ⟨k, hk, hdrop⟩ := h.rfindSlash
  have hne : s.isEmpty = false := by
    cases s with
    | nil => cases hs
    | cons c rest => rfl
  rw [filename, hk]
  simp only [hdrop]
  exact if_neg (by simp [hne, hs])

theorem emptyName_segment (h : Segment str s) :
    EmptyName str ↔ s = [] ∨ (s.head? = some underscore ∧ ¬ WellEscaped s) := by
  refine ⟨fun hname => ?_, fun hs => ?_⟩
  · obtain hno | hempty | ⟨s', hs', hill⟩ := hname
    · exact absurd hno h.not_absent
    · exact .inl (h.unique hempty)
    · rw [h.unique hs']
      exact .inr hill
  · obtain rfl | hill := hs
    · exact .inr (.inl h)
    · exact .inr (.inr ⟨s, h, hill⟩)

/-- All reads are in range exactly if the last segment has no '_' at its front, or its first '_'
without two digits is not followed by bytes outside of the table. -/
theorem filename_in_range_iff (str : Bytes) :
    InRange str ↔ ∀ s, Segment str s → s.head? = some underscore → ¬ Outside s := by
  obtain hno | ⟨s, hs⟩ := segment_cases str
  · refine iff_of_true ⟨[], ?_, iff_of_true rfl (.inl hno), .inl (.inl hno)⟩
      (fun s hs => absurd hno hs.not_absent)
    rw [filename_ok, filename, rfindSlash_none hno]
  · have hall : (∀ s', Segment str s' → s'.head? = some underscore → ¬ Outside s') ↔
        (s.head? = some underscore → ¬ Outside s) :=
      ⟨fun h => h s hs, fun h s' hs' => hs.unique hs' ▸ h⟩
    rw [hall, InRange]
    by_cases hhead : s.head? = some underscore
    · have hne : s ≠ [] := by
        rintro rfl
        cases hhead
      simp only [filename_ok, filename_escaped hs hhead, emptyName_segment hs, hhead, hne, false_or,
        true_and, true_imp_iff]
      obtain ⟨d, hd, hwell, hin, hok⟩ | ⟨hill, hin, hok⟩ | ⟨hill, hout, hnone⟩ :=
        unescape_cases s []
      · refine iff_of_true ⟨d, hok, iff_of_false (hd.ne_nil hne) (fun h => h hwell), .inr ?_⟩ hin
        exact ⟨s, hs, .inr ⟨hhead, hd⟩⟩
      · exact iff_of_true ⟨[], hok, iff_of_true rfl hill, .inl hill⟩ hin
      · refine iff_of_false ?_ (fun h => h hout)
        rintro ⟨r, hr, -⟩
        rw [hnone] at hr
        cases hr
    · refine iff_of_true ⟨s, ?_, ?_, ?_⟩ (fun h => absurd h hhead)
      · rw [filename_ok, filename_raw hs hhead]
      · simp [emptyName_segment hs, hhead]
      · exact .inr ⟨s, hs, .inl ⟨hhead, rfl⟩⟩

/-- The byte 0x80 behind '_' is looked up at index 2^64 - 128. -/
theorem filename_outside :
    Message.Filename.filename [slash, underscore, 0x80, 48] = .error (.unhex (2 ^ 64 - 128)) ∧
    ¬ ∀ str, InRange str := by
  have herror : Message.Filename.filename [slash, underscore, 0x80, 48] =
      .error (.unhex (2 ^ 64 - 128)) := by
    have hescape := @unescapeFrom_escape [underscore, 0x80, 48] [] 0x80 48 0 [] rfl
    rw [unhexEntry_eq] at hescape
    exact hescape
  refine ⟨herror, fun h => ?_⟩
  obtain ⟨r, hr, -⟩ := h [slash, underscore, 0x80, 48]
  rw [herror] at hr
  cases hr

end Sdbusplus.Proofs.Filename
