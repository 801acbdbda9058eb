import Sdbusplus.Message.ObjectPath

namespace Sdbusplus.Proofs.ObjectPath
open Message Message.ObjectPath

variable {p q s : Bytes} {ss : List Bytes} {c : UInt8}

/-- The characters of the elements of a D-Bus object path. -/
def Plain (c : UInt8) : Prop := isalnum c = true ∨ c = underscore

def ValidPath (p : Bytes) : Prop :=
  p = [slash] ∨ ∃ elements : List Bytes, elements ≠ [] ∧
    (∀ e ∈ elements, e ≠ [] ∧ ∀ c ∈ e, Plain c) ∧ p = elements.flatMap (slash :: ·)

theorem slash_not_plain : ¬ Plain slash := by
  intro h
  rcases h with h | h
  · exact absurd h (by decide)
  · exact absurd h (by decide)

theorem not_slash (h : ∀ c ∈ s, Plain c) : slash ∉ s := fun hs => slash_not_plain (h _ hs)

def highDigit (c : UInt8) : UInt8 := hex.getD (((promote c).sshiftRight 4) &&& 0xf#32).toNat 0

def lowDigit (c : UInt8) : UInt8 := hex.getD (promote c &&& 0xf#32).toNat 0

def escape (c : UInt8) : Bytes := [underscore, highDigit c, lowDigit c]

theorem pathAppendEscape_eq : pathAppendEscape s c = s ++ escape c := by
  simp [pathAppendEscape, escape, highDigit, lowDigit]

/-- What the digits of a byte are read back as. -/
def readDigits (hi lo : UInt8) : Option UInt8 :=
  match unhexAt hi, unhexAt lo with
  | some ch, some cl => if ch = -1 ∨ cl = -1 then none else some (byteOf ch cl)
  | _, _ => none

theorem digits_table : ∀ n < 256, isalnum (highDigit (UInt8.ofNat n)) = true ∧
    isalnum (lowDigit (UInt8.ofNat n)) = true ∧
    readDigits (highDigit (UInt8.ofNat n)) (lowDigit (UInt8.ofNat n)) =
      some (UInt8.ofNat n) := by
  decide +kernel

theorem digits (c : UInt8) : isalnum (highDigit c) = true ∧ isalnum (lowDigit c) = true ∧
    readDigits (highDigit c) (lowDigit c) = some c := by
  have h := digits_table c.toNat c.toNat_lt
  rwa [UInt8.ofNat_toNat] at h

theorem escape_plain : ∀ d ∈ escape c, Plain d := by
  obtain ⟨hhi, hlo, -⟩ := digits c
  intro d hd
  simp only [escape, List.mem_cons, List.not_mem_nil, or_false] at hd
  rcases hd with rfl | rfl | rfl
  · exact .inr rfl
  · exact .inl hhi
  · exact .inl hlo

theorem readDigits_some {hi lo b : UInt8} (h : readDigits hi lo = some b) : ∃ ch cl,
    unhexAt hi = some ch ∧ unhexAt lo = some cl ∧ ¬ (ch = -1 ∨ cl = -1) ∧ byteOf ch cl = b := by
  unfold readDigits at h
  split at h
  · rename_i ch cl hch hcl
    split at h
    · cases h
    · rename_i hne
      exact ⟨ch, cl, hch, hcl, hne, Option.some.inj h⟩
  · cases h

theorem unescape_escape {out rest : Bytes} :
    unescape out (escape c ++ rest) = unescape (out ++ [c]) rest := by
  obtain ⟨ch, cl, hch, hcl, hne, hbyte⟩ := readDigits_some (digits c).2.2
  rw [escape, List.cons_append, List.cons_append, List.cons_append, List.nil_append, unescape,
    if_neg (fun hne => hne rfl)]
  simp only [hch, hcl, if_neg hne, hbyte]

theorem unescape_plain {out rest : Bytes} (h : isalnum c = true) :
    unescape out (c :: rest) = unescape (out ++ [c]) rest := by
  have hne : c ≠ underscore := by
    intro heq
    rw [heq] at h
    exact absurd h (by decide)
  rw [unescape.eq_def]
  exact if_pos hne

/-- A character after the first one in the escaping mode. -/
def escapeRest (c : UInt8) : Bytes := if pathShouldEscape c then escape c else [c]

theorem escapeRest_plain : ∀ d ∈ escapeRest c, Plain d := by
  unfold escapeRest
  split
  · exact escape_plain
  · rename_i h
    intro d hd
    rw [List.mem_singleton.mp hd]
    exact .inl (by simpa [pathShouldEscape] using h)

theorem unescape_rest {out : Bytes} : unescape out (s.flatMap escapeRest) = some (out ++ s) := by
  induction s generalizing out with
  | nil => simp [unescape]
  | cons c s ih =>
    rw [List.flatMap_cons, escapeRest]
    split
    · rw [unescape_escape, ih, List.append_assoc]
      rfl
    · rename_i h
      rw [List.singleton_append, unescape_plain (by simpa [pathShouldEscape] using h), ih,
        List.append_assoc]
      rfl

/-- A segment that operator/= takes over as it is. -/
def verbatim (first : UInt8) (rest : Bytes) : Bool :=
  !pathShouldEscape first && rest.all (fun c => !pathRequiresEscape c)

def encodeSegment : Bytes → Bytes
  | [] => []
  | first :: rest =>
    if verbatim first rest then first :: rest else escape first ++ rest.flatMap escapeRest

theorem encodeSegment_cons {first : UInt8} {rest : Bytes} :
    encodeSegment (first :: rest) =
      if verbatim first rest then first :: rest else escape first ++ rest.flatMap escapeRest :=
  rfl

theorem appendAssign_eq (hs : s ≠ []) :
    appendAssign p s = .ok (separate p ++ encodeSegment s) := by
  cases s with
  | nil => exact absurd rfl hs
  | cons first rest =>
    have hloop : ∀ str : Bytes, rest.foldl (fun str c =>
        if pathShouldEscape c then pathAppendEscape str c else str ++ [c]) str =
        str ++ rest.flatMap escapeRest := by
      induction rest with
      | nil => simp
      | cons c rest ih =>
        intro str
        rw [List.foldl_cons, ih (List.cons_ne_nil _ _), List.flatMap_cons, escapeRest,
          pathAppendEscape_eq, ← List.append_assoc]
        split <;> rfl
    unfold appendAssign encodeSegment
    dsimp only
    rw [hloop, pathAppendEscape_eq, List.append_assoc]
    change (if verbatim first rest then _ else _) = _
    split <;> rfl

theorem verbatim_plain {first : UInt8} {rest : Bytes} (h : verbatim first rest = true) :
    isalnum first = true ∧ ∀ c ∈ rest, Plain c := by
  simp only [verbatim, Bool.and_eq_true, List.all_eq_true] at h
  refine ⟨by simpa [pathShouldEscape] using h.1, fun c hc => ?_⟩
  have hreq := h.2 c hc
  simp only [pathRequiresEscape, pathShouldEscape] at hreq
  by_cases hu : c = underscore
  · exact .inr hu
  · exact .inl (by simpa [hu] using hreq)

theorem encodeSegment_plain : ∀ c ∈ encodeSegment s, Plain c := by
  cases s with
  | nil => simp [encodeSegment]
  | cons first rest =>
    rw [encodeSegment_cons]
    split
    · rename_i hv
      obtain ⟨hfirst, hrest⟩ := verbatim_plain hv
      intro c hc
      rcases List.mem_cons.mp hc with rfl | hc
      · exact .inl hfirst
      · exact hrest c hc
    · intro c hc
      rcases List.mem_append.mp hc with hc | hc
      · exact escape_plain c hc
      · obtain ⟨d, _, hd⟩ := List.mem_flatMap.mp hc
        exact escapeRest_plain c hd

theorem encodeSegment_ne_nil (hs : s ≠ []) : encodeSegment s ≠ [] := by
  cases s with
  | nil => exact absurd rfl hs
  | cons first rest =>
    rw [encodeSegment_cons]
    split
    · exact List.cons_ne_nil _ _
    · simp [escape]

theorem rfindSlash_none (h : slash ∉ s) : rfindSlash s = none := by
  induction s with
  | nil => rfl
  | cons c s ih =>
    rw [List.mem_cons, not_or] at h
    rw [rfindSlash, ih h.2]
    exact if_neg (Ne.symm h.1)

theorem rfindSlash_append (h : slash ∉ s) : rfindSlash (p ++ slash :: s) = some p.length := by
  induction p with
  | nil =>
    rw [List.nil_append, rfindSlash, rfindSlash_none h]
    rfl
  | cons c p ih =>
    rw [List.cons_append, rfindSlash, ih]
    rfl

/-- The mode in which a segment was written is told by its first character. -/
theorem filename_append (hs : s ≠ []) : filename (p ++ slash :: encodeSegment s) = some s := by
  have hdrop : (p ++ slash :: encodeSegment s).drop (p.length + 1) = encodeSegment s := by
    rw [← List.drop_drop, List.drop_left]
    rfl
  rw [filename, rfindSlash_append (not_slash encodeSegment_plain)]
  dsimp only
  rw [hdrop]
  cases s with
  | nil => exact absurd rfl hs
  | cons first rest =>
    rw [encodeSegment_cons]
    split
    · rename_i hv
      refine if_pos (.inr fun hhead => ?_)
      have hfirst := (verbatim_plain hv).1
      rw [Option.some.inj hhead] at hfirst
      exact absurd hfirst (by decide)
    · rw [if_neg (by simp [escape]), unescape_escape, unescape_rest]
      rfl

theorem separate_root : separate [slash] = [] ++ [slash] := by decide

theorem ValidPath.last (hp : ValidPath p) : p = [slash] ∨ 2 ≤ p.length ∧
    separate p = p ++ [slash] := by
  rcases hp with hroot | ⟨elements, hne, hplain, rfl⟩
  · exact .inl hroot
  · right
    rcases List.eq_nil_or_concat elements with rfl | ⟨front, e, rfl⟩
    · exact absurd rfl hne
    obtain ⟨hnonempty, hchars⟩ := hplain e (by simp)
    rcases List.eq_nil_or_concat e with rfl | ⟨e', c, rfl⟩
    · exact absurd rfl hnonempty
    have hc : c ≠ slash := by
      intro heq
      exact slash_not_plain (heq ▸ hchars c (by simp))
    have hshape : (front.concat (e'.concat c)).flatMap (slash :: ·) =
        (front.flatMap (slash :: ·) ++ slash :: e') ++ [c] := by
      simp
    rw [hshape]
    constructor
    case left =>
      simp only [List.length_append, List.length_cons, List.length_nil]
      omega
    case right =>
      refine if_pos ?_
      rw [List.getLast?_concat]
      simp [hc]

theorem ValidPath.snoc (hp : ValidPath p) (hs : s ≠ []) :
    ValidPath (separate p ++ encodeSegment s) := by
  right
  have hseg : encodeSegment s ≠ [] ∧ ∀ c ∈ encodeSegment s, Plain c :=
    ⟨encodeSegment_ne_nil hs, encodeSegment_plain⟩
  rcases hp.last with hroot | ⟨hlen, hsep⟩
  · refine ⟨[encodeSegment s], by simp, fun e he => ?_, ?_⟩
    · rw [List.mem_singleton.mp he]
      exact hseg
    · rw [hroot, separate_root]
      simp
  · rcases hp with hroot | ⟨elements, hne, hplain, hshape⟩
    · rw [hroot, List.length_singleton] at hlen
      omega
    · refine ⟨elements ++ [encodeSegment s], by simp, fun e he => ?_, ?_⟩
      · rcases List.mem_append.mp he with he | he
        · exact hplain e he
        · rw [List.mem_singleton.mp he]
          exact hseg
      · rw [hsep, hshape]
        simp

/-- One step of the composition and how it is undone. -/
theorem appendAssign_valid (hp : ValidPath p) (hs : s ≠ []) :
    ∃ q, appendAssign p s = .ok q ∧ ValidPath q ∧ filename q = some s ∧ parentPath q = p := by
  refine ⟨_, appendAssign_eq hs, hp.snoc hs, ?_⟩
  rcases hp.last with hroot | ⟨hlen, hsep⟩
  · rw [hroot, separate_root, List.append_assoc, List.singleton_append]
    refine ⟨filename_append hs, ?_⟩
    rw [parentPath, rfindSlash_append (not_slash encodeSegment_plain)]
    rfl
  · rw [hsep, List.append_assoc, List.singleton_append]
    refine ⟨filename_append hs, ?_⟩
    rw [parentPath, rfindSlash_append (not_slash encodeSegment_plain)]
    dsimp only
    rw [if_neg (by omega), List.take_left]

theorem objectPath_concat :
    objectPath p (ss ++ [s]) = (objectPath p ss).bind (fun r => appendAssign r s) := by
  rw [objectPath, List.foldlM_append]
  simp only [List.foldlM_cons, List.foldlM_nil, bind_pure]
  rfl

theorem objectPath_valid (hp : ValidPath p) (hss : ∀ t ∈ ss, t ≠ []) :
    ∃ q, objectPath p ss = .ok q ∧ ValidPath q := by
  induction ss generalizing p with
  | nil => exact ⟨p, rfl, hp⟩
  | cons s ss ih =>
    obtain ⟨r, hr, hvalid, -⟩ := appendAssign_valid hp (hss s List.mem_cons_self)
    obtain ⟨q, hq, hqv⟩ := ih hvalid (fun t ht => hss t (List.mem_cons_of_mem _ ht))
    refine ⟨q, ?_, hqv⟩
    rw [objectPath, List.foldlM_cons, hr]
    exact hq

/-- So many calls of filename() and parent_path() in turn: the names and what is left. -/
def recover : Nat → Bytes → Option (List Bytes × Bytes)
  | 0, q => some ([], q)
  | n + 1, q =>
    (filename q).bind (fun name => (recover n (parentPath q)).map (fun r => (name :: r.1, r.2)))

theorem objectPath_last {front : List Bytes} (hp : ValidPath p) (hss : ∀ t ∈ front ++ [s], t ≠ [])
    (hq : objectPath p (front ++ [s]) = .ok q) :
    ∃ r, objectPath p front = .ok r ∧ filename q = some s ∧ parentPath q = r := by
  have hfront : ∀ t ∈ front, t ≠ [] := fun t ht => hss t (List.mem_append_left _ ht)
  obtain ⟨r, hr, hvalid⟩ := objectPath_valid hp hfront
  obtain ⟨q', hq', _, hname, hparent⟩ := appendAssign_valid hvalid (hss s (by simp))
  rw [objectPath_concat, hr] at hq
  cases hq'.symm.trans hq
  exact ⟨r, hr, hname, hparent⟩

theorem recover_objectPath (hp : ValidPath p) (hss : ∀ t ∈ ss, t ≠ [])
    (hq : objectPath p ss = .ok q) : recover ss.length q = some (ss.reverse, p) := by
  induction hn : ss.length generalizing ss q with
  | zero =>
    rw [List.length_eq_zero_iff.mp hn] at hq ⊢
    cases hq
    rfl
  | succ n ih =>
    rcases List.eq_nil_or_concat ss with rfl | ⟨front, s, rfl⟩
    · cases hn
    rw [List.concat_eq_append] at hss hq hn ⊢
    obtain ⟨r, hr, hname, hparent⟩ := objectPath_last hp hss hq
    have hfront : ∀ t ∈ front, t ≠ [] := fun t ht => hss t (List.mem_append_left _ ht)
    rw [recover, hname, Option.bind_some, hparent, ih hfront hr (by simpa using hn)]
    simp

/-- Composing a path of segments loses nothing: filename() and parent_path() take the
last segment off again, and so all of them, and no two compositions of the same
number of segments give one path. -/
theorem composition_reversible (hp : ValidPath p) (hss : ∀ t ∈ ss, t ≠ []) :
    ∃ q, objectPath p ss = .ok q ∧ ss.foldlM append p = .ok q ∧
      (∀ front s, ss = front ++ [s] →
        ∃ r, objectPath p front = .ok r ∧ filename q = some s ∧ parentPath q = r) ∧
      recover ss.length q = some (ss.reverse, p) ∧
      ∀ p' ss', ValidPath p' → (∀ t ∈ ss', t ≠ []) → ss'.length = ss.length →
        objectPath p' ss' = .ok q → p' = p ∧ ss' = ss := by
  obtain ⟨q, hq, -⟩ := objectPath_valid hp hss
  have hrec := recover_objectPath hp hss hq
  refine ⟨q, hq, hq, ?_, hrec, ?_⟩
  · rintro front s rfl
    exact objectPath_last hp hss hq
  · intro p' ss' hp' hss' hlen hq'
    have hrec' := recover_objectPath hp' hss' hq'
    rw [hlen, hrec] at hrec'
    obtain ⟨hrev, hbase⟩ := Prod.mk.inj (Option.some.inj hrec')
    exact ⟨hbase.symm, List.reverse_inj.mp hrev.symm⟩

/-- "/a" with the segments "_b", "x-y", a NUL and the byte 0xff. -/
theorem composition_reversible_segments :
    ∃ q, objectPath [slash, 97] [[95, 98], [120, 45, 121], [0], [255]] = .ok q ∧
      recover 4 q = some ([[255], [0], [120, 45, 121], [95, 98]], [slash, 97]) := by
  have hp : ValidPath [slash, 97] := .inr ⟨[[97]], by simp, by simp [Plain, isalnum], rfl⟩
  have hss : ∀ t ∈ ([[95, 98], [120, 45, 121], [0], [255]] : List Bytes), t ≠ [] := by simp
  obtain ⟨q, hq, _, _, hrec, _⟩ := composition_reversible hp hss
  exact ⟨q, hq, hrec⟩

/-- The elements of a path, what stands between the slashes. -/
def elements (p : Bytes) : List Bytes := (p.splitOn slash).filter (fun e => !e.isEmpty)

theorem elements_append {e : Bytes} : elements (p ++ slash :: e) = elements p ++ elements e := by
  simp [elements, List.splitOn_append_cons_self]

theorem elements_element {e : Bytes} (hne : e ≠ []) (h : slash ∉ e) : elements e = [e] := by
  simp [elements, List.splitOn_eq_singleton h, hne]

theorem elements_snoc {e : Bytes} (hne : e ≠ []) (h : ∀ c ∈ e, Plain c) :
    (elements (p ++ slash :: e)).length = (elements p).length + 1 := by
  rw [elements_append, elements_element hne (not_slash h), List.length_append,
    List.length_singleton]

/-- A valid path is the root or has a last element behind what is left of it. -/
inductive Ends : Bytes → Prop
  | root : Ends [slash]
  | first (e : Bytes) (nonempty : e ≠ []) (plain : ∀ c ∈ e, Plain c) : Ends (slash :: e)
  | last (q e : Bytes) (valid : ValidPath q) (long : 2 ≤ q.length) (one : 1 ≤ (elements q).length)
      (nonempty : e ≠ []) (plain : ∀ c ∈ e, Plain c) : Ends (q ++ slash :: e)

theorem ValidPath.ends (hp : ValidPath p) : Ends p := by
  rcases hp with rfl | ⟨es, hne, hplain, rfl⟩
  · exact .root
  rcases List.eq_nil_or_concat es with rfl | ⟨front, e, rfl⟩
  · exact absurd rfl hne
  rw [List.concat_eq_append] at hplain ⊢
  obtain ⟨hnonempty, hchars⟩ := hplain e (by simp)
  rw [List.flatMap_append, List.flatMap_singleton]
  rcases List.eq_nil_or_concat front with rfl | ⟨front, d, rfl⟩
  · exact .first e hnonempty hchars
  · have hfront : ∀ e ∈ front.concat d, e ≠ [] ∧ ∀ c ∈ e, Plain c :=
      fun e he => hplain e (List.mem_append_left _ he)
    obtain ⟨hd, hdchars⟩ := hfront d (by simp)
    have hlong : 1 ≤ d.length := List.length_pos_iff.mpr hd
    have hshape : (front.concat d).flatMap (slash :: ·) =
        front.flatMap (slash :: ·) ++ slash :: d := by simp
    refine .last _ e (.inr ⟨front.concat d, by simp, hfront, rfl⟩) ?_ ?_ hnonempty hchars
    · rw [hshape, List.length_append, List.length_cons]
      omega
    · rw [hshape, elements_snoc hd hdchars]
      omega

theorem separate_elements (hp : ValidPath p) : ∃ q, separate p = q ++ [slash] ∧
    elements q = elements p := by
  rcases hp.last with rfl | ⟨-, hsep⟩
  · exact ⟨[], rfl, by decide⟩
  · exact ⟨p, hsep, rfl⟩

/-- operator/= makes a valid path with one more element of a valid path. -/
theorem appendAssign_elements (hp : ValidPath p) (hs : s ≠ []) (hq : appendAssign p s = .ok q) :
    ValidPath q ∧ (elements q).length = (elements p).length + 1 := by
  cases (appendAssign_eq hs).symm.trans hq
  refine ⟨hp.snoc hs, ?_⟩
  obtain ⟨r, hr, hcount⟩ := separate_elements hp
  rw [hr, List.append_assoc, List.singleton_append,
    elements_snoc (encodeSegment_ne_nil hs) encodeSegment_plain, hcount]

theorem parentPath_elements (hp : ValidPath p) :
    ValidPath (parentPath p) ∧ ((elements p).length ≤ 1 → parentPath p = [slash]) ∧
      (1 < (elements p).length → (elements (parentPath p)).length + 1 = (elements p).length) := by
  cases hp.ends with
  | root => exact ⟨.inl rfl, fun _ => rfl, fun h => absurd h (by decide)⟩
  | first e nonempty plain =>
    have hparent : parentPath (slash :: e) = [slash] := by
      rw [parentPath, ← List.nil_append (slash :: e), rfindSlash_append (not_slash plain)]
      rfl
    have hcount : (elements (slash :: e)).length = 1 := elements_snoc (p := []) nonempty plain
    rw [hparent]
    exact ⟨.inl rfl, fun _ => rfl, fun h => by omega⟩
  | last q e valid long one nonempty plain =>
    have hparent : parentPath (q ++ slash :: e) = q := by
      rw [parentPath, rfindSlash_append (not_slash plain)]
      dsimp only
      rw [if_neg (by omega), List.take_left]
    have hcount := elements_snoc (p := q) nonempty plain
    rw [hparent]
    exact ⟨valid, fun h => by omega, fun _ => hcount.symm⟩

theorem escapeLoop_run (rest str : Bytes) :
    ExceptT.run (m := StateM Bytes) (ε := String) (do
      for c in rest do
        if pathShouldEscape c then modify (fun str => pathAppendEscape str c)
        else modify (fun str => str ++ [c])) str =
    (.ok (), rest.foldl (fun str c => if pathShouldEscape c then pathAppendEscape str c
        else str ++ [c]) str) := by
  induction rest generalizing str with
  | nil => rfl
  | cons c rest ih =>
    rw [List.foldl_cons, ← ih]
    by_cases hc : pathShouldEscape c = true
    · simp only [List.forIn_cons, hc]
      rfl
    · simp only [List.forIn_cons, hc]
      rfl

theorem assignAppend_eq : (assignAppend s).run.run p =
    match appendAssign p s with
    | .ok q => (.ok (), q)
    | .error e => (.error e, p) := by
  cases s with
  | nil => rfl
  | cons first rest =>
    unfold assignAppend appendAssign
    dsimp only
    by_cases hv : (!pathShouldEscape first && rest.all (fun c => !pathRequiresEscape c)) = true
    · rw [if_pos hv, if_pos hv]
      rfl
    · rw [if_neg hv, if_neg hv]
      exact escapeLoop_run rest (pathAppendEscape (separate p) first)

/-- The operations on paths stay inside the grammar of D-Bus, and count elements as they
should; an empty segment is refused before the path is touched. -/
theorem path_operations_valid (hp : ValidPath p) :
    (∀ s, s ≠ [] → ∃ q, (assignAppend s).run.run p = (.ok (), q) ∧ append p s = .ok q ∧
      ValidPath q ∧ (elements q).length = (elements p).length + 1) ∧
    (ValidPath (parentPath p) ∧ ((elements p).length ≤ 1 → parentPath p = [slash]) ∧
      (1 < (elements p).length →
        (elements (parentPath p)).length + 1 = (elements p).length)) ∧
    ∃ e, (assignAppend []).run.run p = (.error e, p) := by
  refine ⟨fun s hs => ?_, parentPath_elements hp, ?_⟩
  · have hq := appendAssign_eq (p := p) hs
    refine ⟨_, ?_, hq, appendAssign_elements hp hs hq⟩
    rw [assignAppend_eq, hq]
  · exact ⟨_, assignAppend_eq⟩

/-- The path "/a/b", a segment of one byte that must be escaped, and the empty one. -/
theorem path_operations_valid_two :
    (∃ q, append [slash, 97, slash, 98] [255] = .ok q ∧ ValidPath q ∧
      (elements q).length = 3) ∧
    (elements (parentPath [slash, 97, slash, 98])).length = 1 ∧
    ∃ e, (assignAppend []).run.run [slash, 97, slash, 98] = (.error e, [slash, 97, slash, 98]) := by
  have hp : ValidPath [slash, 97, slash, 98] :=
    .inr ⟨[[97], [98]], by simp, by simp [Plain, isalnum], rfl⟩
  have hcount : (elements [slash, 97, slash, 98]).length = 2 := by decide
  obtain ⟨happend, ⟨-, -, hparent⟩, hempty⟩ := path_operations_valid hp
  rw [hcount] at happend hparent
  obtain ⟨q, -, hq, hvalid, hlen⟩ := happend [255] (by simp)
  exact ⟨⟨q, hq, hvalid, hlen⟩, Nat.succ.inj (hparent (by simp)), hempty⟩

end Sdbusplus.Proofs.ObjectPath
