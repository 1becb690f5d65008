import NextPath.Foundations.Strings

/-!
# Domain names

`normalizeDomain` turns a field of a list into a domain name or rejects it, and `stripPrefix` drops
a leading label such as `www` or `cdn3`. The conversion of international names (`idna.ToASCII`) is
a parameter; nothing is assumed of it, since its result is checked label by label.

* `Valid` is that check: every label is one `isValidLabel` accepts;
* `valid_normalizeDomain`: what `normalizeDomain` accepts is valid;
* `Valid.stripPrefix`: dropping a label keeps a name valid;
* `Valid.eq_hyphen_of_lt`: the hyphen is the only character of a valid name below the dot.
-/

namespace NextPath.Parser

open Strings

/-- The parts of the environment the parser rests on: the Unicode tables and `idna.ToASCII`. -/
structure Tables extends Unicode where
  toASCII : Bytes → Option Bytes

/-! ## Labels -/

/-- `isAlnumOrU`. -/
def isAlnumOrU (c : UInt8) : Bool :=
  (chr 'a' ≤ c && c ≤ chr 'z') || (chr 'A' ≤ c && c ≤ chr 'Z') || (chr '0' ≤ c && c ≤ chr '9') ||
    c == chr '_'

/-- `isValidLabel`. -/
def isValidLabel (label : Bytes) : Bool :=
  label.length ≠ 0 && label.length ≤ 63 &&
    label.head?.all isAlnumOrU && label.getLast?.all isAlnumOrU &&
    label.tail.dropLast.all fun c => isAlnumOrU c || c == chr '-'

/-- The characters of a label. -/
def isLabelByte (c : UInt8) : Bool := isAlnumOrU c || c == chr '-'

/-! ## Names -/

/-- `normalizeDomain`. The empty string is its way to reject. -/
def normalizeDomain (t : Tables) (d : Bytes) : Bytes :=
  let d := toLower t.toUnicode (trimSpace d)
  let d := trimPrefix d (str "*.")
  if containsAny d (str "[]~:/?#\\@!$&'()*+,;=") then []
  else
    let d := trim d (str ".")
    if !contains d (str ".") || 253 < d.length then []
    else
      match t.toASCII d with
      | none => []
      | some d => if (d.splitOn (chr '.')).all isValidLabel then d else []

/-- `isNumberedPrefix`. -/
def isNumberedPrefix (s base : Bytes) : Bool :=
  hasPrefix s base && (s.drop base.length).all fun c => chr '0' ≤ c && c ≤ chr '9'

/-- `isPureDigits`. -/
def isPureDigits (s : Bytes) : Bool := s ≠ [] && s.all fun c => chr '0' ≤ c && c ≤ chr '9'

/-- The leading labels that `stripPrefix` drops. -/
def isStripped (label : Bytes) : Bool :=
  isNumberedPrefix label (str "www") || isNumberedPrefix label (str "m") ||
    isNumberedPrefix label (str "hd") || isNumberedPrefix label (str "cdn") || isPureDigits label

/-- `stripPrefix`. -/
def stripPrefix (t : Tables) (d : Bytes) : Bytes :=
  if 2 ≤ d.count (chr '.') then
    let dLower := toLower t.toUnicode d
    match dLower.idxOf? (chr '.') with
    | some firstDot =>
      if 0 < firstDot ∧ isStripped (dLower.take firstDot) then d.drop (firstDot + 1) else d
    | none => d
  else d

/-! ## Valid names -/

/-- Every label is valid. -/
def Valid (d : Bytes) : Prop := ∀ l ∈ d.splitOn (chr '.'), isValidLabel l = true

instance (d : Bytes) : Decidable (Valid d) := inferInstanceAs (Decidable (∀ l ∈ _, _))

/-- **What `normalizeDomain` accepts is a valid name.** -/
theorem valid_normalizeDomain {t : Tables} {s : Bytes} (h : normalizeDomain t s ≠ []) :
    Valid (normalizeDomain t s) := by
  simp only [normalizeDomain] at h ⊢
  split_ifs at h ⊢ with h₁ h₂
  · exact absurd rfl h
  · exact absurd rfl h
  · cases he : t.toASCII (trim (trimPrefix (toLower t.toUnicode (trimSpace s)) (str "*."))
        (str ".")) with
    | none => simp [he] at h
    | some d =>
      simp only [he] at h ⊢
      split_ifs at h ⊢ with h₃
      · exact List.all_eq_true.1 h₃
      · exact absurd rfl h

theorem isLabelByte_of_mem {l : Bytes} (h : isValidLabel l = true) {c : UInt8} (hc : c ∈ l) :
    isLabelByte c = true := by
  simp only [isValidLabel, Bool.and_eq_true, List.all_eq_true] at h
  obtain ⟨⟨⟨-, hhead⟩, hlast⟩, hinner⟩ := h
  cases l with
  | nil => simp at hc
  | cons a l =>
    rcases List.mem_cons.1 hc with rfl | hc
    · have : isAlnumOrU c = true := by simpa using hhead
      simp [isLabelByte, this]
    · rcases List.eq_nil_or_concat l with rfl | ⟨l', b, rfl⟩
      · simp at hc
      · rw [List.concat_eq_append] at hc hlast hinner
        rcases List.mem_append.1 hc with hc | hc
        · exact hinner c (by simpa using hc)
        · have hb : isAlnumOrU b = true := by
            rw [← List.cons_append, List.getLast?_concat] at hlast
            simpa using hlast
          obtain rfl : c = b := by simpa using hc
          simp [isLabelByte, hb]

theorem eq_or_exists_mem_splitOn (a : UInt8) (s : Bytes) :
    ∀ c ∈ s, c = a ∨ ∃ l ∈ s.splitOn a, c ∈ l := by
  induction s with
  | nil => simp
  | cons x s ih =>
    intro c hc
    rw [List.splitOn_cons_eq_if_modifyHead]
    obtain ⟨hd, tl, hs⟩ := List.exists_cons_of_ne_nil (List.splitOn_ne_nil a s)
    rw [hs] at ih ⊢
    by_cases hx : x = a
    · rcases List.mem_cons.1 hc with rfl | hc
      · exact .inl hx
      · rcases ih c hc with h | ⟨l, hl, hcl⟩
        · exact .inl h
        · exact .inr ⟨l, by simp [hx, hl], hcl⟩
    · simp only [beq_eq_false_iff_ne.2 hx, Bool.false_eq_true, if_false, List.modifyHead_cons]
      rcases List.mem_cons.1 hc with rfl | hc
      · exact .inr ⟨c :: hd, List.mem_cons_self, List.mem_cons_self⟩
      · rcases ih c hc with h | ⟨l, hl, hcl⟩
        · exact .inl h
        · rcases List.mem_cons.1 hl with rfl | hl
          · exact .inr ⟨x :: l, List.mem_cons_self, List.mem_cons_of_mem x hcl⟩
          · exact .inr ⟨l, List.mem_cons_of_mem _ hl, hcl⟩

theorem Valid.eq_dot_or {d : Bytes} (h : Valid d) {c : UInt8} (hc : c ∈ d) :
    c = chr '.' ∨ isLabelByte c = true := by
  rcases eq_or_exists_mem_splitOn (chr '.') d c hc with hdot | ⟨l, hl, hcl⟩
  · exact .inl hdot
  · exact .inr (isLabelByte_of_mem (h l hl) hcl)

theorem isAlnumOrU_iff {c : UInt8} :
    isAlnumOrU c = true ↔ (97 ≤ c.toNat ∧ c.toNat ≤ 122) ∨ (65 ≤ c.toNat ∧ c.toNat ≤ 90) ∨
      (48 ≤ c.toNat ∧ c.toNat ≤ 57) ∨ c.toNat = 95 := by
  simp only [isAlnumOrU, Bool.or_eq_true, Bool.and_eq_true, decide_eq_true_eq, beq_iff_eq,
    UInt8.le_iff_toNat_le, ← UInt8.toNat_inj, or_assoc]
  rfl

theorem isLabelByte_toNat {c : UInt8} (h : isLabelByte c = true) :
    c = chr '-' ∨ (46 < c.toNat ∧ c.toNat < 128) := by
  simp only [isLabelByte, Bool.or_eq_true, beq_iff_eq, isAlnumOrU_iff] at h
  rcases h with h | rfl
  · exact .inr (by omega)
  · exact .inl rfl

/-- **The hyphen is the only character of a valid name that sorts before the dot.** -/
theorem Valid.eq_hyphen_of_lt {d : Bytes} (h : Valid d) {c : UInt8} (hc : c ∈ d)
    (hlt : c < chr '.') : c = chr '-' := by
  rcases h.eq_dot_or hc with rfl | hl
  · exact absurd hlt (lt_irrefl _)
  · rcases isLabelByte_toNat hl with h | ⟨h, -⟩
    · exact h
    · exact absurd (UInt8.lt_iff_toNat_lt.1 hlt) (not_lt.2 h.le)

theorem Valid.isASCII {d : Bytes} (h : Valid d) : isASCII d = true := by
  refine List.all_eq_true.2 fun c hc => decide_eq_true ?_
  rw [UInt8.lt_iff_toNat_lt]
  rcases h.eq_dot_or hc with rfl | hl
  · decide
  · rcases isLabelByte_toNat hl with rfl | ⟨-, h⟩
    · decide
    · exact h

theorem Valid.ne_nil {d : Bytes} (h : Valid d) : d ≠ [] := by
  rintro rfl
  exact absurd h (by decide)

theorem Valid.ne_dot {d : Bytes} (h : Valid d) : d ≠ str "." := by
  rintro rfl
  exact absurd h (by decide)

theorem head?_of_isValidLabel {l : Bytes} (h : isValidLabel l = true) :
    ∃ c, l.head? = some c ∧ isAlnumOrU c = true := by
  simp only [isValidLabel, Bool.and_eq_true] at h
  cases l with
  | nil => simp at h
  | cons c l => exact ⟨c, rfl, by simpa using h.1.1.2⟩

theorem getLast?_of_isValidLabel {l : Bytes} (h : isValidLabel l = true) :
    ∃ c, l.getLast? = some c ∧ isAlnumOrU c = true := by
  simp only [isValidLabel, Bool.and_eq_true] at h
  rcases List.eq_nil_or_concat l with rfl | ⟨l, c, rfl⟩
  · simp at h
  · exact ⟨c, by simp, by simpa using h.1.2⟩

/-- A valid name starts with a letter, a digit or an underscore. -/
theorem Valid.head? {d : Bytes} (h : Valid d) : ∃ c, d.head? = some c ∧ isAlnumOrU c = true := by
  by_cases hdot : chr '.' ∈ d
  · obtain ⟨l, s, rfl, hl⟩ := List.eq_append_cons_of_mem hdot
    have hmem : l ∈ (l ++ chr '.' :: s).splitOn (chr '.') := by
      rw [List.splitOn_append_cons_self, List.splitOn_eq_singleton hl]
      exact List.mem_append_left _ (List.mem_singleton.2 rfl)
    obtain ⟨c, hc, hal⟩ := head?_of_isValidLabel (h l hmem)
    exact ⟨c, by rw [List.head?_append, hc, Option.some_or], hal⟩
  · exact head?_of_isValidLabel (h d (by rw [List.splitOn_eq_singleton hdot]; simp))

/-- A valid name ends with a letter, a digit or an underscore. -/
theorem Valid.getLast? {d : Bytes} (h : Valid d) :
    ∃ c, d.getLast? = some c ∧ isAlnumOrU c = true := by
  by_cases hdot : chr '.' ∈ d
  · -- the last label is what precedes the first dot of the reversed name
    obtain ⟨l, s, hd, hl⟩ := List.eq_append_cons_of_mem (List.mem_reverse.2 hdot)
    obtain rfl : d = s.reverse ++ chr '.' :: l.reverse := by
      rw [← List.reverse_reverse d, hd]
      simp
    have hmem : l.reverse ∈ (s.reverse ++ chr '.' :: l.reverse).splitOn (chr '.') := by
      rw [List.splitOn_append_cons_self,
        List.splitOn_eq_singleton (show chr '.' ∉ l.reverse by rwa [List.mem_reverse])]
      exact List.mem_append_right _ (List.mem_singleton.2 rfl)
    obtain ⟨c, hc, hal⟩ := getLast?_of_isValidLabel (h _ hmem)
    obtain ⟨l', hl'⟩ := List.getLast?_eq_some_iff.1 hc
    exact ⟨c, List.getLast?_eq_some_iff.2 ⟨s.reverse ++ chr '.' :: l', by rw [hl']; simp⟩, hal⟩
  · exact getLast?_of_isValidLabel (h d (by rw [List.splitOn_eq_singleton hdot]; simp))

/-- What follows a dot of a valid name is valid. -/
theorem Valid.of_append {p d : Bytes} (h : Valid (p ++ chr '.' :: d)) : Valid d := fun l hl =>
  h l (by rw [List.splitOn_append_cons_self]; exact List.mem_append_right _ hl)

/-- `stripPrefix` drops nothing, or the first label and its dot. -/
theorem stripPrefix_eq_or {t : Tables} {d : Bytes} (h : Strings.isASCII d = true) :
    stripPrefix t d = d ∨ ∃ p, d = p ++ chr '.' :: stripPrefix t d := by
  by_cases hcount : 2 ≤ d.count (chr '.')
  · simp only [stripPrefix, if_pos hcount, toLower, h, if_true]
    cases hi : (d.map lowerByte).idxOf? (chr '.') with
    | none => exact .inl rfl
    | some i =>
      simp only
      split_ifs with hs
      · right
        -- lower case moves no dot
        obtain ⟨hlt, hget, -⟩ := List.idxOf?_eq_some_iff.1 hi
        rw [List.length_map] at hlt
        have hdot : d[i] = chr '.' := lowerByte_eq_dot.1 (by simpa using hget)
        refine ⟨d.take i, ?_⟩
        rw [← hdot, List.getElem_cons_drop, List.take_append_drop]
      · exact .inl rfl
  · exact .inl (by rw [stripPrefix, if_neg hcount])

/-- **A valid name stays valid when a leading label is stripped.** -/
theorem Valid.stripPrefix {t : Tables} {d : Bytes} (h : Valid d) : Valid (stripPrefix t d) := by
  rcases stripPrefix_eq_or (t := t) h.isASCII with he | ⟨p, he⟩
  · rw [he]
    exact h
  · exact Valid.of_append (p := p) (by rw [← he]; exact h)

end NextPath.Parser
