import NextPath.Parser.Cosmetic

/-!
# Reading a list back

A list of names that `normalizeDomain` leaves as they are, written one name per line, should be read
as those names. A list for an ad blocker is. A list of domains is not quite: before a line is split
into fields, punctuation is trimmed from its ends, and the underscore, which a label may start or
end with, counts as punctuation.

* `flatMap_scanLines_fileOf`: the lines of the file are the names;
* `rules_validateLine_adblock`, `rules_validateLine_domains_iff`: what is read in a line that holds
  a name;
* `readBack_iff`: the list is read back if and only if, as a list of domains, no name of it starts
  or ends with an underscore.
-/

namespace NextPath.Parser

open Strings Net

/-! ## Lines -/

/-- What ends a line. -/
def eol (crlf : Bool) : Bytes := if crlf then str "\r\n" else str "\n"

/-- A file with one name per line. The last line may lack its end. -/
def fileOf (crlf final : Bool) : List Bytes → Bytes
  | [] => []
  | [n] => if final then n ++ eol crlf else n
  | n :: m :: names => n ++ eol crlf ++ fileOf crlf final (m :: names)

section ScanLines

variable {maxTokenSize : ℕ} {n : Bytes}

theorem scanLines_append (hn : chr '\n' ∉ n) (hlen : n.length < maxTokenSize) (rest : Bytes) :
    scanLines maxTokenSize (n ++ chr '\n' :: rest) =
      (if n.getLast? = some (chr '\r') then n.dropLast else n) :: scanLines maxTokenSize rest := by
  obtain ⟨l, ls, hrest⟩ := List.exists_cons_of_ne_nil (List.splitOn_ne_nil (chr '\n') rest)
  simp only [scanLines]
  rw [List.splitOn_append_cons_self, List.splitOn_eq_singleton hn, List.singleton_append, hrest,
    List.getLast?_cons_cons]
  by_cases hlast : (l :: ls).getLast? = some []
  · simp [hlast, hlen]
  · simp [hlast, hlen]

theorem scanLines_eol (hn : chr '\n' ∉ n) (hr : chr '\r' ∉ n) (hlen : n.length + 1 < maxTokenSize)
    (crlf : Bool) (rest : Bytes) :
    scanLines maxTokenSize (n ++ eol crlf ++ rest) = n :: scanLines maxTokenSize rest := by
  cases crlf with
  | false =>
    have heq : n ++ eol false ++ rest = n ++ chr '\n' :: rest := by simp [eol, str, chr]
    have hlast : n.getLast? ≠ some (chr '\r') := fun h => hr (List.mem_of_getLast? h)
    rw [heq, scanLines_append hn (by omega), if_neg hlast]
  | true =>
    have heq : n ++ eol true ++ rest = (n ++ [chr '\r']) ++ chr '\n' :: rest := by
      simp [eol, str, chr]
    have hn' : chr '\n' ∉ n ++ [chr '\r'] := by
      rw [List.mem_append, List.mem_singleton]
      exact fun h => h.elim hn (by decide)
    rw [heq, scanLines_append hn' (by simpa using hlen)]
    simp

theorem scanLines_last (hn : chr '\n' ∉ n) (hr : chr '\r' ∉ n) (hlen : n.length < maxTokenSize)
    (hne : n ≠ []) : scanLines maxTokenSize n = [n] := by
  have hlast : n.getLast? ≠ some (chr '\r') := fun h => hr (List.mem_of_getLast? h)
  simp only [scanLines]
  rw [List.splitOn_eq_singleton hn, List.getLast?_singleton, if_neg (by simpa using hne)]
  simp [hlen, hlast]

/-- **The lines of the file are the names**, an empty one apart that has no end. -/
theorem flatMap_scanLines_fileOf {β : Type} {f : Bytes → List β} (hf : f [] = [])
    (crlf final : Bool) {names : List Bytes}
    (h : ∀ n ∈ names, chr '\n' ∉ n ∧ chr '\r' ∉ n ∧ n.length + 1 < maxTokenSize) :
    (scanLines maxTokenSize (fileOf crlf final names)).flatMap f = names.flatMap f := by
  induction names with
  | nil => rfl
  | cons n names ih =>
    obtain ⟨hn, hr, hlen⟩ := h n List.mem_cons_self
    cases names with
    | nil =>
      cases final with
      | true =>
        have hlines := scanLines_eol hn hr hlen crlf []
        rw [List.append_nil] at hlines
        rw [fileOf, if_pos rfl, hlines]
        rfl
      | false =>
        rw [fileOf, if_neg Bool.false_ne_true]
        by_cases hne : n = []
        · subst hne
          rw [List.flatMap_singleton, hf]
          rfl
        · rw [scanLines_last hn hr (by omega) hne]
    | cons m names =>
      rw [fileOf, scanLines_eol hn hr hlen, List.flatMap_cons, List.flatMap_cons,
        ih fun x hx => h x (List.mem_cons_of_mem n hx)]

end ScanLines

/-! ## Names -/

theorem Valid.toNat_mem {n : Bytes} (h : Valid n) {c : UInt8} (hc : c ∈ n) :
    32 < c.toNat ∧ c.toNat < 128 := by
  rcases h.eq_dot_or hc with rfl | hl
  · decide
  · rcases isLabelByte_toNat hl with rfl | ⟨hlt, hlt'⟩
    · decide
    · exact ⟨by omega, hlt'⟩

theorem Valid.solid {n : Bytes} (h : Valid n) : Solid n := solid_of_forall fun _ => h.toNat_mem

theorem Valid.notMem {n : Bytes} (h : Valid n) {c : UInt8}
    (hc : ¬ (c = chr '.' ∨ isLabelByte c = true)) : c ∉ n := fun hmem => hc (h.eq_dot_or hmem)

theorem uncommented_of_valid {n : Bytes} (h : Valid n) : uncommented n = n := by
  have hhash : chr '#' ∉ n := h.notMem (by decide)
  have hsemi : chr ';' ∉ n := h.notMem (by decide)
  have hhead {c : UInt8} (hc : c ∉ n) : n.head? ≠ some c := fun he => hc (List.mem_of_head? he)
  simp only [uncommented, h.solid.trimSpace]
  rw [if_neg fun ho => ho.elim (hhead hhash) (hhead hsemi),
    not_contains_of_notMem (show chr '#' ∈ str "#" from List.mem_cons_self) hhash]
  rfl

/-- A name does not start with a text that has another character than a name. -/
theorem not_hasPrefix_of_valid {n : Bytes} (h : Valid n) (p : Bytes) {c : UInt8} (hc : c ∈ p)
    (hbad : ¬ (c = chr '.' ∨ isLabelByte c = true)) : hasPrefix n p = false :=
  not_hasPrefix_of_notMem hc (h.notMem hbad)

/-- A name has none of the marks of a filter. -/
theorem no_mark_of_valid {n : Bytes} (h : Valid n) :
    hasPrefix n (str "@@||") = false ∧ hasPrefix n (str "||") = false ∧
      hasPrefix n (str "@@") = false :=
  ⟨not_hasPrefix_of_valid h _ List.mem_cons_self (by decide),
    not_hasPrefix_of_valid h _ List.mem_cons_self (by decide),
    not_hasPrefix_of_valid h _ List.mem_cons_self (by decide)⟩

theorem unmarked_of_valid {n : Bytes} (h : Valid n) : unmarked n = n := by
  obtain ⟨hexception, hblock, hat⟩ := no_mark_of_valid h
  rw [unmarked, hexception, hblock, hat]
  rfl

theorem exceptionFlag_of_valid {n : Bytes} (h : Valid n) (forceException : Bool) :
    exceptionFlag n forceException = forceException := by
  obtain ⟨hexception, hblock, hat⟩ := no_mark_of_valid h
  rw [exceptionFlag, hexception, hblock, hat]
  rfl

theorem nameIn_of_valid {n : Bytes} (h : Valid n) : nameIn n = n := by
  rw [nameIn, not_hasPrefix_of_valid h (str "*.") List.mem_cons_self (by decide),
    if_neg Bool.false_ne_true, before_eq_self, h.solid.trimSpace]
  intro c hc hmem
  have hbad : ∀ c ∈ str "^$*", ¬ (c = chr '.' ∨ isLabelByte c = true) := by decide +kernel
  exact h.notMem (hbad c hmem) hc

/-- **A name in a list for an ad blocker** is read as it is. -/
theorem rules_validateLine_adblock {t : Tables} {n : Bytes} (h : Valid n)
    (hfix : normalizeDomain t n = n) (isExcludeFile : Bool) :
    (validateLine t ⟨false, isExcludeFile, false, false⟩ n).rules = [⟨n, isExcludeFile⟩] := by
  have hslash : contains n (str "/") = false :=
    not_contains_of_notMem (show chr '/' ∈ str "/" from List.mem_cons_self) (h.notMem (by decide))
  have hparse : parseAdblockLine t n isExcludeFile = some ⟨n, isExcludeFile⟩ := by
    rw [parseAdblockLine_eq t h.solid.trimSpace (h.notMem (by decide)), unmarked_of_valid h,
      nameIn_of_valid h, hfix, if_neg h.ne_nil, exceptionFlag_of_valid h, hslash]
    rfl
  simp only [validateLine, uncommented_of_valid h, if_neg h.ne_nil, Bool.false_eq_true, if_false,
    not_hasPrefix_of_valid h (str "!") List.mem_cons_self (by decide),
    not_hasPrefix_of_valid h (str "[") List.mem_cons_self (by decide), Bool.or_false, hparse]
  rfl

/-! ## Lists of domains -/

/-- The characters that are trimmed from a line of domains. -/
def punctuation : Bytes := str "!\"#$%&'()+,-/:;<=>?@[\\]^_`\x7b|\x7d~"

/-- What `normalizeDomain` passes to `idna.ToASCII`. -/
def idnaInput (t : Tables) (d : Bytes) : Bytes :=
  trim (trimPrefix (toLower t.toUnicode (trimSpace d)) (str "*.")) (str ".")

theorem normalizeDomain_eq_or {t : Tables} {d : Bytes}
    (h : t.toASCII (idnaInput t d) = some (idnaInput t d)) :
    normalizeDomain t d = [] ∨ normalizeDomain t d = idnaInput t d := by
  simp only [normalizeDomain, ← idnaInput.eq_1]
  split_ifs with h₁ h₂
  · exact .inl rfl
  · exact .inl rfl
  · rw [h]
    dsimp only
    split_ifs
    · exact .inr rfl
    · exact .inl rfl

theorem length_idnaInput_le (t : Tables) {d : Bytes} (hsolid : Solid d)
    (hascii : isASCII d = true) : (idnaInput t d).length ≤ d.length := by
  rw [idnaInput, hsolid.trimSpace, toLower, if_pos hascii]
  refine (trim_isInfix _ _).length_le.trans ((trimPrefix_isSuffix _ _).length_le.trans ?_)
  rw [List.length_map]

/-- A name of one field is read as one rule at most. -/
theorem length_rules_validateField_le (t : Tables) (k : Kind) (field : Bytes) :
    (validateField t k field).rules.length ≤ 1 := by
  simp only [validateField]
  split_ifs
  · exact Nat.zero_le _
  · exact Nat.zero_le _
  · rw [Loaded.rule]
    split_ifs <;> simp

section Domains

variable {t : Tables} {n : Bytes} (isExcludeFile : Bool)

/-- What is read in a line of domains that holds one name. -/
theorem rules_validateLine_domains (h : Valid n) :
    (validateLine t ⟨false, isExcludeFile, false, true⟩ n).rules =
      (fields (trim n punctuation)).flatMap fun field =>
        (validateField t ⟨false, isExcludeFile, false, true⟩ field).rules := by
  simp only [validateLine, uncommented_of_valid h, if_neg h.ne_nil, Bool.false_eq_true, if_false,
    if_true, Loaded.rules_concat, List.flatMap_map]
  rfl

theorem fields_trim (h : Valid n) :
    fields (trim n punctuation) = [trim n punctuation].filter (· ≠ []) := by
  have hsolid := h.solid.of_isInfix (trim_isInfix n punctuation)
  by_cases hnil : trim n punctuation = []
  · rw [hnil]
    rfl
  · rw [hsolid.fields hnil]
    simp [hnil]

/-- The trim leaves a valid name alone if and only if it has no underscore at an end. -/
theorem trim_punctuation_iff (h : Valid n) :
    trim n punctuation = n ↔ n.head? ≠ some (chr '_') ∧ n.getLast? ≠ some (chr '_') := by
  have hends : ∀ c ∈ punctuation, isAlnumOrU c = true → c = chr '_' := by decide +kernel
  obtain ⟨a, ha, hal⟩ := h.head?
  obtain ⟨b, hb, hbl⟩ := h.getLast?
  rw [trim_eq_self_iff, ha, hb]
  simp only [Option.some.injEq, forall_eq', ne_eq]
  refine and_congr (not_congr ⟨fun hmem => hends a hmem hal, ?_⟩)
    (not_congr ⟨fun hmem => hends b hmem hbl, ?_⟩)
  · rintro rfl
    decide
  · rintro rfl
    decide

/-- **A name in a list of domains** is read as it is if and only if it has no underscore at an
end: another name is shorter. -/
theorem rules_validateLine_domains_iff (h : Valid n) (hfix : normalizeDomain t n = n)
    (hip : parseAddr n = none)
    (hidna : trim n punctuation ≠ n → t.toASCII (idnaInput t (trim n punctuation)) =
      some (idnaInput t (trim n punctuation))) :
    (validateLine t ⟨false, isExcludeFile, false, true⟩ n).rules = [⟨n, isExcludeFile⟩] ↔
      n.head? ≠ some (chr '_') ∧ n.getLast? ≠ some (chr '_') := by
  rw [rules_validateLine_domains isExcludeFile h, fields_trim h, ← trim_punctuation_iff h]
  constructor
  · intro hrules
    by_contra htrim
    have hinside := trim_isInfix n punctuation
    have hlt : (trim n punctuation).length < n.length :=
      lt_of_le_of_ne hinside.length_le fun he => htrim (hinside.eq_of_length he)
    have hmem : (⟨n, isExcludeFile⟩ : DomainRule) ∈
        (validateField t ⟨false, isExcludeFile, false, true⟩ (trim n punctuation)).rules := by
      have : (⟨n, isExcludeFile⟩ : DomainRule) ∈ [(⟨n, isExcludeFile⟩ : DomainRule)] :=
        List.mem_singleton.2 rfl
      rw [← hrules, List.mem_flatMap] at this
      obtain ⟨field, hfield, hr⟩ := this
      rwa [List.mem_singleton.1 (List.mem_of_mem_filter hfield)] at hr
    simp only [validateField] at hmem
    split_ifs at hmem with hip' hnil
    · simp [Loaded.none] at hmem
    · simp [Loaded.none] at hmem
    · have hdomain := congrArg DomainRule.domain (Loaded.mem_rules_rule hmem)
      have hle := length_idnaInput_le t (h.solid.of_isInfix hinside)
        (List.all_eq_true.2 fun c hc =>
          List.all_eq_true.1 h.isASCII c (hinside.subset hc))
      rw [(normalizeDomain_eq_or (hidna htrim)).resolve_left hnil] at hdomain
      have hlen := congrArg List.length hdomain
      dsimp only at hlen
      omega
  · intro htrim
    rw [htrim, List.filter_cons_of_pos (by simpa using h.ne_nil), List.filter_nil,
      List.flatMap_singleton]
    simp only [validateField, hip, hfix, if_neg h.ne_nil]
    rfl

theorem length_rules_validateLine_domains_le (h : Valid n) :
    (validateLine t ⟨false, isExcludeFile, false, true⟩ n).rules.length ≤ 1 := by
  rw [rules_validateLine_domains isExcludeFile h, fields_trim h]
  by_cases hnil : trim n punctuation = []
  · simp [hnil]
  · simpa [hnil] using length_rules_validateField_le t _ _

end Domains

/-! ## Files -/

theorem isAlnumOrU_lowerByte {c : UInt8} (h : isAlnumOrU c = true) :
    isAlnumOrU (lowerByte c) = true := by
  rw [isAlnumOrU_iff] at h ⊢
  rw [toNat_lowerByte]
  split_ifs <;> omega

/-- A valid name reaches `idna.ToASCII` in lower case and otherwise as it is. -/
theorem idnaInput_of_valid (t : Tables) {n : Bytes} (h : Valid n) :
    idnaInput t n = n.map lowerByte := by
  obtain ⟨a, ha, hal⟩ := h.head?
  obtain ⟨b, hb, hbl⟩ := h.getLast?
  have hends {c : UInt8} (hc : isAlnumOrU c = true) : lowerByte c ∉ str "." := by
    intro hmem
    have hdot : ∀ x ∈ str ".", isAlnumOrU x = false := by decide +kernel
    have hlower := isAlnumOrU_lowerByte hc
    rw [hdot _ hmem] at hlower
    exact Bool.false_ne_true hlower
  have hstar : hasPrefix (n.map lowerByte) (str "*.") = false := by
    rw [← Bool.not_eq_true, hasPrefix_iff]
    rintro ⟨z, hz⟩
    have hhead : some (lowerByte a) = some (chr '*') := by
      rw [← Option.map_some, ← ha, ← List.head?_map, ← hz]
      rfl
    have := isAlnumOrU_lowerByte hal
    rw [Option.some.inj hhead] at this
    exact absurd this (by decide)
  rw [idnaInput, h.solid.trimSpace, toLower, if_pos h.isASCII, trimPrefix, hstar,
    if_neg Bool.false_ne_true, trim_eq_self_iff]
  rw [List.head?_map, List.getLast?_map, ha, hb]
  simp only [Option.map_some, Option.some.injEq, forall_eq']
  exact ⟨hends hal, hends hbl⟩

/-- A name that `normalizeDomain` leaves as it is has at most 253 characters. -/
theorem length_le_of_fixed {t : Tables} {n : Bytes} (h : Valid n)
    (hfix : normalizeDomain t n = n) : n.length ≤ 253 := by
  by_contra hlong
  have hlen : 253 < (idnaInput t n).length := by
    rw [idnaInput_of_valid t h, List.length_map]
    omega
  have hreject : normalizeDomain t n = [] := by
    simp only [normalizeDomain, ← idnaInput.eq_1, hlen, decide_true, Bool.or_true, if_true,
      ite_self]
  exact h.ne_nil (hfix.symm.trans hreject)

theorem valid_of_fixed {t : Tables} {n : Bytes} (hfix : normalizeDomain t n = n) (hne : n ≠ []) :
    Valid n :=
  Normalized.valid ⟨hne, n, hfix⟩

theorem mem_fileOf {crlf final : Bool} {names : List Bytes} {c : UInt8}
    (h : c ∈ fileOf crlf final names) :
    (∃ n ∈ names, c ∈ n) ∨ c = chr '\n' ∨ c = chr '\r' := by
  have heol : ∀ crlf, ∀ x ∈ eol crlf, x = chr '\n' ∨ x = chr '\r' := by decide +kernel
  induction names with
  | nil => simp [fileOf] at h
  | cons n names ih =>
    cases names with
    | nil =>
      rw [fileOf] at h
      split_ifs at h
      · rcases List.mem_append.1 h with h | h
        · exact .inl ⟨n, List.mem_cons_self, h⟩
        · exact .inr (heol crlf c h)
      · exact .inl ⟨n, List.mem_cons_self, h⟩
    | cons m names =>
      rw [fileOf, List.mem_append, List.mem_append] at h
      rcases h with (h | h) | h
      · exact .inl ⟨n, List.mem_cons_self, h⟩
      · exact .inr (heol crlf c h)
      · rcases ih h with ⟨x, hx, hc⟩ | hc
        · exact .inl ⟨x, List.mem_cons_of_mem n hx, hc⟩
        · exact .inr hc

/-- **The rules of the file** are those of its lines: it does not look like a packed one, and no
line is too long. -/
theorem rules_validateFile_fileOf {t : Tables} (gunzip : Bytes → Option Bytes) (k : Kind)
    (crlf final : Bool) {names : List Bytes} (hfix : ∀ n ∈ names, normalizeDomain t n = n) :
    (validateFile t gunzip k (fileOf crlf final names)).rules =
      names.flatMap fun n => (validateLine t k n).rules := by
  have hbytes : ∀ n ∈ names, ∀ c ∈ n, 32 < c.toNat ∧ n.length ≤ 253 := fun n hn c hc =>
    have hv := valid_of_fixed (hfix n hn) (List.ne_nil_of_mem hc)
    ⟨(hv.toNat_mem hc).1, length_le_of_fixed hv (hfix n hn)⟩
  have hplain : (fileOf crlf final names).take 2 ≠ [0x1f, 0x8b] := by
    intro htake
    have hmem : 0x1f ∈ fileOf crlf final names :=
      List.mem_of_mem_take (htake ▸ List.mem_cons_self)
    rcases mem_fileOf hmem with ⟨n, hn, hc⟩ | hc
    · exact absurd (hbytes n hn _ hc).1 (by decide)
    · exact absurd hc (by decide)
  rw [rules_validateFile, linesOf, if_neg hplain]
  refine flatMap_scanLines_fileOf rfl crlf final fun n hn => ⟨fun hc => ?_, fun hc => ?_, ?_⟩
  · exact absurd (hbytes n hn _ hc).1 (by decide)
  · exact absurd (hbytes n hn _ hc).1 (by decide)
  · cases n with
    | nil => decide
    | cons c n =>
      have := (hbytes (c :: n) hn c List.mem_cons_self).2
      omega

theorem length_flatMap_le {α β : Type} {f : α → List β} {l : List α}
    (h : ∀ x ∈ l, (f x).length ≤ 1) : (l.flatMap f).length ≤ l.length := by
  induction l with
  | nil => simp
  | cons x l ih =>
    have hx := h x List.mem_cons_self
    have hl := ih fun y hy => h y (List.mem_cons_of_mem x hy)
    rw [List.flatMap_cons, List.length_append, List.length_cons]
    omega

theorem flatMap_eq_map_iff {α β : Type} {f : α → List β} {g : α → β} {l : List α}
    (h : ∀ x ∈ l, (f x).length ≤ 1) : l.flatMap f = l.map g ↔ ∀ x ∈ l, f x = [g x] := by
  induction l with
  | nil => simp
  | cons x l ih =>
    have hl : ∀ y ∈ l, (f y).length ≤ 1 := fun y hy => h y (List.mem_cons_of_mem x hy)
    rw [List.flatMap_cons, List.map_cons, List.forall_mem_cons, ← ih hl]
    cases hx : f x with
    | nil =>
      -- the other members make up at most one element each, so one is missing
      have hlen := length_flatMap_le hl
      refine iff_of_false (fun he => ?_) (by simp)
      have := congrArg List.length he
      rw [List.nil_append, List.length_cons, List.length_map] at this
      omega
    | cons y ys =>
      obtain rfl : ys = [] := by
        have := h x List.mem_cons_self
        rw [hx, List.length_cons] at this
        exact List.length_eq_zero_iff.1 (by omega)
      simp

/-- **When a list is read back.** A file that holds, one per line, names that `normalizeDomain`
leaves as they are and that are no addresses is read as these names, in their order and with the
flag of the list, if and only if no name is empty and, in a list of domains, none starts or ends
with an underscore. (`idna.ToASCII` is taken to be the identity on what the trim leaves of a
name.) -/
theorem readBack_iff (t : Tables) (gunzip : Bytes → Option Bytes)
    (isExcludeFile isDomain crlf final : Bool) (names : List Bytes)
    (hfix : ∀ n ∈ names, normalizeDomain t n = n) (hip : ∀ n ∈ names, parseAddr n = none)
    (hidna : ∀ n ∈ names, trim n punctuation ≠ n →
      t.toASCII (idnaInput t (trim n punctuation)) = some (idnaInput t (trim n punctuation))) :
    (validateFile t gunzip ⟨false, isExcludeFile, false, isDomain⟩
        (fileOf crlf final names)).rules = names.map (⟨·, isExcludeFile⟩) ↔
      ∀ n ∈ names, n ≠ [] ∧
        (isDomain = true → n.head? ≠ some (chr '_') ∧ n.getLast? ≠ some (chr '_')) := by
  have hlength : ∀ n ∈ names,
      (validateLine t ⟨false, isExcludeFile, false, isDomain⟩ n).rules.length ≤ 1 := by
    intro n hn
    by_cases hne : n = []
    · subst hne
      exact Nat.zero_le _
    · have hv := valid_of_fixed (hfix n hn) hne
      cases isDomain with
      | true => exact length_rules_validateLine_domains_le isExcludeFile hv
      | false => rw [rules_validateLine_adblock hv (hfix n hn)]; exact le_refl 1
  rw [rules_validateFile_fileOf gunzip _ crlf final hfix, flatMap_eq_map_iff hlength]
  refine forall₂_congr fun n hn => ?_
  by_cases hne : n = []
  · subst hne
    have hrules : (validateLine t ⟨false, isExcludeFile, false, isDomain⟩ []).rules = [] := rfl
    exact iff_of_false (by simp [hrules]) (by simp)
  · have hv := valid_of_fixed (hfix n hn) hne
    cases isDomain with
    | true =>
      rw [rules_validateLine_domains_iff isExcludeFile hv (hfix n hn) (hip n hn) (hidna n hn)]
      simp [hne]
    | false =>
      rw [rules_validateLine_adblock hv (hfix n hn)]
      simp [hne]

/-- Names with an underscore in the middle, a hyphen and digits. -/
def canonicalNames : List Bytes :=
  [str "a_b.example.com", str "x-1.org", str "1.2.3.4.in-addr.arpa"]

theorem readBack_canonical :
    (validateFile asciiTables some ⟨false, true, false, true⟩
        (fileOf true false canonicalNames)).rules = canonicalNames.map (⟨·, true⟩) ∧
      (validateFile asciiTables some ⟨false, false, false, false⟩
        (fileOf false true canonicalNames)).rules = canonicalNames.map (⟨·, false⟩) := by
  have hfix : ∀ n ∈ canonicalNames, normalizeDomain asciiTables n = n := by decide +kernel
  have hip : ∀ n ∈ canonicalNames, parseAddr n = none := by decide +kernel
  exact ⟨(readBack_iff asciiTables some true true true false canonicalNames hfix hip
      fun _ _ _ => rfl).2 (by decide +kernel),
    (readBack_iff asciiTables some false false false true canonicalNames hfix hip
      fun _ _ _ => rfl).2 (by decide +kernel)⟩

/-- **An underscore is lost**: a list of domains with `_dmarc.example.com` is read as one with
`dmarc.example.com`. -/
theorem readBack_fails :
    normalizeDomain asciiTables (str "_dmarc.example.com") = str "_dmarc.example.com" ∧
      parseAddr (str "_dmarc.example.com") = none ∧
      (validateFile asciiTables some ⟨false, true, false, true⟩
        (fileOf false true [str "_dmarc.example.com"])).rules =
        [⟨str "dmarc.example.com", true⟩] := by
  decide +kernel

end NextPath.Parser
