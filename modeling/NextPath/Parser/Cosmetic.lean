import NextPath.Parser.Lists

/-!
# Cosmetic filters

An ad list also holds filters that hide elements of a page: `site##selector`, and `site#@#selector`
for an exception. They block nothing, and `parseAdblockLine` passes over them. It does not see them:
`validateFile` takes what follows the first `#` of a line for a comment, so that it hands over the
site alone, and the site becomes a rule.

* `parseAdblockLine_eq`: the rule of a line without a marker;
* `rules_validateLine_eq_nil_iff`: a cosmetic filter yields nothing if and only if no name can be
  read in front of its marker (`Silent`);
* `cosmetic_filters_ignored_iff`: when the rules of a file come from its other lines only.
-/

namespace NextPath.Parser

open Strings

/-! ## What is read in a line -/

/-- A line without the marks in front of the domain. -/
def unmarked (line : Bytes) : Bytes :=
  if hasPrefix line (str "@@||") then line.drop 4
  else if hasPrefix line (str "||") then line.drop 2
  else if hasPrefix line (str "@@") then line.drop 2
  else line

/-- The text up to the first of `^`, `$` and `*`, a leading `*.` apart. -/
def nameIn (domain : Bytes) : Bytes :=
  trimSpace (if hasPrefix domain (str "*.") then str "*." ++ before (str "^$*") (domain.drop 2)
    else before (str "^$*") domain)

theorem normalizeDomain_nil (t : Tables) : normalizeDomain t [] = [] := rfl

/-- The test for a second `*` never fails: the text ends where one would be. -/
theorem hasPrefix_nameIn {domain : Bytes} (h : contains (nameIn domain) (str "*") = true) :
    hasPrefix (nameIn domain) (str "*.") = true := by
  rw [nameIn] at h ⊢
  split_ifs at h ⊢ with hwild
  · rw [hasPrefix_iff]
    refine isPrefix_trimSpace (y := str "*") (c := chr '.') (fun r hr hp => ?_) (by decide)
    have hstar : ∀ r ∈ whiteSpace, ∃ c, r.head? = some c ∧ c ≠ chr '*' := by decide
    obtain ⟨c, hc, hne⟩ := hstar r hr
    obtain ⟨z, hz⟩ := hp
    cases r with
    | nil => simp at hc
    | cons b r =>
      obtain rfl : b = c := by simpa using hc
      exact hne (List.cons.inj hz).1
  · have hmem : chr '*' ∈ before (str "^$*") domain :=
      (trimSpace_isInfix _).subset ((contains_iff.1 h).subset List.mem_cons_self)
    exact absurd (List.mem_takeWhile_imp hmem) (by decide)

/-- Whether a line is read as an exception: unless it says so itself, `forceException` decides. -/
def exceptionFlag (line : Bytes) (forceException : Bool) : Bool :=
  if hasPrefix line (str "@@||") then true
  else if hasPrefix line (str "||") then false
  else if hasPrefix line (str "@@") then true
  else forceException

/-- **The rule of a line** without a cosmetic marker: its name, if it has one and no path. -/
theorem parseAdblockLine_eq (t : Tables) {line : Bytes} (htrim : trimSpace line = line)
    (hhash : chr '#' ∉ line) (forceException : Bool) :
    parseAdblockLine t line forceException =
      if contains (unmarked line) (str "/") then none
      else if normalizeDomain t (nameIn (unmarked line)) = [] then none
      else
        some ⟨normalizeDomain t (nameIn (unmarked line)), exceptionFlag line forceException⟩ := by
  have hfirst : contains line (str "##") = false :=
    not_contains_of_notMem (c := chr '#') (by decide) hhash
  have hsecond : contains line (str "#@#") = false :=
    not_contains_of_notMem (c := chr '#') (by decide) hhash
  simp only [parseAdblockLine, htrim, hfirst, hsecond, Bool.or_false, decide_eq_true_eq]
  have hpair : (if hasPrefix line (str "@@||") then (true, line.drop 4)
      else if hasPrefix line (str "||") then (false, line.drop 2)
      else if hasPrefix line (str "@@") then (true, line.drop 2) else (forceException, line)) =
      (exceptionFlag line forceException, unmarked line) := by
    rw [exceptionFlag, unmarked]
    split_ifs <;> rfl
  rw [hpair]
  simp only [← nameIn.eq_1]
  have hstar : (contains (nameIn (unmarked line)) (str "*") &&
      !hasPrefix (nameIn (unmarked line)) (str "*.")) = false := by
    cases hc : contains (nameIn (unmarked line)) (str "*") with
    | false => rfl
    | true => rw [hasPrefix_nameIn hc]; rfl
  rw [hstar, Bool.or_false]
  simp only [decide_eq_true_eq]
  by_cases hnil : line = []
  · subst hnil
    rfl
  · rw [if_neg hnil]
    by_cases hname : nameIn (unmarked line) = []
    · rw [if_pos hname, hname, normalizeDomain_nil]
      simp
    · rw [if_neg hname]

/-! ## Cosmetic filters -/

/-- A line with a marker of a cosmetic filter. -/
def Cosmetic (text : Bytes) : Prop :=
  contains text (str "##") = true ∨ contains text (str "#@#") = true

instance (text : Bytes) : Decidable (Cosmetic text) := inferInstanceAs (Decidable (_ ∨ _))

/-- The text in front of the first `#`. -/
def frontOf (text : Bytes) : Bytes := trimSpace (before (str "#") (trimSpace text))

/-- No name is read in front of the first `#`: the line is a comment or a header, the text there has
a path or is no domain, or its domain is one that is filtered out. -/
def Silent (t : Tables) (filterCasino : Bool) (text : Bytes) : Prop :=
  (trimSpace text).head? = some (chr ';') ∨ hasPrefix (frontOf text) (str "!") = true ∨
    hasPrefix (frontOf text) (str "[") = true ∨
    contains (unmarked (frontOf text)) (str "/") = true ∨
    normalizeDomain t (nameIn (unmarked (frontOf text))) = [] ∨
    (filterCasino && isCasino (normalizeDomain t (nameIn (unmarked (frontOf text))))) = true

instance (t : Tables) (filterCasino : Bool) (text : Bytes) :
    Decidable (Silent t filterCasino text) := inferInstanceAs (Decidable (_ ∨ _))

theorem Cosmetic.mem {text : Bytes} (h : Cosmetic text) : chr '#' ∈ text := by
  rcases h with h | h
  · exact (contains_iff.1 h).subset (by decide)
  · exact (contains_iff.1 h).subset (by decide)

theorem trimSpace_frontOf (text : Bytes) : trimSpace (frontOf text) = frontOf text :=
  trimSpace_trimSpace _

theorem notMem_frontOf (text : Bytes) : chr '#' ∉ frontOf text := fun h =>
  absurd (List.mem_takeWhile_imp ((trimSpace_isInfix _).subset h)) (by decide)

/-- What is left of a line with a `#` when the comment is stripped. -/
theorem uncommented_of_mem {text : Bytes} (h : chr '#' ∈ text) :
    uncommented text = if (trimSpace text).head? = some (chr ';') then [] else frontOf text := by
  have hmem : chr '#' ∈ trimSpace text := mem_trimSpace (by decide) h
  have hcontains : contains (trimSpace text) (str "#") = true := by
    obtain ⟨y, z, hyz⟩ := List.append_of_mem hmem
    exact contains_iff.2 ⟨y, z, by rw [hyz]; simp [str, chr]⟩
  simp only [uncommented, hcontains, if_true]
  by_cases hhash : (trimSpace text).head? = some (chr '#')
  · have hfront : frontOf text = [] := by
      obtain ⟨s, hs⟩ := List.head?_eq_some_iff.1 hhash
      rw [frontOf, hs]
      rfl
    rw [if_pos (.inl hhash), hfront, ite_self]
  · simp only [hhash, false_or]
    rfl

theorem Loaded.rules_rule_eq_nil_iff {filterCasino : Bool} {r : DomainRule} :
    (Loaded.rule filterCasino r).rules = [] ↔ (filterCasino && isCasino r.domain) = true := by
  rw [Loaded.rule]
  split_ifs with h <;> simp [h]

/-- **When a cosmetic filter yields nothing**: no name is read in front of its marker. -/
theorem rules_validateLine_eq_nil_iff (t : Tables) (filterCasino isExcludeFile : Bool)
    {text : Bytes} (h : Cosmetic text) :
    (validateLine t ⟨filterCasino, isExcludeFile, false, false⟩ text).rules = [] ↔
      Silent t filterCasino text := by
  rw [validateLine, uncommented_of_mem h.mem, Silent]
  by_cases hsemi : (trimSpace text).head? = some (chr ';')
  · simp [hsemi, Loaded.none]
  simp only [Bool.false_eq_true, if_false, hsemi, false_or]
  by_cases hnil : frontOf text = []
  · -- the filter is for every site
    rw [if_pos hnil, hnil]
    exact iff_of_true rfl (.inr (.inr (.inr (.inl rfl))))
  rw [if_neg hnil]
  by_cases hhead : (hasPrefix (frontOf text) (str "!") || hasPrefix (frontOf text) (str "[")) = true
  · rw [if_pos hhead]
    refine iff_of_true rfl ?_
    rcases Bool.or_eq_true _ _ |>.mp hhead with hb | hb
    · exact .inl hb
    · exact .inr (.inl hb)
  · have hbang := (Bool.or_eq_false_iff.1 (Bool.not_eq_true _ |>.mp hhead))
    rw [if_neg hhead, hbang.1, hbang.2,
      parseAdblockLine_eq t (trimSpace_frontOf text) (notMem_frontOf text)]
    by_cases hpath : contains (unmarked (frontOf text)) (str "/") = true
    · simp [hpath, Loaded.none]
    · by_cases hname : normalizeDomain t (nameIn (unmarked (frontOf text))) = []
      · simp [hpath, hname, Loaded.none]
      · simp only [hpath, hname, Bool.false_eq_true, if_false, false_or,
          Loaded.rules_rule_eq_nil_iff]

/-! ## Files -/

theorem Loaded.rules_concat (l : List Loaded) :
    (Loaded.concat l).rules = l.flatMap (·.rules) := by
  induction l with
  | nil => rfl
  | cons a l ih =>
    rw [List.flatMap_cons, ← ih]
    rfl

theorem rules_validateFile (t : Tables) (gunzip : Bytes → Option Bytes) (k : Kind)
    (content : Bytes) :
    (validateFile t gunzip k content).rules =
      (linesOf gunzip content).flatMap fun text => (validateLine t k text).rules := by
  rw [validateFile, Loaded.rules_concat, List.flatMap_map]
  rfl

theorem flatMap_filter_of_eq_nil {α β : Type} {f : α → List β} {p : α → Bool} {l : List α}
    (h : ∀ x ∈ l, p x = false → f x = []) : l.flatMap f = (l.filter p).flatMap f := by
  induction l with
  | nil => rfl
  | cons x l ih =>
    have htail := ih fun y hy => h y (List.mem_cons_of_mem x hy)
    cases hx : p x with
    | true => rw [List.flatMap_cons, List.filter_cons_of_pos hx, List.flatMap_cons, htail]
    | false =>
      rw [List.flatMap_cons, List.filter_cons_of_neg (by simp [hx]),
        h x List.mem_cons_self hx, List.nil_append, htail]

/-- **When cosmetic filters never become rules**: no line of the file with a marker yields a rule,
and the rules come from the other lines, if and only if every such line is silent. -/
theorem cosmetic_filters_ignored_iff (t : Tables) (gunzip : Bytes → Option Bytes)
    (filterCasino isExcludeFile : Bool) (content : Bytes) :
    ((∀ text ∈ linesOf gunzip content, Cosmetic text →
        (validateLine t ⟨filterCasino, isExcludeFile, false, false⟩ text).rules = []) ∧
      (validateFile t gunzip ⟨filterCasino, isExcludeFile, false, false⟩ content).rules =
        ((linesOf gunzip content).filter fun text => ¬ Cosmetic text).flatMap fun text =>
          (validateLine t ⟨filterCasino, isExcludeFile, false, false⟩ text).rules) ↔
      ∀ text ∈ linesOf gunzip content, Cosmetic text → Silent t filterCasino text := by
  constructor
  · rintro ⟨hlines, -⟩ text hmem hcos
    exact (rules_validateLine_eq_nil_iff t filterCasino isExcludeFile hcos).1
      (hlines text hmem hcos)
  · intro hsilent
    have hlines : ∀ text ∈ linesOf gunzip content, Cosmetic text →
        (validateLine t ⟨filterCasino, isExcludeFile, false, false⟩ text).rules = [] :=
      fun text hmem hcos => (rules_validateLine_eq_nil_iff t filterCasino isExcludeFile hcos).2
        (hsilent text hmem hcos)
    refine ⟨hlines, ?_⟩
    rw [rules_validateFile]
    exact flatMap_filter_of_eq_nil fun text hmem hcos => hlines text hmem (by simpa using hcos)

/-- **The site of a cosmetic filter is blocked**, although every filter of the list only hides
elements of its pages. -/
theorem cosmetic_filter_blocks_site :
    (∀ text ∈ linesOf some (str "example.com##.ad\nexample.org#@#.ad"), Cosmetic text) ∧
      (validateFile asciiTables some ⟨false, false, false, false⟩
        (str "example.com##.ad\nexample.org#@#.ad")).rules =
      [⟨str "example.com", false⟩, ⟨str "example.org", false⟩] := by
  decide +kernel

end NextPath.Parser
