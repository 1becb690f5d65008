import NextPath.Parser.Zone

/-!
# What the compiled zones contain

Collapsing the union of the included and the excluded domains must neither lose an included name
nor bring in another one, should leave no domain below another, and must give the same lists
whatever the order of the rules, of the maps they are collected in and of equal steps of the sort.

* `inclusions_kept`: names below included domains stay, nothing else is included, and the exceptions
  cover the excluded names;
* `antichain_collapseDomains_iff`: when no domain that is kept is below another one;
* `collapseDomains_preserves_coverage`: what is kept of a list is a sorted part of it that covers
  the same names;
* `collapsesTo_iff`, `BuildRun.result_eq`: the result does not depend on how the domains are sorted
  or on the order in which the maps are read;
* `zones_independent_of_order`: nor on the order or the repetition of the rules.
-/

namespace NextPath.Parser

open Strings

/-! ## Inclusions -/

namespace ProxyLists

variable (l : ProxyLists)

/-- `include-hosts` includes the domain. -/
def Included (d : Bytes) : Prop := ∃ r ∈ l.hpr, r.isEx = false ∧ r.domain = d

/-- `remove-hosts` or `exclude-hosts` names the domain, or an exception of `include-hosts` does. -/
def Excluded (d : Bytes) : Prop :=
  ∃ r, (r ∈ l.exG ∨ r ∈ l.exPOnly ∨ r ∈ l.hpr ∧ r.isEx = true) ∧ r.domain = d

variable {l}

theorem mem_piS {t : Tables} {d : Bytes} :
    d ∈ l.piS t ↔ ∃ d', l.Included d' ∧ stripPrefix t d' = d := by
  simp only [piS, domainSet, Included, List.mem_dedup, List.mem_map, List.mem_filter,
    Bool.not_eq_true', and_assoc]

theorem mem_pExcRaw {d : Bytes} : d ∈ l.pExcRaw ↔ l.Excluded d := by
  simp only [pExcRaw, domainSet, Excluded, List.mem_dedup, List.mem_map, List.mem_append,
    List.mem_filter, or_assoc]

end ProxyLists

theorem below_stripPrefix {t : Tables} {d : Bytes} (h : Valid d) :
    Below d (stripPrefix t d) := by
  rcases stripPrefix_eq_or (t := t) h.isASCII with he | ⟨p, he⟩
  · exact .inl he.symm
  · exact .inr ⟨p, he.symm⟩

/-- A name below an included domain is below a domain of the zone, or below an excluded one. -/
theorem exists_mem_splitZone {inc exc : List Bytes} {n d : Bytes} (hd : d ∈ inc) (hn : Below n d)
    (hexc : ∀ e ∈ exc, ¬ Below n e) : ∃ k ∈ (splitZone inc exc).1, Below n k := by
  obtain ⟨k, hk, hdk⟩ := exists_mem_collapseDomains (List.mem_append_left exc hd)
  have hnk : Below n k := hn.trans hdk
  have hkexc : k ∉ exc := fun hmem => hexc k hmem hnk
  exact ⟨k, List.mem_filter.2 ⟨hk, decide_eq_true hkexc⟩, hnk⟩

theorem mem_inc_of_mem_splitZone {inc exc : List Bytes} {d : Bytes}
    (h : d ∈ (splitZone inc exc).1) : d ∈ inc := by
  obtain ⟨hd, hexc⟩ := List.mem_filter.1 h
  exact (List.mem_append.1 (mem_collapseDomains_iff.1 hd).1).resolve_right (of_decide_eq_true hexc)

/-- Collapsing leaves the names at or below the domains of a list as they are. -/
theorem exists_below_collapseDomains_iff {ds : List Bytes} {n : Bytes} :
    (∃ e ∈ collapseDomains ds, Below n e) ↔ ∃ e ∈ ds, Below n e := by
  constructor
  · rintro ⟨e, he, hn⟩
    exact ⟨e, (mem_collapseDomains_iff.1 he).1, hn⟩
  · rintro ⟨e, he, hn⟩
    obtain ⟨k, hk, hek⟩ := exists_mem_collapseDomains he
    exact ⟨k, hk, hn.trans hek⟩

/-- **Inclusions are neither lost nor invented.** A name at or below an included domain, and not at
or below an excluded one, is at or below a domain of `proxy.rpz`; each of these is an included
domain, stripped of its prefix; and the exceptions cover the names the excluded domains do. -/
theorem inclusions_kept (t : Tables) (l : ProxyLists)
    (hl : ∀ r ∈ l.hpr ++ l.exPOnly ++ l.exG, Normalized t r.domain) :
    (∀ n d, l.Included d → Below n d → (∀ e, l.Excluded e → ¬ Below n e) →
        ∃ k ∈ (compileProxy t l).1, Below n k) ∧
      (∀ k ∈ (compileProxy t l).1, ∃ d, l.Included d ∧ k = stripPrefix t d) ∧
      ∀ n, (∃ e ∈ (compileProxy t l).2, Below n e) ↔ ∃ e, l.Excluded e ∧ Below n e := by
  refine ⟨fun n d hd hn hexc => ?_, fun k hk => ?_, fun n => ?_⟩
  · have hvalid : Valid d := by
      obtain ⟨r, hr, -, rfl⟩ := hd
      exact (hl r (by simp [hr])).valid
    exact exists_mem_splitZone (ProxyLists.mem_piS.2 ⟨d, hd, rfl⟩)
      (hn.trans (below_stripPrefix hvalid)) fun e he => hexc e (ProxyLists.mem_pExcRaw.1 he)
  · obtain ⟨d, hd, hk⟩ := ProxyLists.mem_piS.1 (mem_inc_of_mem_splitZone hk)
    exact ⟨d, hd, hk.symm⟩
  · simp only [compileProxy, splitZone, exists_below_collapseDomains_iff, ProxyLists.mem_pExcRaw]

/-- Lists in which an inclusion is stripped, one is below an excluded domain and one is widened to
an excluded domain. -/
def mixedLists : ProxyLists where
  hpr := [⟨str "www.b.com", false⟩, ⟨str "x.a.com", false⟩, ⟨str "www.c.com", false⟩,
    ⟨str "d.com", true⟩]
  exPOnly := [⟨str "a.com", true⟩]
  exG := [⟨str "c.com", true⟩]

theorem inclusions_kept_mixed :
    (∃ k ∈ (compileProxy asciiTables mixedLists).1, Below (str "y.www.b.com") k) ∧
      ∃ e ∈ (compileProxy asciiTables mixedLists).2, Below (str "x.d.com") e := by
  have hread : ∀ r ∈ mixedLists.hpr ++ mixedLists.exPOnly ++ mixedLists.exG,
      ReadAsItself r.domain := by decide +kernel
  have hfree : ∀ e ∈ mixedLists.pExcRaw, ¬ Below (str "y.www.b.com") e := by decide +kernel
  obtain ⟨hkept, -, hexc⟩ := inclusions_kept asciiTables mixedLists
    fun r hr => (hread r hr).normalized
  refine ⟨hkept _ (str "www.b.com") ⟨⟨str "www.b.com", false⟩, by decide +kernel⟩
    (by decide +kernel) fun e he => hfree e (ProxyLists.mem_pExcRaw.2 he), ?_⟩
  exact (hexc _).2 ⟨str "d.com", ⟨⟨str "d.com", true⟩, .inr (.inr (by decide +kernel)), rfl⟩,
    by decide +kernel⟩

/-! ## Antichains -/

/-- No domain of the list is a subdomain of another one. -/
def Antichain (ds : List Bytes) : Prop := ∀ a ∈ ds, ∀ d ∈ ds, ¬ StrictlyBelow d a

instance (ds : List Bytes) : Decidable (Antichain ds) :=
  inferInstanceAs (Decidable (∀ a ∈ ds, ∀ d ∈ ds, _))

/-- Every domain that is below another one is below one that is not shadowed. -/
def Unobscured (ds : List Bytes) : Prop :=
  ∀ d ∈ ds, (∃ a ∈ ds, StrictlyBelow d a) → ∃ a ∈ ds, StrictlyBelow d a ∧ ¬ Shadowed ds a

instance (ds : List Bytes) : Decidable (Unobscured ds) :=
  inferInstanceAs (Decidable (∀ d ∈ ds, _))

theorem StrictlyBelow.length_lt {n d : Bytes} (h : StrictlyBelow n d) : d.length < n.length := by
  have := h.length_le
  rwa [List.length_cons] at this

/-- A domain that is below another one is below one that is below no other. -/
theorem exists_topmost {ds : List Bytes} {d a : Bytes} (ha : a ∈ ds) (hda : StrictlyBelow d a) :
    ∃ b ∈ ds, StrictlyBelow d b ∧ ∀ c ∈ ds, ¬ StrictlyBelow b c := by
  -- by induction on the length of the parent that is known
  induction h : a.length using Nat.strong_induction_on generalizing a with
  | _ m ih =>
    by_cases htop : ∃ c ∈ ds, StrictlyBelow a c
    · obtain ⟨c, hc, hac⟩ := htop
      exact ih c.length (h ▸ hac.length_lt) hc (hda.trans hac) rfl
    · exact ⟨a, ha, hda, fun c hc hac => htop ⟨c, hc, hac⟩⟩

/-- **When the collapsed list is an antichain**: every domain below another one has a parent that
no domain of the list shadows. -/
theorem antichain_collapseDomains_iff (t : Tables) (ds : List Bytes)
    (h : ∀ d ∈ ds, Normalized t d) : Antichain (collapseDomains ds) ↔ Unobscured ds := by
  have hmem {d : Bytes} := mem_collapseDomains_iff_of_valid (d := d) fun x hx => (h x hx).valid
  constructor
  · intro hanti d hd ⟨a, ha, hda⟩
    by_contra hall
    have hkept : d ∈ collapseDomains ds :=
      hmem.2 ⟨hd, fun b hb hdb => not_not.1 fun hs => hall ⟨b, hb, hdb, hs⟩⟩
    -- the topmost parent is below nothing, so it is kept as well
    obtain ⟨b, hb, hdb, htop⟩ := exists_topmost ha hda
    have hkept' : b ∈ collapseDomains ds := hmem.2 ⟨hb, fun c hc hbc => absurd hbc (htop c hc)⟩
    exact hanti b hkept' d hkept hdb
  · intro hclear a ha d hd hda
    obtain ⟨hdmem, hshadow⟩ := hmem.1 hd
    obtain ⟨b, hb, hdb, hno⟩ := hclear d hdmem ⟨a, (hmem.1 ha).1, hda⟩
    exact hno (hshadow b hb hdb)

/-- Domains below one another, none of which ends in a hyphen and another one. -/
def plainDomains : List Bytes := [str "y.x.a.com", str "a.com", str "x.a.com", str "b-c.com"]

theorem antichain_collapseDomains_plain : Antichain (collapseDomains plainDomains) := by
  have hread : ∀ d ∈ plainDomains, ReadAsItself d := by decide +kernel
  exact (antichain_collapseDomains_iff asciiTables plainDomains
    fun d hd => (hread d hd).normalized).2 (by decide +kernel)

/-- `b-a.com` sorts between `a.com` and its subdomain `x.a.com`. -/
def hyphenDomains : List Bytes := [str "a.com", str "b-a.com", str "x.a.com"]

/-- **A hyphen breaks the antichain**: all three domains are kept. -/
theorem not_antichain_collapseDomains :
    (∀ d ∈ hyphenDomains, Normalized asciiTables d) ∧
      collapseDomains hyphenDomains = hyphenDomains ∧
      StrictlyBelow (str "x.a.com") (str "a.com") ∧
      ¬ Antichain (collapseDomains hyphenDomains) := by
  have hread : ∀ d ∈ hyphenDomains, ReadAsItself d := by decide +kernel
  exact ⟨fun d hd => (hread d hd).normalized, by decide +kernel⟩

/-! ## Orders -/

/-- What a call of `CollapseDomains` may return: `sort.Sort` leaves the domains in some order in
which none is less than one before it. -/
def CollapsesTo (domains optimized : List Bytes) : Prop :=
  ∃ sorted : List Bytes, sorted.Perm domains ∧ sorted.Pairwise (fun a b => less b a = false) ∧
    collapseInPlace sorted = optimized

/-- There is one such order only. -/
theorem eq_of_perm_of_pairwise {ds ds' : List Bytes} (hperm : ds.Perm ds')
    (h : ds.Pairwise fun a b => less b a = false)
    (h' : ds'.Pairwise fun a b => less b a = false) : ds = ds' := by
  refine hperm.eq_of_pairwise (fun a b _ _ hab hba => ?_) h h'
  exact List.reverse_injective
    (le_antisymm (less_eq_false_iff.1 hab) (less_eq_false_iff.1 hba))

theorem pairwise_sortDomains (ds : List Bytes) :
    (sortDomains ds).Pairwise fun a b => less b a = false := by
  have := pairwise_reverse_sortDomains ds
  rw [List.pairwise_map] at this
  exact this.imp fun h => less_eq_false_iff.2 h

theorem perm_sortDomains (ds : List Bytes) : (sortDomains ds).Perm ds :=
  List.perm_insertionSort _ ds

/-- **`CollapseDomains` returns one list**, however it sorts. -/
theorem collapsesTo_iff {ds optimized : List Bytes} :
    CollapsesTo ds optimized ↔ optimized = collapseDomains ds := by
  constructor
  · rintro ⟨sorted, hperm, hsorted, rfl⟩
    rw [collapseInPlace_eq, collapseDomains, eq_of_perm_of_pairwise
      (hperm.trans (perm_sortDomains ds).symm) hsorted (pairwise_sortDomains ds)]
  · rintro rfl
    exact ⟨sortDomains ds, perm_sortDomains ds, pairwise_sortDomains ds, collapseInPlace_eq _⟩

theorem isStrictTotalOrder_less : IsStrictTotalOrder Bytes fun a b => less a b = true where
  irrefl a := by
    rw [less_iff]
    exact lt_irrefl _
  trans a b c := by
    simp only [less_iff]
    exact lt_trans
  trichotomous a b hab hba := by
    rw [less_iff, not_lt] at hab hba
    exact List.reverse_injective (le_antisymm hba hab)

/-- **Collapsing keeps what the domains cover.** What `CollapseDomains` returns, whichever way the
sort goes, is `collapseDomains`: a part of its input, each string at most as often as it was there,
in the order of `domainSorter.Less`, with the same names at or below its entries. And this order is
the strict lexicographic one of the reversed strings, in which any two strings are comparable. -/
theorem collapseDomains_preserves_coverage :
    (∀ ds : List Bytes,
      (∀ out, CollapsesTo ds out ↔ out = collapseDomains ds) ∧
        (collapseDomains ds).Subperm ds ∧
        (collapseDomains ds).Pairwise (fun a b => lessByIndex b a = false) ∧
        ∀ n, (∃ e ∈ collapseDomains ds, Below n e) ↔ ∃ e ∈ ds, Below n e) ∧
      (∀ a b : Bytes, lessByIndex a b = true ↔ a.reverse < b.reverse) ∧
      IsStrictTotalOrder Bytes fun a b => lessByIndex a b = true := by
  simp only [lessByIndex_eq]
  refine ⟨fun ds => ⟨fun out => collapsesTo_iff, ?_, ?_, fun n => ?_⟩, fun a b => less_iff,
    isStrictTotalOrder_less⟩
  · exact (collapseDomains_sublist ds).subperm.trans (perm_sortDomains ds).subperm
  · exact (pairwise_sortDomains ds).sublist (collapseDomains_sublist ds)
  · exact exists_below_collapseDomains_iff

theorem collapseDomains_perm {ds ds' : List Bytes} (h : ds.Perm ds') :
    collapseDomains ds = collapseDomains ds' := by
  have hsort : sortDomains ds = sortDomains ds' :=
    eq_of_perm_of_pairwise ((perm_sortDomains ds).trans (h.trans (perm_sortDomains ds').symm))
      (pairwise_sortDomains ds) (pairwise_sortDomains ds')
  rw [collapseDomains, collapseDomains, hsort]

/-- A run of `buildSimpleRPZ`: the order in which it meets the keys of `inc`, and those of `excMap`
each time it ranges over that map, and what the two calls of `CollapseDomains` return. -/
structure BuildRun (rules : List DomainRule) where
  inc : List Bytes
  exc : List Bytes
  excRaw : List Bytes
  unionOpt : List Bytes
  excOpt : List Bytes
  inc_perm : inc.Perm (simpleInc rules)
  exc_perm : exc.Perm (simpleExc rules)
  excRaw_perm : excRaw.Perm (simpleExc rules)
  union_collapsesTo : CollapsesTo (inc ++ exc) unionOpt
  excRaw_collapsesTo : CollapsesTo excRaw excOpt

/-- What the run returns. -/
def BuildRun.result {rules : List DomainRule} (run : BuildRun rules) : List Bytes × List Bytes :=
  (run.unionOpt.filter fun d => !(simpleExc rules).contains d, run.excOpt)

/-- **Every run of `buildSimpleRPZ` on the same rules has the same result.** -/
theorem BuildRun.result_eq {rules : List DomainRule} (run : BuildRun rules) :
    run.result = buildSimpleRPZ rules := by
  have hunion : run.unionOpt = collapseDomains (simpleInc rules ++ simpleExc rules) :=
    (collapsesTo_iff.1 run.union_collapsesTo).trans
      (collapseDomains_perm (run.inc_perm.append run.exc_perm))
  have hexc : run.excOpt = collapseDomains (simpleExc rules) :=
    (collapsesTo_iff.1 run.excRaw_collapsesTo).trans (collapseDomains_perm run.excRaw_perm)
  rw [result, hunion, hexc, buildSimpleRPZ, splitZone]
  simp only [List.contains_eq_mem, decide_not]

theorem domainSet_perm {rules rules' : List DomainRule} (h : ∀ r, r ∈ rules ↔ r ∈ rules') :
    (domainSet rules).Perm (domainSet rules') := by
  refine (List.perm_ext_iff_of_nodup (List.nodup_dedup _) (List.nodup_dedup _)).2 fun d => ?_
  simp only [List.mem_dedup, List.mem_map, h]

/-- **The zones depend on the set of the rules only.** Two runs of `buildSimpleRPZ` on rule lists
with the same members return the same two lists, whatever the order and the number of times the
rules come in, the maps are read in and the sort leaves; and two calls of `CollapseDomains` on
permutations of the same strings return the same list. -/
theorem zones_independent_of_order :
    (∀ rules rules' : List DomainRule, (∀ r, r ∈ rules ↔ r ∈ rules') →
        buildSimpleRPZ rules = buildSimpleRPZ rules' ∧
          ∀ (run : BuildRun rules) (run' : BuildRun rules'), run.result = run'.result) ∧
      ∀ ds ds' : List Bytes, ds.Perm ds' →
        collapseDomains ds = collapseDomains ds' ∧
          ∀ out out', CollapsesTo ds out → CollapsesTo ds' out' → out = out' := by
  refine ⟨fun rules rules' h => ?_, fun ds ds' h => ?_⟩
  · have hfilter (p : DomainRule → Bool) (r : DomainRule) :
        r ∈ rules.filter p ↔ r ∈ rules'.filter p := by
      simp only [List.mem_filter, h]
    have hinc : (simpleInc rules).Perm (simpleInc rules') := domainSet_perm (hfilter _)
    have hexc : (simpleExc rules).Perm (simpleExc rules') := domainSet_perm (hfilter _)
    have hbuild : buildSimpleRPZ rules = buildSimpleRPZ rules' := by
      simp only [buildSimpleRPZ, splitZone, collapseDomains_perm (hinc.append hexc),
        collapseDomains_perm hexc, hexc.mem_iff]
    exact ⟨hbuild, fun run run' => by rw [run.result_eq, run'.result_eq, hbuild]⟩
  · refine ⟨collapseDomains_perm h, fun out out' hout hout' => ?_⟩
    rw [collapsesTo_iff.1 hout, collapsesTo_iff.1 hout', collapseDomains_perm h]

/-- The rules of `shadowingRules` in another order, one of them twice. -/
theorem zones_independent_of_order_shadowing :
    buildSimpleRPZ shadowingRules =
        buildSimpleRPZ (shadowingRules.reverse ++ [⟨str "a.com", true⟩]) ∧
      collapseDomains hyphenDomains = collapseDomains hyphenDomains.reverse := by
  obtain ⟨hrules, hdomains⟩ := zones_independent_of_order
  refine ⟨(hrules _ _ fun r => ?_).1, (hdomains _ _ (List.reverse_perm _).symm).1⟩
  simp only [List.mem_append, List.mem_reverse, List.mem_singleton]
  exact ⟨.inl, fun h => h.elim id fun h => by rw [h]; decide +kernel⟩

end NextPath.Parser
