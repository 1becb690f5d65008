import NextPath.Parser.Disk

/-!
# The ad blocker

`adblock.rpz` is compiled from a list of domains to block, a list of exceptions and the domains to
remove from all zones. Both lists are in the syntax of ad blockers, in which a line can be a rule or
an exception. In the list of exceptions every line is meant as an exception; `parseAdblockLine` has
an argument for that, but a line that starts with `||` overrides it, and then blocks what it was to
permit.

* `AdblockLists.Normalized.evaluate_iff`: which domains pass the zone.
-/

namespace NextPath.Parser

open Strings

/-! ## The zone -/

/-- The rule lists `adblock.rpz` is compiled from: `include-adblock-hosts`, `exclude-adblock-hosts`
and `remove-hosts`. -/
structure AdblockLists where
  har : List DomainRule
  hae : List DomainRule
  exG : List DomainRule

namespace AdblockLists

variable (l : AdblockLists)

/-- `extLookup` of `CompileLists`. -/
def extLookup : List Bytes := domainSet l.hae

/-- `adInc` of `CompileLists`. -/
def adInc : List Bytes := domainSet ((l.har ++ l.hae).filter (!·.isEx))

/-- `adExcExt` of `CompileLists`: the exceptions whose domain is in the list of exceptions. -/
def adExcExt : List Bytes :=
  domainSet ((l.har ++ l.hae).filter fun r => r.isEx && l.extLookup.contains r.domain)

/-- `adIntEx` of `CompileLists`: the other exceptions. -/
def adIntEx : List Bytes :=
  domainSet ((l.har ++ l.hae).filter fun r => r.isEx && !l.extLookup.contains r.domain)

/-- `adAllExc` of `CompileLists`. -/
def adAllExc : List Bytes := (l.adExcExt ++ l.adIntEx ++ domainSet l.exG).dedup

/-- `adExclRaw` of `CompileLists`. -/
def adExclRaw : List Bytes := l.adExcExt ++ l.adIntEx

/-- `adFinal` of `CompileLists`. -/
def adFinal : List Bytes := (splitZone l.adInc l.adAllExc).1

/-- `adExcl` of `CompileLists`. -/
def adExcl : List Bytes := collapseDomains l.adExclRaw

/-! ## The sets -/

theorem mem_adExclRaw {d : Bytes} :
    d ∈ l.adExclRaw ↔ ∃ r ∈ l.har ++ l.hae, r.isEx = true ∧ r.domain = d := by
  simp only [adExclRaw, adExcExt, adIntEx, domainSet, List.mem_append, List.mem_dedup, List.mem_map,
    List.mem_filter]
  constructor
  · rintro (⟨r, ⟨hr, h⟩, rfl⟩ | ⟨r, ⟨hr, h⟩, rfl⟩)
    · exact ⟨r, hr, (Bool.and_eq_true_iff.1 h).1, rfl⟩
    · exact ⟨r, hr, (Bool.and_eq_true_iff.1 h).1, rfl⟩
  · rintro ⟨r, hr, hex, rfl⟩
    cases h : l.extLookup.contains r.domain with
    | true => exact .inl ⟨r, ⟨hr, by rw [hex, h]; rfl⟩, rfl⟩
    | false => exact .inr ⟨r, ⟨hr, by rw [hex, h]; rfl⟩, rfl⟩

theorem mem_adAllExc {d : Bytes} : d ∈ l.adAllExc ↔ d ∈ l.adExclRaw ∨ d ∈ domainSet l.exG := by
  rw [adAllExc, List.mem_dedup, List.mem_append, adExclRaw]

/-- Every domain of the lists is a valid name. -/
def Normalized (t : Tables) : Prop := ∀ r ∈ l.har ++ l.hae ++ l.exG, Parser.Normalized t r.domain

variable {l} {t : Tables}

theorem Normalized.valid (h : l.Normalized t) {d : Bytes} (hd : d ∈ l.adInc ++ l.adAllExc) :
    Valid d := by
  have hrule {r : DomainRule} (hr : r ∈ l.har ++ l.hae) : Valid r.domain :=
    (h r (List.mem_append_left _ hr)).valid
  rw [List.mem_append, mem_adAllExc, mem_adExclRaw] at hd
  rcases hd with hd | ⟨r, hr, -, rfl⟩ | hd
  · rw [adInc, domainSet, List.mem_dedup, List.mem_map] at hd
    obtain ⟨r, hr, rfl⟩ := hd
    exact hrule (List.mem_of_mem_filter hr)
  · exact hrule hr
  · exact valid_of_mem_domainSet (fun r hr => h r (List.mem_append_right _ hr)) hd

theorem Normalized.valid_of_mem_adExclRaw (h : l.Normalized t) {d : Bytes} (hd : d ∈ l.adExclRaw) :
    Valid d :=
  h.valid (List.mem_append_right _ (l.mem_adAllExc.2 (.inl hd)))

/-- A domain of the list is dropped when the list is collapsed: a parent of it in the list is not
shadowed. -/
def Dropped (ds : List Bytes) (d : Bytes) : Prop := ∃ a ∈ ds, StrictlyBelow d a ∧ ¬ Shadowed ds a

instance (ds : List Bytes) (d : Bytes) : Decidable (Dropped ds d) :=
  inferInstanceAs (Decidable (∃ a ∈ ds, _))

theorem not_dropped_iff {ds : List Bytes} {d : Bytes} :
    ¬ Dropped ds d ↔ ∀ a ∈ ds, StrictlyBelow d a → Shadowed ds a := by
  simp only [Dropped, not_exists, not_and, not_not]

theorem Normalized.mem_adFinal (h : l.Normalized t) {d : Bytes} :
    d ∈ l.adFinal ↔
      d ∈ l.adInc ∧ d ∉ l.adAllExc ∧ ¬ Dropped (l.adInc ++ l.adAllExc) d := by
  rw [adFinal, mem_splitZone_iff fun d hd => h.valid hd, not_dropped_iff]

theorem Normalized.mem_adExcl (h : l.Normalized t) {d : Bytes} :
    d ∈ l.adExcl ↔ d ∈ l.adExclRaw ∧ ¬ Dropped l.adExclRaw d := by
  rw [adExcl, mem_collapseDomains_iff_of_valid fun d hd => h.valid_of_mem_adExclRaw hd,
    not_dropped_iff]

/-! ## Which domains pass -/

/-- The domain passes: it is at or below an exception that is kept when the exceptions are
collapsed, and every domain to block from there down to it, itself included, is an exception too, or
is dropped when the union of all lists is collapsed. -/
def Passes (l : AdblockLists) (d : Bytes) : Prop :=
  ∃ e ∈ l.adExclRaw, Below d e ∧ ¬ Dropped l.adExclRaw e ∧
    ∀ b ∈ l.adInc, b ∉ l.adAllExc → Below d b → StrictlyBelow b e →
      Dropped (l.adInc ++ l.adAllExc) b

instance (l : AdblockLists) (d : Bytes) : Decidable (l.Passes d) :=
  inferInstanceAs (Decidable (∃ e ∈ l.adExclRaw, _))

/-- **The zone lets a domain pass if and only if it `Passes`.** -/
theorem Normalized.evaluate_iff (h : l.Normalized t) (path : Bytes) {d : Bytes} (hd : d ≠ []) :
    evaluate (rpzEntries path l.adFinal l.adExcl false) d = some .passthru ↔ l.Passes d := by
  rw [evaluate_eq_passthru_iff]
  · simp only [h.mem_adExcl, h.mem_adFinal, Passes]
    constructor
    · rintro ⟨e, ⟨he, hkept⟩, hde, hfree⟩
      refine ⟨e, he, hde, hkept, fun b hb hexc hdb hbe => ?_⟩
      by_contra hdrop
      exact hfree b ⟨hb, hexc, hdrop⟩ hdb hbe
    · rintro ⟨e, he, hde, hkept, hfree⟩
      exact ⟨e, ⟨he, hkept⟩, hde, fun b ⟨hb, hexc, hdrop⟩ hdb hbe =>
        hdrop (hfree b hb hexc hdb hbe)⟩
  · exact fun d hd => h.valid (List.mem_append_left _ (h.mem_adFinal.1 hd).1)
  · exact fun e he => h.valid_of_mem_adExclRaw (h.mem_adExcl.1 he).1
  · exact fun d hd he =>
      (h.mem_adFinal.1 hd).2.1 (l.mem_adAllExc.2 (.inl (h.mem_adExcl.1 he).1))
  · exact hd

end AdblockLists

/-! ## The lists as they are loaded -/

theorem normalized_loadDomainsWithRules {sys : System} {cfg : CompileConfig} {d : Disk}
    {name : Bytes} {filterCasino : Bool} {r : DomainRule}
    (h : r ∈ (loadDomainsWithRules sys cfg d name filterCasino).rules) :
    Normalized sys.toTables r.domain := by
  obtain ⟨p, -, hr⟩ :=
    (mem_rules_loadDomainsWithRules_iff (l := (name, filterCasino))).1 h
  obtain ⟨text, -, hr⟩ := mem_rules_validateFile.1 hr
  exact normalized_of_mem_validateLine hr

/-- `har`, `hae` and `exG` of `CompileLists`. -/
def adblockLists (sys : System) (cfg : CompileConfig) (d : Disk) : AdblockLists where
  har := if cfg.blockAds then
    (loadDomainsWithRules sys cfg d (str "include-adblock-hosts") false).rules else []
  hae := if cfg.blockAds then
    (loadDomainsWithRules sys cfg d (str "exclude-adblock-hosts") false).rules else []
  exG := (loadDomainsWithRules sys cfg d (str "remove-hosts") false).rules

theorem normalized_adblockLists (sys : System) (cfg : CompileConfig) (d : Disk) :
    (adblockLists sys cfg d).Normalized sys.toTables := by
  intro r hr
  simp only [adblockLists, List.mem_append] at hr
  rcases hr with (hr | hr) | hr
  · split_ifs at hr
    · exact normalized_loadDomainsWithRules hr
    · simp at hr
  · split_ifs at hr
    · exact normalized_loadDomainsWithRules hr
    · simp at hr
  · exact normalized_loadDomainsWithRules hr

/-- What the list of exceptions is for: no domain of it is blocked by an entry of its own, each has
an entry at or above it that lets it pass, and the zone does let it pass. -/
def WhitelistHonoured (path : Bytes) (l : AdblockLists) : Prop :=
  ∀ r ∈ l.hae, r.domain ∉ l.adFinal ∧ (∃ e ∈ l.adExcl, Below r.domain e) ∧
    evaluate (rpzEntries path l.adFinal l.adExcl false) r.domain = some .passthru

/-- **When the whitelist is honoured**: for any files and settings, exactly if every domain of the
list of exceptions `Passes`. -/
theorem whitelist_honoured_iff (sys : System) (cfg : CompileConfig) (d : Disk) (path : Bytes) :
    WhitelistHonoured path (adblockLists sys cfg d) ↔
      ∀ r ∈ (adblockLists sys cfg d).hae, (adblockLists sys cfg d).Passes r.domain := by
  have hnorm := normalized_adblockLists sys cfg d
  refine forall₂_congr fun r hr => ?_
  have hne : r.domain ≠ [] :=
    (hnorm r (List.mem_append_left _ (List.mem_append_right _ hr))).1
  rw [hnorm.evaluate_iff path hne]
  refine ⟨fun h => h.2.2, fun h => ⟨fun hfinal => ?_, ?_, h⟩⟩
  · -- a domain with an entry of its own is blocked by it
    obtain ⟨hinc, hexc, hdrop⟩ := hnorm.mem_adFinal.1 hfinal
    obtain ⟨e, he, hde, -, hfree⟩ := h
    rcases hde with hde | hde
    · exact hexc ((adblockLists sys cfg d).mem_adAllExc.2 (.inl (hde ▸ he)))
    · exact hdrop (hfree _ hinc hexc (.inl rfl) hde)
  · obtain ⟨e, he, hde, hkept, -⟩ := h
    exact ⟨e, hnorm.mem_adExcl.2 ⟨he, hkept⟩, hde⟩

/-- **A line of the whitelist can block what it names**: the only line of the list of exceptions is
`||ads.example.com^`. -/
theorem whitelist_line_blocks :
    let d : Disk :=
      AList.singleton (str "/m/exclude-adblock-hosts.txt") ⟨str "||ads.example.com^", 1⟩
    let l := adblockLists plainSystem plainConfig d
    l.hae.map (·.domain) = [str "ads.example.com"] ∧ l.adFinal = [str "ads.example.com"] ∧
      l.adExcl = [] ∧ ¬ WhitelistHonoured (str "adblock.rpz") l := by
  intro d l
  have hhae : l.hae = [⟨str "ads.example.com", false⟩] := by decide +kernel
  have hfinal : l.adFinal = [str "ads.example.com"] := by decide +kernel
  refine ⟨by rw [hhae]; rfl, hfinal, by decide +kernel, fun h => ?_⟩
  exact (h ⟨str "ads.example.com", false⟩ (by simp [hhae])).1 (by simp [hfinal])

end NextPath.Parser
