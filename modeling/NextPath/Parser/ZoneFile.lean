import NextPath.Parser.Compile
import NextPath.Parser.Inclusions
import NextPath.Parser.ReadBack

/-!
# Reading a zone file

The resolver reads the zones that `writeRPZFile` writes. Of its reader the lines matter that are
written: a record takes a line, its columns are separated by blanks, a name is relative to the root
whether or not it ends in a dot, and of the records those of type `CNAME` are entries.

`proxy.rpz` and `adblock.rpz` have no other lines than these, since only lists whose name contains
`rpz` are copied line by line (`rawRules_loadDomainsWithRules`).

* `readZone_rpzText`: a zone is read as its entries;
* `readZone_content`: so are the two zones of a call of the compiler.
-/

namespace NextPath.Parser

open Strings

/-! ## The reader -/

/-- The columns of a line. -/
def columns (line : Bytes) : List Bytes := (line.splitOn (chr ' ')).filter (· ≠ [])

/-- A name without the dot at its end. -/
def dotless (name : Bytes) : Bytes := if hasSuffix name (str ".") then name.dropLast else name

/-- The owner of a record, and whether it is a wildcard. -/
def readOwner (owner : Bytes) : Bool × Bytes :=
  let name := dotless owner
  if name = str "*" then (true, [])
  else if hasPrefix name (str "*.") then (true, name.drop 2)
  else (false, name)

/-- The target that asks for an action. -/
def Action.target : Action → Bytes
  | passthru => str "rpz-passthru."
  | proxy => str "."

/-- The action that a target asks for. -/
def readTarget (target : Bytes) : Option Action :=
  if target = Action.proxy.target then some .proxy
  else if target = Action.passthru.target then some .passthru
  else none

/-- The entry of a line. -/
def readRecord (line : Bytes) : Option Entry :=
  match columns line with
  | [owner, type, target] =>
    if type = str "CNAME" then
      (readTarget target).map fun action => ⟨(readOwner owner).1, (readOwner owner).2, action⟩
    else none
  | _ => none

/-- The entries of a zone file. -/
def readZone (text : Bytes) : List Entry := (text.splitOn (chr '\n')).filterMap readRecord

/-! ## Lines -/

theorem readZone_append {line : Bytes} (h : chr '\n' ∉ line) (text : Bytes) :
    readZone (line ++ chr '\n' :: text) = (readRecord line).toList ++ readZone text := by
  rw [readZone, List.splitOn_append_cons_self, List.splitOn_eq_singleton h,
    List.filterMap_append, readZone]
  cases hline : readRecord line <;> simp [hline]

theorem columns_append {column : Bytes} (h : chr ' ' ∉ column) (hne : column ≠ []) (rest : Bytes) :
    columns (column ++ chr ' ' :: rest) = column :: columns rest := by
  rw [columns, List.splitOn_append_cons_self, List.splitOn_eq_singleton h, List.filter_append,
    List.filter_cons_of_pos (by simpa using hne)]
  rfl

theorem readTarget_target (action : Action) : readTarget action.target = some action := by
  cases action <;> decide +kernel

/-- **A record** of type `CNAME` is read as an entry. -/
theorem readRecord_cname {owner : Bytes} (h : chr ' ' ∉ owner) (hne : owner ≠ [])
    (action : Action) :
    readRecord (owner ++ str " CNAME " ++ action.target) =
      some ⟨(readOwner owner).1, (readOwner owner).2, action⟩ := by
  have hline : owner ++ str " CNAME " ++ action.target =
      owner ++ chr ' ' :: (str "CNAME" ++ chr ' ' :: action.target) := by
    rw [List.append_assoc]
    rfl
  have htarget : columns action.target = [action.target] := by cases action <;> decide +kernel
  rw [readRecord, hline, columns_append h hne, columns_append (by decide) (by decide), htarget]
  simp [readTarget_target]

/-! ## The names that are written -/

theorem dotless_append (d : Bytes) : dotless (d ++ str ".") = d := by
  rw [dotless, if_pos (hasSuffix_iff.2 (List.suffix_append _ _))]
  exact List.dropLast_concat

theorem readOwner_name {d : Bytes} (h : Valid d) : readOwner (d ++ str ".") = (false, d) := by
  have hstar : chr '*' ∉ d := h.notMem (by decide)
  have hne : d ≠ str "*" := by
    rintro rfl
    exact hstar (by decide)
  have hpre : hasPrefix d (str "*.") = false :=
    not_hasPrefix_of_valid h _ List.mem_cons_self (by decide)
  simp only [readOwner, dotless_append, if_neg hne, hpre, Bool.false_eq_true, if_false]

theorem readOwner_wildcard (d : Bytes) : readOwner (str "*." ++ d ++ str ".") = (true, d) := by
  have hne : str "*." ++ d ≠ str "*" := fun heq => by
    have := congrArg List.length heq
    simp [str] at this
  have hpre : hasPrefix (str "*." ++ d) (str "*.") = true :=
    hasPrefix_iff.2 (List.prefix_append _ _)
  simp only [readOwner, dotless_append, if_neg hne, hpre, if_true]
  rfl

/-- The two lines of a domain. -/
theorem readZone_pair {d : Bytes} (h : Valid d) (action : Action) (text : Bytes) :
    readZone (d ++ str ". CNAME " ++ action.target ++ str "\n*." ++ d ++ str ". CNAME " ++
      action.target ++ str "\n" ++ text) = Entry.pair action d ++ readZone text := by
  have hnl : chr '\n' ∉ d := h.notMem (by decide)
  have hblank : chr ' ' ∉ d := h.notMem (by decide)
  have htarget : chr '\n' ∉ action.target := by cases action <;> decide
  have hfree : chr '\n' ∉ str "." ∧ chr '\n' ∉ str " CNAME " ∧ chr '\n' ∉ str "*." ∧
      chr ' ' ∉ str "." ∧ chr ' ' ∉ str "*." := by decide
  have hname : readRecord (d ++ str "." ++ str " CNAME " ++ action.target) =
      some ⟨false, d, action⟩ := by
    rw [readRecord_cname (by simp [hblank, hfree]) (by simp [h.ne_nil]), readOwner_name h]
  have hwild : readRecord (str "*." ++ d ++ str "." ++ str " CNAME " ++ action.target) =
      some ⟨true, d, action⟩ := by
    rw [readRecord_cname (by simp [hblank, hfree]) (by simp [h.ne_nil]), readOwner_wildcard]
  have htext : d ++ str ". CNAME " ++ action.target ++ str "\n*." ++ d ++ str ". CNAME " ++
      action.target ++ str "\n" ++ text =
      (d ++ str "." ++ str " CNAME " ++ action.target) ++ chr '\n' ::
        ((str "*." ++ d ++ str "." ++ str " CNAME " ++ action.target) ++ chr '\n' :: text) := by
    simp only [show str ". CNAME " = str "." ++ str " CNAME " from rfl,
      show str "\n*." = chr '\n' :: str "*." from rfl, show str "\n" = [chr '\n'] from rfl,
      List.append_assoc, List.cons_append, List.nil_append]
  rw [htext, readZone_append (by simp [hnl, htarget, hfree]),
    readZone_append (by simp [hnl, htarget, hfree]), hname, hwild]
  rfl

theorem readZone_pairs {ds : List Bytes} (h : ∀ d ∈ ds, Valid d) (action : Action) (text : Bytes) :
    readZone ((ds.flatMap fun d => d ++ str ". CNAME " ++ action.target ++ str "\n*." ++ d ++
        str ". CNAME " ++ action.target ++ str "\n") ++ text) =
      ds.flatMap (Entry.pair action) ++ readZone text := by
  induction ds with
  | nil => rfl
  | cons d ds ih =>
    rw [List.flatMap_cons, List.append_assoc, readZone_pair (h d List.mem_cons_self),
      ih fun d hd => h d (List.mem_cons_of_mem _ hd), List.flatMap_cons, List.append_assoc]

/-- The lines of a list. -/
theorem readZone_cnameLines {ds : List Bytes} (h : ∀ d ∈ ds, Valid d) (action : Action)
    (text : Bytes) :
    readZone (cnameLines ds action.target ++ text) =
      ((ds.insertionSort (· ≤ ·)).filter fun d => d ≠ [] && d ≠ str ".").flatMap
        (Entry.pair action) ++ readZone text :=
  readZone_pairs (fun d hd => h d ((List.mem_insertionSort _).1 (List.mem_of_mem_filter hd))) action
    text

/-! ## Zones -/

theorem newline_notMem_decimal (n : ℤ) : chr '\n' ∉ decimal n := by
  have hdigits : chr '\n' ∉ numeral 10 n.natAbs := fun h =>
    absurd (isDigit_of_mem_numeral h) (by decide)
  rw [decimal]
  split_ifs
  · exact List.not_mem_cons_of_ne_of_not_mem (by decide) hdigits
  · exact hdigits

/-- The first two lines of a zone are no entries. -/
theorem readZone_header (unix : ℤ) (text : Bytes) :
    readZone (str "$TTL 10800\n@ SOA . . (" ++ decimal unix ++ str " 1 1 1 10800)\n" ++ text) =
      readZone text := by
  have hsoa : readRecord (str "@ SOA . . (" ++ decimal unix ++ str " 1 1 1 10800)") = none := by
    have hline : str "@ SOA . . (" ++ decimal unix ++ str " 1 1 1 10800)" =
        str "@" ++ chr ' ' :: (str "SOA" ++ chr ' ' :: (str ". . (" ++ decimal unix ++
          str " 1 1 1 10800)")) := rfl
    rw [readRecord, hline, columns_append (by decide) (by decide),
      columns_append (by decide) (by decide)]
    split
    · next h =>
      obtain ⟨-, h⟩ := List.cons.inj h
      obtain ⟨rfl, -⟩ := List.cons.inj h
      exact if_neg (by decide)
    · rfl
  have htext : str "$TTL 10800\n@ SOA . . (" ++ decimal unix ++ str " 1 1 1 10800)\n" ++ text =
      str "$TTL 10800" ++ chr '\n' :: ((str "@ SOA . . (" ++ decimal unix ++
        str " 1 1 1 10800)") ++ chr '\n' :: text) := by
    simp only [show str "$TTL 10800\n@ SOA . . (" = str "$TTL 10800" ++ chr '\n' ::
        str "@ SOA . . (" from rfl,
      show str " 1 1 1 10800)\n" = str " 1 1 1 10800)" ++ [chr '\n'] from rfl,
      List.append_assoc, List.cons_append, List.nil_append]
  have hfree : chr '\n' ∉ str "@ SOA . . (" ∧ chr '\n' ∉ str " 1 1 1 10800)" := by decide
  rw [htext, readZone_append (by decide),
    readZone_append (by simp [newline_notMem_decimal, hfree]), hsoa]
  rfl

/-- **A zone is read as its entries**, if nothing else was copied into it. -/
theorem readZone_rpzText {z : ZoneLists} (hraw : z.rawRules = []) (hd : ∀ d ∈ z.domains, Valid d)
    (he : ∀ e ∈ z.excl, Valid e) (unix : ℤ) (path : Bytes) :
    readZone (rpzText unix path z) = rpzEntries path z.domains z.excl z.routeAll := by
  have hroot (text : Bytes) : readZone ((if z.routeAll && contains path (str "proxy") then
      str "* CNAME .\n" else []) ++ text) = (if z.routeAll && contains path (str "proxy") then
      [⟨true, [], .proxy⟩] else []) ++ readZone text := by
    have hline : chr '\n' ∉ str "* CNAME ." := by decide
    split_ifs
    · exact readZone_append hline text
    · rfl
  have hexcl := readZone_cnameLines he .passthru (cnameLines z.domains (str "."))
  have hend : readZone (cnameLines z.domains (str ".")) =
      ((z.domains.insertionSort (· ≤ ·)).filter fun d => d ≠ [] && d ≠ str ".").flatMap
        (Entry.pair .proxy) := by
    have := readZone_cnameLines hd .proxy []
    rwa [List.append_nil, show readZone [] = [] from rfl, List.append_nil] at this
  rw [rpzText, hraw, List.flatMap_nil, List.append_nil, List.append_assoc, List.append_assoc,
    readZone_header, hroot, show str "rpz-passthru." = Action.passthru.target from rfl, hexcl, hend]
  simp only [rpzEntries, List.append_assoc]

/-! ## What a zone says -/

/-- Without a root entry, a zone says nothing about a name exactly if none of its domains and
exceptions is at or above it. -/
theorem evaluate_eq_none_iff {domains excl : List Bytes} (hd : ∀ d ∈ domains, Valid d)
    (he : ∀ e ∈ excl, Valid e) (path : Bytes) {n : Bytes} (hn : n ≠ []) :
    evaluate (rpzEntries path domains excl false) n = none ↔
      ∀ d ∈ domains ++ excl, ¬ Below n d := by
  have hentry (y : Bytes) :
      entryAt (rpzEntries path domains excl false) true y = none ↔ y ∉ domains ++ excl := by
    simp only [rpzEntries, Bool.false_and, Bool.false_eq_true, if_false, List.nil_append,
      entryAt_append, entryAt_pairs, mem_written hd, mem_written he, List.mem_append, not_or]
    by_cases hy : y ∈ excl
    · simp [hy]
    · simp [hy]
  have hnil : [] ∉ domains ++ excl := fun h =>
    (List.mem_append.1 h).elim (fun h => (hd _ h).ne_nil rfl) fun h => (he _ h).ne_nil rfl
  rw [evaluate_eq_findSome? hd he hn, List.findSome?_eq_none_iff]
  simp only [hentry, ← List.cons_append, List.mem_append (s := n :: parents n), mem_cons_parents,
    List.mem_singleton]
  constructor
  · intro h d hmem hbelow
    exact h d (.inl hbelow) hmem
  · rintro h y (hy | rfl) hmem
    · exact h y hmem hy
    · exact hnil hmem

/-- The zone has an entry for the root. -/
def rooted (path : Bytes) (routeAll : Bool) : Bool := routeAll && contains path (str "proxy")

theorem entryAt_nil_of_rooted {domains excl : List Bytes} {path : Bytes} {routeAll : Bool}
    (h : rooted path routeAll = true) :
    entryAt (rpzEntries path domains excl routeAll) true [] = some .proxy := by
  rw [rooted] at h
  simp only [rpzEntries, h, if_true, List.cons_append]
  rfl

theorem rpzEntries_of_not_rooted {domains excl : List Bytes} {path : Bytes} {routeAll : Bool}
    (h : rooted path routeAll = false) :
    rpzEntries path domains excl routeAll = rpzEntries path domains excl false := by
  rw [rooted] at h
  simp only [rpzEntries, h, Bool.false_and]

section Clear

variable {inc exc : List Bytes} (h : ∀ d ∈ inc ++ exc, Valid d)
include h

theorem valid_splitZone_fst : ∀ d ∈ (splitZone inc exc).1, Valid d := fun d hd =>
  h d (List.mem_append_left _ (mem_inc_of_mem_splitZone hd))

theorem valid_splitZone_snd : ∀ e ∈ (splitZone inc exc).2, Valid e := fun e he =>
  h e (List.mem_append_right _ (mem_collapseDomains_iff.1 he).1)

/-- A name that is not below an excluded domain does not pass as an exception. -/
theorem evaluate_ne_passthru (path : Bytes) (routeAll : Bool) {n : Bytes} (hn : n ≠ [])
    (hexc : ∀ e ∈ exc, ¬ Below n e) :
    evaluate (zoneOf path routeAll (splitZone inc exc)) n ≠ some .passthru := by
  have hdisj : ∀ d ∈ (splitZone inc exc).1, d ∉ (splitZone inc exc).2 := fun d hd he =>
    ((mem_splitZone_iff h).1 hd).2.1 (mem_collapseDomains_iff.1 he).1
  rw [zoneOf, Ne, evaluate_eq_passthru_iff (valid_splitZone_fst h) (valid_splitZone_snd h) hdisj hn]
  rintro ⟨e, he, hne, -⟩
  exact hexc e (mem_collapseDomains_iff.1 he).1 hne

/-- **What a zone of clear lists proxies**: the names at or below an included domain, or all of
them, that are not at or below an excluded one. -/
theorem evaluate_eq_proxy_iff (hclear : Clear inc exc) (path : Bytes) (routeAll : Bool) {n : Bytes}
    (hn : n ≠ []) :
    evaluate (zoneOf path routeAll (splitZone inc exc)) n = some .proxy ↔
      (rooted path routeAll = true ∨ ∃ d ∈ inc, Below n d) ∧ ∀ e ∈ exc, ¬ Below n e := by
  have hd := valid_splitZone_fst h
  have he := valid_splitZone_snd h
  constructor
  · intro hev
    have hexc : ∀ e ∈ exc, ¬ Below n e := fun e he hne =>
      (honoured_splitZone_iff h path routeAll).2 hclear n e he hne hev
    refine ⟨?_, hexc⟩
    cases hroot : rooted path routeAll with
    | true => exact .inl rfl
    | false =>
      refine .inr ?_
      by_contra hinc
      -- nothing is at or above the name, so that the zone says nothing about it
      have hnone : evaluate (zoneOf path routeAll (splitZone inc exc)) n = none := by
        rw [zoneOf, rpzEntries_of_not_rooted hroot, evaluate_eq_none_iff hd he path hn]
        intro d hmem hnd
        rcases List.mem_append.1 hmem with hmem | hmem
        · exact hinc ⟨d, mem_inc_of_mem_splitZone hmem, hnd⟩
        · exact hexc d (mem_collapseDomains_iff.1 hmem).1 hnd
      rw [hnone] at hev
      cases hev
  · rintro ⟨hinc, hexc⟩
    have hsome : evaluate (zoneOf path routeAll (splitZone inc exc)) n ≠ none := by
      rcases hinc with hroot | ⟨d, hdinc, hnd⟩
      · rw [zoneOf, evaluate_eq_findSome? hd he hn, ← Option.isSome_iff_ne_none,
          List.findSome?_isSome_iff]
        exact ⟨[], by simp, by rw [entryAt_nil_of_rooted hroot]; rfl⟩
      · obtain ⟨k, hk, hnk⟩ := exists_mem_splitZone hdinc hnd hexc
        have hact : actionAt (splitZone inc exc).1 (splitZone inc exc).2 k ≠ none := by
          rw [actionAt]
          split_ifs <;> simp
        obtain ⟨a, -, -, ha, hev, -⟩ := exists_nearest path routeAll hd he hact (hd k hk).ne_nil hnk
        rw [zoneOf, hev]
        exact ha
    have hpass := evaluate_ne_passthru h path routeAll hn hexc
    cases hev : evaluate (zoneOf path routeAll (splitZone inc exc)) n with
    | none => exact absurd hev hsome
    | some action =>
      cases action with
      | passthru => exact absurd hev hpass
      | proxy => rfl

end Clear

/-! ## The zones of a call -/

theorem Loaded.rawRules_concat {l : List Loaded} (h : ∀ x ∈ l, x.rawRules = []) :
    (Loaded.concat l).rawRules = [] := by
  induction l with
  | nil => rfl
  | cons x l ih =>
    have hcons : (Loaded.concat (x :: l)).rawRules = x.rawRules ++ (Loaded.concat l).rawRules := rfl
    rw [hcons, h x List.mem_cons_self, ih fun y hy => h y (List.mem_cons_of_mem x hy)]
    rfl

theorem Loaded.rawRules_rule (filterCasino : Bool) (r : DomainRule) :
    (Loaded.rule filterCasino r).rawRules = [] := by
  rw [Loaded.rule]
  split_ifs <;> rfl

/-- Lines are copied from the lists for `deny.rpz` and `deny2.rpz` only. -/
theorem rawRules_validateLine {k : Kind} (h : k.isRpz = false) (t : Tables) (text : Bytes) :
    (validateLine t k text).rawRules = [] := by
  have hfield (field : Bytes) : (validateField t k field).rawRules = [] := by
    simp only [validateField]
    split_ifs
    · rfl
    · rfl
    · exact Loaded.rawRules_rule _ _
  simp only [validateLine, h, Bool.false_eq_true, if_false]
  split_ifs
  · rfl
  · refine Loaded.rawRules_concat fun x hx => ?_
    obtain ⟨field, -, rfl⟩ := List.mem_map.1 hx
    exact hfield field
  · rfl
  · split
    · exact Loaded.rawRules_rule _ _
    · rfl

theorem rawRules_loadDomainsWithRules {name : Bytes} (h : contains name (str "rpz") = false)
    (sys : System) (cfg : CompileConfig) (d : Disk) (filterCasino : Bool) :
    (loadDomainsWithRules sys cfg d name filterCasino).rawRules = [] := by
  have hfile (content : Bytes) :
      (validateFile sys.toTables sys.gunzip (kindOf name filterCasino) content).rawRules = [] := by
    refine Loaded.rawRules_concat fun x hx => ?_
    obtain ⟨text, -, rfl⟩ := List.mem_map.1 hx
    exact rawRules_validateLine h _ text
  refine Loaded.rawRules_concat fun x hx => ?_
  rcases List.mem_append.1 hx with hx | hx
  · obtain ⟨content, -, rfl⟩ := List.mem_map.1 hx
    exact hfile content
  · rw [List.mem_singleton.1 hx]
    exact hfile _

namespace Call

variable (c : Call)

/-- The lists that `proxy.rpz` is compiled from. -/
def proxyLists : ProxyLists where
  hpr := (c.load (str "include-hosts") c.config.filterCasino).rules
  exPOnly := (c.load (str "exclude-hosts") false).rules
  exG := (c.load (str "remove-hosts") false).rules

theorem normalized_proxyLists :
    ∀ r ∈ c.proxyLists.hpr ++ c.proxyLists.exPOnly ++ c.proxyLists.exG,
      Normalized c.sys.toTables r.domain := by
  intro r hr
  rw [List.mem_append, List.mem_append] at hr
  rcases hr with (hr | hr) | hr <;> exact normalized_loadDomainsWithRules hr

/-- The lists that `adblock.rpz` is compiled from. -/
def adLists : AdblockLists := adblockLists c.sys c.config c.disk

/-- The included and the excluded domains are valid names. -/
theorem valid_proxyLists {d : Bytes}
    (hd : d ∈ c.proxyLists.piS c.sys.toTables ++ c.proxyLists.pExcRaw) : Valid d := by
  have hrules := c.normalized_proxyLists
  simp only [List.mem_append] at hrules
  rcases List.mem_append.1 hd with hd | hd
  · exact valid_of_mem_piS (fun r hr => hrules r (.inl (.inl hr))) hd
  · refine valid_of_mem_domainSet (fun r hr => hrules r ?_) hd
    simp only [List.mem_append, List.mem_filter] at hr
    rcases hr with (hr | hr) | ⟨hr, -⟩
    · exact .inr hr
    · exact .inl (.inr hr)
    · exact .inl (.inl hr)

/-- The entries of `proxy.rpz`. -/
def proxyEntries : List Entry :=
  zoneOf (c.path .proxy) c.config.routeAll (compileProxy c.sys.toTables c.proxyLists)

/-- The entries of `adblock.rpz`. -/
def adblockEntries : List Entry :=
  rpzEntries (c.path .adblock) c.adLists.adFinal c.adLists.adExcl false

/-- Nothing is copied into `proxy.rpz`. -/
theorem proxyZone_eq :
    c.proxyZone = ⟨(splitZone (c.proxyLists.piS c.sys.toTables) c.proxyLists.pExcRaw).1,
      (splitZone (c.proxyLists.piS c.sys.toTables) c.proxyLists.pExcRaw).2, [],
      c.config.routeAll⟩ := by
  have hraw : (c.load (str "include-hosts") c.config.filterCasino).rawRules = [] :=
    rawRules_loadDomainsWithRules (by decide +kernel) _ _ _ _
  simp only [proxyZone, hraw]
  rfl

/-- Nothing is copied into `adblock.rpz`. -/
theorem adblockZone_eq : c.adblockZone = ⟨c.adLists.adFinal, c.adLists.adExcl, [], false⟩ := by
  have hraw : (c.load (str "include-adblock-hosts") false).rawRules = [] :=
    rawRules_loadDomainsWithRules (by decide +kernel) _ _ _ _
  simp only [adblockZone, hraw, ite_self]
  rfl

theorem normalized_adLists : c.adLists.Normalized c.sys.toTables := normalized_adblockLists _ _ _

/-- All names are to be proxied. -/
def routesAll : Bool := rooted (c.path .proxy) c.config.routeAll

/-- **What `proxy.rpz` proxies**, if the lists are clear. -/
theorem evaluate_proxyEntries_iff
    (hclear : Clear (c.proxyLists.piS c.sys.toTables) c.proxyLists.pExcRaw) {n : Bytes}
    (hn : n ≠ []) :
    evaluate c.proxyEntries n = some .proxy ↔
      (c.routesAll = true ∨
        ∃ d, c.proxyLists.Included d ∧ Below n (stripPrefix c.sys.toTables d)) ∧
      ∀ e, c.proxyLists.Excluded e → ¬ Below n e := by
  rw [proxyEntries, compileProxy, evaluate_eq_proxy_iff (fun d hd => c.valid_proxyLists hd) hclear
    _ _ hn, routesAll]
  simp only [ProxyLists.mem_piS, ProxyLists.mem_pExcRaw]
  refine and_congr_left fun _ => or_congr_right ⟨?_, ?_⟩
  · rintro ⟨_, ⟨d, hd, rfl⟩, hn⟩
    exact ⟨d, hd, hn⟩
  · rintro ⟨d, hd, hn⟩
    exact ⟨_, ⟨d, hd, rfl⟩, hn⟩

/-- `adblock.rpz` says nothing about a name that is below no domain that is left to block and below
no exception. -/
theorem evaluate_adblockEntries_eq_none_iff {n : Bytes} (hn : n ≠ []) :
    evaluate c.adblockEntries n = none ↔
      (∀ d ∈ c.adLists.adFinal, ¬ Below n d) ∧ ∀ e ∈ c.adLists.adExclRaw, ¬ Below n e := by
  have had := c.normalized_adLists
  rw [adblockEntries, evaluate_eq_none_iff
    (fun d hd => had.valid (List.mem_append_left _ (had.mem_adFinal.1 hd).1))
    (fun e he => had.valid_of_mem_adExclRaw (had.mem_adExcl.1 he).1) _ hn]
  simp only [List.mem_append, or_imp, forall_and]
  refine and_congr_right fun _ => ?_
  have hcollapse : (∃ e ∈ c.adLists.adExcl, Below n e) ↔ ∃ e ∈ c.adLists.adExclRaw, Below n e :=
    exists_below_collapseDomains_iff
  simpa using not_congr hcollapse

/-- **The zones of a call are read as their entries.** -/
theorem readZone_content (unix : ℤ) :
    readZone (c.content .proxy unix) = c.proxyEntries ∧
      readZone (c.content .adblock unix) = c.adblockEntries := by
  have had := c.normalized_adLists
  have hvalid : ∀ d ∈ c.proxyLists.piS c.sys.toTables ++ c.proxyLists.pExcRaw, Valid d :=
    fun d hd => c.valid_proxyLists hd
  have hd := valid_splitZone_fst hvalid
  have he := valid_splitZone_snd hvalid
  constructor
  · rw [content, proxyZone_eq, proxyEntries, compileProxy, zoneOf,
      readZone_rpzText (z := ⟨_, _, [], _⟩) rfl hd he]
  · rw [content, adblockZone_eq, adblockEntries,
      readZone_rpzText (z := ⟨c.adLists.adFinal, c.adLists.adExcl, [], false⟩) rfl
        (fun d hd => had.valid (List.mem_append_left _ (had.mem_adFinal.1 hd).1))
        fun e he => had.valid_of_mem_adExclRaw (had.mem_adExcl.1 he).1]

end Call

end NextPath.Parser
