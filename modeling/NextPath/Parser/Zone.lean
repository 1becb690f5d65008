import Mathlib.Data.List.Dedup
import NextPath.Parser.Collapse

/-!
# The response policy zones

`buildSimpleRPZ` and the part of `CompileLists` that builds `proxy.rpz` both split a set of included
and a set of excluded domains into the domains of a zone and its exceptions (`splitZone`), and
`writeRPZFile` writes an entry for each name and one for the names below it. `evaluate` is what the
resolver that reads the zone does: the most specific entry wins.

Whether an included domain below an excluded one is dropped is decided by collapsing the union of
both sets, where a third domain can hide the excluded one:

* `entryAt_rpzEntries`: the entry of a zone for a name;
* `honoured_rpzEntries_iff`: the exceptions of a zone hold if and only if no domain of it is below
  an excluded one;
* `honoured_splitZone_iff`: that is so if and only if the lists are `Clear`.
-/

namespace NextPath.Parser

open Strings

/-! ## Entries and their evaluation -/

/-- What an entry asks for: `CNAME rpz-passthru.` or `CNAME .`. -/
inductive Action
  | passthru
  | proxy
  deriving DecidableEq

/-- An entry `owner. CNAME …` of a zone, or `*.owner. CNAME …`. -/
structure Entry where
  wildcard : Bool
  owner : Bytes
  action : Action
  deriving DecidableEq

/-- The entries written for a domain. -/
def Entry.pair (action : Action) (d : Bytes) : List Entry :=
  [⟨false, d, action⟩, ⟨true, d, action⟩]

/-- `writeRPZFile`: the entries it writes for its two lists, in the order of the file. -/
def rpzEntries (path : Bytes) (domains excl : List Bytes) (routeAll : Bool) : List Entry :=
  let root := if routeAll && contains path (str "proxy") then [⟨true, [], .proxy⟩] else []
  let written (ds : List Bytes) :=
    (ds.insertionSort (· ≤ ·)).filter fun d => d ≠ [] && d ≠ str "."
  root ++ (written excl).flatMap (Entry.pair .passthru) ++
    (written domains).flatMap (Entry.pair .proxy)

/-- The proper parents of a name, the closest one first. -/
def parents : Bytes → List Bytes
  | [] => []
  | c :: s => if c = chr '.' then s :: parents s else parents s

/-- The action of the entry with a given owner, or of the wildcard below it. -/
def entryAt (zone : List Entry) (wildcard : Bool) (owner : Bytes) : Option Action :=
  (zone.find? fun e => e.wildcard == wildcard && e.owner == owner).map (·.action)

/-- The action of a zone at a name: that of the entry for the name itself, else that of the closest
enclosing wildcard. -/
def evaluate (zone : List Entry) (n : Bytes) : Option Action :=
  (entryAt zone false n).or ((parents n ++ [[]]).findSome? (entryAt zone true))

/-- No name at or below an excluded domain is proxied. -/
def Honoured (zone : List Entry) (excluded : List Bytes) : Prop :=
  ∀ n, ∀ e ∈ excluded, Below n e → evaluate zone n ≠ some .proxy

/-! ## The compiler -/

/-- `DomainRule`. -/
structure DomainRule where
  domain : Bytes
  isEx : Bool
  deriving DecidableEq

/-- The keys of a map filled with these domains. -/
def domainSet (rules : List DomainRule) : List Bytes := (rules.map (·.domain)).dedup

/-- The domains of a zone and its exceptions, from the included and the excluded domains: the union
is collapsed and the excluded ones taken out, and the excluded ones are collapsed by themselves. -/
def splitZone (inc exc : List Bytes) : List Bytes × List Bytes :=
  ((collapseDomains (inc ++ exc)).filter (· ∉ exc), collapseDomains exc)

/-- `inc` of `buildSimpleRPZ`. -/
def simpleInc (rules : List DomainRule) : List Bytes := domainSet (rules.filter (!·.isEx))

/-- `excMap` of `buildSimpleRPZ`. -/
def simpleExc (rules : List DomainRule) : List Bytes := domainSet (rules.filter (·.isEx))

/-- `buildSimpleRPZ`. -/
def buildSimpleRPZ (rules : List DomainRule) : List Bytes × List Bytes :=
  splitZone (simpleInc rules) (simpleExc rules)

/-- The rule lists `proxy.rpz` is compiled from: `include-hosts`, `exclude-hosts` and
`remove-hosts`. -/
structure ProxyLists where
  hpr : List DomainRule
  exPOnly : List DomainRule
  exG : List DomainRule

/-- `piS` of `CompileLists`. -/
def ProxyLists.piS (t : Tables) (l : ProxyLists) : List Bytes :=
  ((domainSet (l.hpr.filter (!·.isEx))).map (stripPrefix t)).dedup

/-- `pExcRaw` of `CompileLists`. -/
def ProxyLists.pExcRaw (l : ProxyLists) : List Bytes :=
  domainSet (l.exG ++ l.exPOnly ++ l.hpr.filter (·.isEx))

/-- The part of `CompileLists` that computes `pDoms` and `pExc`. -/
def compileProxy (t : Tables) (l : ProxyLists) : List Bytes × List Bytes :=
  splitZone (l.piS t) l.pExcRaw

/-! ## Parents -/

theorem mem_parents {n y : Bytes} : y ∈ parents n ↔ StrictlyBelow n y := by
  induction n with
  | nil => simp [parents, StrictlyBelow]
  | cons c s ih =>
    rw [parents, StrictlyBelow, List.suffix_cons_iff, List.cons.injEq]
    split_ifs with hc
    · rw [List.mem_cons, ih]
      exact or_congr ⟨fun h => ⟨hc.symm, h⟩, fun h => h.2⟩ Iff.rfl
    · rw [ih]
      exact ⟨.inr, fun h => h.resolve_left fun h => hc h.1.symm⟩

theorem mem_cons_parents {n y : Bytes} : y ∈ n :: parents n ↔ Below n y := by
  rw [List.mem_cons, mem_parents, Below, eq_comm]

theorem StrictlyBelow.ne_nil {n d : Bytes} (h : StrictlyBelow n d) : n ≠ [] := by
  rintro rfl
  simp [StrictlyBelow] at h

theorem StrictlyBelow.irrefl (n : Bytes) : ¬ StrictlyBelow n n := by
  intro h
  have hlen := h.length_le
  rw [List.length_cons] at hlen
  omega

/-- Each parent is below the ones after it. -/
theorem pairwise_parents (n : Bytes) : (parents n).Pairwise StrictlyBelow := by
  induction n with
  | nil => exact List.Pairwise.nil
  | cons c s ih =>
    rw [parents]
    split_ifs with hc
    · exact List.pairwise_cons.2 ⟨fun y hy => mem_parents.1 hy, ih⟩
    · exact ih

/-! ## The action of a zone -/

theorem entryAt_append (z z' : List Entry) (w : Bool) (n : Bytes) :
    entryAt (z ++ z') w n = (entryAt z w n).or (entryAt z' w n) := by
  rw [entryAt, List.find?_append, Option.map_or]
  rfl

theorem entryAt_pairs (action : Action) (ds : List Bytes) (w : Bool) (n : Bytes) :
    entryAt (ds.flatMap (Entry.pair action)) w n = if n ∈ ds then some action else none := by
  induction ds with
  | nil => rfl
  | cons d ds ih =>
    rw [List.flatMap_cons, entryAt_append, ih]
    by_cases h : d = n
    · cases w <;> simp [entryAt, Entry.pair, h]
    · have h' : n ≠ d := fun he => h he.symm
      cases w <;> simp [entryAt, Entry.pair, h, h']

/-- The action at a name of the entries written for two lists. -/
def actionAt (domains excl : List Bytes) (n : Bytes) : Option Action :=
  if n ∈ excl then some .passthru else if n ∈ domains then some .proxy else none

theorem mem_of_actionAt_proxy {domains excl : List Bytes} {n : Bytes}
    (h : actionAt domains excl n = some .proxy) : n ∈ domains := by
  rw [actionAt] at h
  split_ifs at h with h₁ h₂
  · simp at h
  · exact h₂

theorem mem_written {ds : List Bytes} (h : ∀ d ∈ ds, Valid d) {n : Bytes} :
    n ∈ (ds.insertionSort (· ≤ ·)).filter (fun d => d ≠ [] && d ≠ str ".") ↔ n ∈ ds := by
  rw [List.mem_filter, List.mem_insertionSort]
  refine ⟨fun hn => hn.1, fun hn => ⟨hn, ?_⟩⟩
  simp [(h n hn).ne_nil, (h n hn).ne_dot]

/-- The entry of a zone for a name is the one of its lists, the root wildcard apart. -/
theorem entryAt_rpzEntries {domains excl : List Bytes} (hd : ∀ d ∈ domains, Valid d)
    (he : ∀ e ∈ excl, Valid e) (path : Bytes) (routeAll w : Bool) {n : Bytes} (hn : n ≠ []) :
    entryAt (rpzEntries path domains excl routeAll) w n = actionAt domains excl n := by
  have hroot : entryAt (if routeAll && contains path (str "proxy") then [⟨true, [], .proxy⟩]
      else []) w n = none := by
    split_ifs
    · simp [entryAt, hn]
    · rfl
  simp only [rpzEntries, entryAt_append, entryAt_pairs, hroot, Option.none_or, mem_written hd,
    mem_written he]
  rw [actionAt]
  split_ifs <;> rfl

/-- The root has no exception. -/
theorem entryAt_nil_ne_passthru {domains excl : List Bytes} (hd : ∀ d ∈ domains, Valid d)
    (he : ∀ e ∈ excl, Valid e) (path : Bytes) (routeAll : Bool) :
    entryAt (rpzEntries path domains excl routeAll) true [] ≠ some .passthru := by
  have hexcl : [] ∉ excl := fun h => (he _ h).ne_nil rfl
  simp only [rpzEntries, entryAt_append, entryAt_pairs, mem_written hd, mem_written he,
    if_neg hexcl, Option.or_none]
  split_ifs <;> simp [entryAt]

section Honoured

variable {domains excl exc : List Bytes} {path : Bytes} {routeAll : Bool}

/-- A domain of the zone that is not an exception is proxied. -/
theorem evaluate_of_mem (hd : ∀ d ∈ domains, Valid d) (he : ∀ e ∈ excl, Valid e) {d : Bytes}
    (hmem : d ∈ domains) (hexc : d ∉ excl) :
    evaluate (rpzEntries path domains excl routeAll) d = some .proxy := by
  rw [evaluate, entryAt_rpzEntries hd he path routeAll false (hd d hmem).ne_nil, actionAt,
    if_neg hexc, if_pos hmem]
  rfl

/-- The names at and above a name are met one after the other, also by the root entry. -/
theorem evaluate_eq_findSome? (hd : ∀ d ∈ domains, Valid d) (he : ∀ e ∈ excl, Valid e) {n : Bytes}
    (hn : n ≠ []) :
    evaluate (rpzEntries path domains excl routeAll) n =
      (n :: (parents n ++ [[]])).findSome?
        (entryAt (rpzEntries path domains excl routeAll) true) := by
  rw [evaluate, List.findSome?_cons, entryAt_rpzEntries hd he path routeAll false hn,
    entryAt_rpzEntries hd he path routeAll true hn]
  cases actionAt domains excl n <;> rfl

/-- The entry that decides about a name below one that has an entry. -/
theorem exists_nearest (path : Bytes) (routeAll : Bool) (hd : ∀ d ∈ domains, Valid d)
    (he : ∀ e ∈ excl, Valid e) {n k : Bytes} (hk : actionAt domains excl k ≠ none)
    (hkn : k ≠ []) (hnk : Below n k) :
    ∃ a, Below n a ∧ Below a k ∧ actionAt domains excl a ≠ none ∧
      evaluate (rpzEntries path domains excl routeAll) n = actionAt domains excl a ∧
      ∀ b, Below n b → StrictlyBelow b a → actionAt domains excl b = none := by
  have hbelow {y : Bytes} (hy : Below y k) : y ≠ [] := by
    rcases hy with rfl | hy
    · exact hkn
    · exact hy.ne_nil
  have hfind {y : Bytes} (hy : y ≠ []) := entryAt_rpzEntries hd he path routeAll true hy
  have hmem : k ∈ n :: parents n := mem_cons_parents.2 hnk
  have hpair : (n :: parents n).Pairwise StrictlyBelow :=
    List.pairwise_cons.2 ⟨fun y hy => mem_parents.1 hy, pairwise_parents n⟩
  -- the first name of the chain that has an entry
  obtain ⟨act, hact⟩ : ∃ act, (n :: parents n).findSome?
      (entryAt (rpzEntries path domains excl routeAll) true) = some act :=
    Option.isSome_iff_exists.1 (List.findSome?_isSome_iff.2
      ⟨k, hmem, by rw [hfind hkn]; exact Option.isSome_iff_ne_none.2 hk⟩)
  obtain ⟨l₁, a, l₂, hl, ha, hnone⟩ := List.findSome?_eq_some_iff.1 hact
  rw [hl, List.pairwise_append, List.pairwise_cons] at hpair
  have hak : Below a k := by
    rw [hl, List.mem_append, List.mem_cons] at hmem
    rcases hmem with h | rfl | h
    · exact absurd ((hfind hkn).symm.trans (hnone k h)) hk
    · exact .inl rfl
    · exact .inr (hpair.2.1.1 k h)
  have hact' : actionAt domains excl a = some act := (hfind (hbelow hak)).symm.trans ha
  refine ⟨a, mem_cons_parents.1 (by simp [hl]), hak, by simp [hact'], ?_, fun b hb hba => ?_⟩
  · rw [evaluate_eq_findSome? hd he (hbelow hnk), ← List.cons_append, List.findSome?_append, hact,
      hact']
    rfl
  · have hb' := mem_cons_parents.2 hb
    rw [hl, List.mem_append, List.mem_cons] at hb'
    rcases hb' with h | rfl | h
    · exact (hfind hba.ne_nil).symm.trans (hnone b h)
    · exact absurd hba (StrictlyBelow.irrefl b)
    · exact absurd ((hpair.2.1.1 b h).trans hba) (StrictlyBelow.irrefl a)

/-- A proxied name below an exception has a domain of the zone between itself and the exception. -/
theorem exists_between (hd : ∀ d ∈ domains, Valid d) (he : ∀ e ∈ excl, Valid e) {n k : Bytes}
    (hk : k ∈ excl) (hnk : Below n k)
    (hev : evaluate (rpzEntries path domains excl routeAll) n = some .proxy) :
    ∃ d ∈ domains, StrictlyBelow d k := by
  have hkact : actionAt domains excl k = some .passthru := if_pos hk
  obtain ⟨a, -, hak, -, hact, -⟩ := exists_nearest path routeAll hd he
    (by simp [hkact]) (he k hk).ne_nil hnk
  rw [hev] at hact
  refine ⟨a, mem_of_actionAt_proxy hact.symm, hak.resolve_left ?_⟩
  rintro rfl
  simp [hkact] at hact

/-- **Which names pass**: those with an exception at or above them and no domain of the zone between
the two. -/
theorem evaluate_eq_passthru_iff (hd : ∀ d ∈ domains, Valid d) (he : ∀ e ∈ excl, Valid e)
    (hdisj : ∀ d ∈ domains, d ∉ excl) {n : Bytes} (hn : n ≠ []) :
    evaluate (rpzEntries path domains excl routeAll) n = some .passthru ↔
      ∃ e ∈ excl, Below n e ∧ ∀ d ∈ domains, Below n d → ¬ StrictlyBelow d e := by
  have hexc {a : Bytes} (h : actionAt domains excl a = some .passthru) : a ∈ excl := by
    rw [actionAt] at h
    split_ifs at h with h₁ h₂
    · exact h₁
    · simp at h
  have hdom {a : Bytes} (h : a ∈ domains) : actionAt domains excl a = some .proxy := by
    rw [actionAt, if_neg (hdisj a h), if_pos h]
  constructor
  · intro hev
    -- some name at or above it is an exception, and the nearest one that has an entry decides
    have hev' := hev
    rw [evaluate_eq_findSome? hd he hn] at hev'
    obtain ⟨k, hk, hkact⟩ := List.exists_of_findSome?_eq_some hev'
    have hkn : k ≠ [] := by
      rintro rfl
      exact entryAt_nil_ne_passthru hd he path routeAll hkact
    rw [entryAt_rpzEntries hd he path routeAll true hkn] at hkact
    have hnk : Below n k := by
      rw [← List.cons_append, List.mem_append, List.mem_singleton] at hk
      exact mem_cons_parents.1 (hk.resolve_right hkn)
    obtain ⟨a, hna, -, -, hact, hfree⟩ := exists_nearest path routeAll hd he
      (by simp [hkact]) hkn hnk
    refine ⟨a, hexc (hact.symm.trans hev), hna, fun d hmem hnd hda => ?_⟩
    exact absurd ((hdom hmem).symm.trans (hfree d hnd hda)) (by simp)
  · rintro ⟨e, hmem, hne, hfree⟩
    have heact : actionAt domains excl e = some .passthru := if_pos hmem
    obtain ⟨a, hna, hae, hsome, hact, -⟩ := exists_nearest path routeAll hd
      he (by simp [heact]) (he e hmem).ne_nil hne
    rw [hact]
    rcases hae with rfl | hae
    · exact heact
    · cases h : actionAt domains excl a with
      | none => exact absurd h hsome
      | some act =>
        cases act with
        | passthru => rfl
        | proxy => exact absurd hae (hfree a (mem_of_actionAt_proxy h) hna)

/-- **The exceptions of a zone hold if and only if no domain of it is below an excluded one.** -/
theorem honoured_rpzEntries_iff (hd : ∀ d ∈ domains, Valid d) (he : ∀ e ∈ excl, Valid e)
    (hsub : ∀ e ∈ excl, e ∈ exc) (hcover : ∀ e ∈ exc, ∃ k ∈ excl, Below e k)
    (hdisj : ∀ d ∈ domains, d ∉ exc) :
    Honoured (rpzEntries path domains excl routeAll) exc ↔
      ∀ d ∈ domains, ∀ e ∈ exc, ¬ StrictlyBelow d e := by
  constructor
  · intro h d hdom e hexc hde
    exact h d e hexc (.inr hde)
      (evaluate_of_mem hd he hdom fun hmem => hdisj d hdom (hsub d hmem))
  · intro h n e hexc hne hev
    obtain ⟨k, hk, hek⟩ := hcover e hexc
    obtain ⟨d, hdom, hdk⟩ := exists_between hd he hk (hne.trans hek) hev
    exact h d hdom k (hsub k hk) hdk

end Honoured

/-! ## When the exclusions are honoured -/

/-- Every included domain that is below an excluded one, and is not itself excluded, is below some
domain of the two lists that is not shadowed. -/
def Clear (inc exc : List Bytes) : Prop :=
  ∀ d ∈ inc, d ∉ exc → (∃ e ∈ exc, StrictlyBelow d e) →
    ∃ a ∈ inc ++ exc, StrictlyBelow d a ∧ ¬ Shadowed (inc ++ exc) a

instance (inc exc : List Bytes) : Decidable (Clear inc exc) :=
  inferInstanceAs (Decidable (∀ d ∈ inc, _))

/-- The zone of two lists as `splitZone` splits them. -/
def zoneOf (path : Bytes) (routeAll : Bool) (z : List Bytes × List Bytes) : List Entry :=
  rpzEntries path z.1 z.2 routeAll

theorem mem_splitZone_iff {inc exc : List Bytes} (h : ∀ d ∈ inc ++ exc, Valid d) {d : Bytes} :
    d ∈ (splitZone inc exc).1 ↔
      d ∈ inc ∧ d ∉ exc ∧ ∀ a ∈ inc ++ exc, StrictlyBelow d a → Shadowed (inc ++ exc) a := by
  simp only [splitZone, List.mem_filter, mem_collapseDomains_iff_of_valid h, List.mem_append,
    decide_eq_true_eq]
  constructor
  · rintro ⟨⟨hmem, hshadow⟩, hexc⟩
    exact ⟨hmem.resolve_right hexc, hexc, hshadow⟩
  · rintro ⟨hmem, hexc, hshadow⟩
    exact ⟨⟨.inl hmem, hshadow⟩, hexc⟩

/-- **The exclusions are honoured if and only if the lists are clear.** -/
theorem honoured_splitZone_iff {inc exc : List Bytes} (h : ∀ d ∈ inc ++ exc, Valid d)
    (path : Bytes) (routeAll : Bool) :
    Honoured (zoneOf path routeAll (splitZone inc exc)) exc ↔ Clear inc exc := by
  have hexc : ∀ e ∈ (splitZone inc exc).2, e ∈ exc := fun e he =>
    (mem_collapseDomains_iff.1 he).1
  rw [zoneOf, honoured_rpzEntries_iff
    (fun d hd => h d (List.mem_append_left _ ((mem_splitZone_iff h).1 hd).1))
    (fun e he => h e (List.mem_append_right _ (hexc e he))) hexc
    (fun e he => exists_mem_collapseDomains he) (fun d hd => ((mem_splitZone_iff h).1 hd).2.1)]
  constructor
  · intro hnone d hd hnot hbelow
    obtain ⟨e, he, hde⟩ := hbelow
    by_contra hall
    refine hnone d ((mem_splitZone_iff h).2 ⟨hd, hnot, fun a ha hda => ?_⟩) e he hde
    by_contra hshadow
    exact hall ⟨a, ha, hda, hshadow⟩
  · intro hclear d hd e he hde
    obtain ⟨hinc, hnot, hshadow⟩ := (mem_splitZone_iff h).1 hd
    obtain ⟨a, ha, hda, hno⟩ := hclear d hinc hnot ⟨e, he, hde⟩
    exact hno (hshadow a ha hda)

/-- A domain that `normalizeDomain` produced. -/
def Normalized (t : Tables) (d : Bytes) : Prop := d ≠ [] ∧ ∃ s, normalizeDomain t s = d

theorem Normalized.valid {t : Tables} {d : Bytes} (h : Normalized t d) : Valid d := by
  obtain ⟨hne, s, rfl⟩ := h
  exact valid_normalizeDomain hne

theorem valid_of_mem_domainSet {t : Tables} {rules : List DomainRule}
    (h : ∀ r ∈ rules, Normalized t r.domain) {d : Bytes} (hd : d ∈ domainSet rules) : Valid d := by
  rw [domainSet, List.mem_dedup, List.mem_map] at hd
  obtain ⟨r, hr, rfl⟩ := hd
  exact (h r hr).valid

theorem valid_of_mem_piS {t : Tables} {l : ProxyLists} (h : ∀ r ∈ l.hpr, Normalized t r.domain)
    {d : Bytes} (hd : d ∈ l.piS t) : Valid d := by
  rw [ProxyLists.piS, List.mem_dedup, List.mem_map] at hd
  obtain ⟨d', hd', rfl⟩ := hd
  exact (valid_of_mem_domainSet (fun r hr => h r (List.mem_of_mem_filter hr)) hd').stripPrefix

/-- **When the exclusions are honoured**: in `proxy.rpz`, and in a zone that `buildSimpleRPZ`
computes, no name at or below an excluded domain is proxied if and only if the lists are clear. -/
theorem exclusions_honoured_iff (t : Tables) (l : ProxyLists) (rules : List DomainRule)
    (hl : ∀ r ∈ l.hpr ++ l.exPOnly ++ l.exG, Normalized t r.domain)
    (hr : ∀ r ∈ rules, Normalized t r.domain) (path : Bytes) (routeAll : Bool) :
    (Honoured (zoneOf path routeAll (compileProxy t l)) l.pExcRaw ↔ Clear (l.piS t) l.pExcRaw) ∧
      (Honoured (zoneOf path routeAll (buildSimpleRPZ rules)) (simpleExc rules) ↔
        Clear (simpleInc rules) (simpleExc rules)) := by
  simp only [List.mem_append] at hl
  constructor
  · refine honoured_splitZone_iff (fun d hd => ?_) path routeAll
    rcases List.mem_append.1 hd with hd | hd
    · exact valid_of_mem_piS (fun r hr => hl r (.inl (.inl hr))) hd
    · refine valid_of_mem_domainSet (fun r hr => hl r ?_) hd
      simp only [List.mem_append, List.mem_filter] at hr
      rcases hr with (hr | hr) | ⟨hr, -⟩
      · exact .inr hr
      · exact .inl (.inr hr)
      · exact .inl (.inl hr)
  · refine honoured_splitZone_iff (fun d hd => ?_) path routeAll
    rcases List.mem_append.1 hd with hd | hd <;>
      exact valid_of_mem_domainSet (fun r hr' => hr r (List.mem_of_mem_filter hr')) hd

/-- Names in ASCII are left as they are by the conversion of international names. -/
def asciiTables : Tables where
  lower s := s
  toASCII s := some s

/-- A decidable way to see that a domain is normalized: it is read as itself. -/
def ReadAsItself (d : Bytes) : Prop := d ≠ [] ∧ normalizeDomain asciiTables d = d

instance (d : Bytes) : Decidable (ReadAsItself d) := inferInstanceAs (Decidable (_ ∧ _))

theorem ReadAsItself.normalized {d : Bytes} (h : ReadAsItself d) : Normalized asciiTables d :=
  ⟨h.1, d, h.2⟩

/-- An included domain below an excluded one, and a domain that has nothing to do with them. -/
def plainRules : List DomainRule :=
  [⟨str "x.a.com", false⟩, ⟨str "b.com", false⟩, ⟨str "a.com", true⟩]

theorem exclusions_honoured_plain :
    Honoured (zoneOf (str "proxy.rpz") true (compileProxy asciiTables ⟨plainRules, [], []⟩))
        [str "a.com"] ∧
      Honoured (zoneOf (str "proxy.rpz") true (buildSimpleRPZ plainRules)) [str "a.com"] := by
  have hread : ∀ r ∈ plainRules, ReadAsItself r.domain := by decide +kernel
  obtain ⟨hproxy, hsimple⟩ := exclusions_honoured_iff asciiTables ⟨plainRules, [], []⟩ plainRules
    (fun r hr => (hread r (by simpa using hr)).normalized) (fun r hr => (hread r hr).normalized)
    (str "proxy.rpz") true
  exact ⟨hproxy.2 (by decide +kernel), hsimple.2 (by decide +kernel)⟩

/-- The other domain ends in `-a.com`. -/
def shadowingRules : List DomainRule :=
  [⟨str "x.a.com", false⟩, ⟨str "b-a.com", false⟩, ⟨str "a.com", true⟩]

/-- **A third domain can undo an exclusion**: `b-a.com` sorts between `a.com` and `x.a.com`, which
therefore stays in the zone although `a.com` is excluded. -/
theorem exclusions_not_honoured :
    (∀ r ∈ shadowingRules, Normalized asciiTables r.domain) ∧
      ¬ Honoured (zoneOf (str "proxy.rpz") false
        (compileProxy asciiTables ⟨shadowingRules, [], []⟩)) [str "a.com"] ∧
      ¬ Honoured (zoneOf (str "deny.rpz") false (buildSimpleRPZ shadowingRules)) [str "a.com"] := by
  have hread : ∀ r ∈ shadowingRules, ReadAsItself r.domain := by decide +kernel
  have hbelow : Below (str "x.a.com") (str "a.com") := by decide +kernel
  refine ⟨fun r hr => (hread r hr).normalized, fun h => ?_, fun h => ?_⟩
  · exact h _ _ List.mem_cons_self hbelow (by decide +kernel)
  · exact h _ _ List.mem_cons_self hbelow (by decide +kernel)

end NextPath.Parser
