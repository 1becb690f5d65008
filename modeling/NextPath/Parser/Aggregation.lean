import Mathlib.Logic.Relation
import NextPath.Parser.Networks

/-!
# What the address lists cover

Each round of `aggregatePrefixes` widens the longest prefixes and collapses the list again. It
covers what it covered and touches no other block of the length it may widen to, so that the
exclusions, which are taken out after it, hold; and since a minimal list has no longer prefixes than
what it is made of, the longest prefix gets shorter with each round.

* `Round.widens`, `widens_of_rounds`: what a round, and any number of rounds, do to the addresses;
* `routes_exact`: the routes cover the included addresses and none that is excluded or denied;
* `Round.maxPrefix_lt`, `loopEnds_aggregateLoop`: a round shortens the longest prefix, so the loop
  ends;
* `aggregation_bounded`: what it ends with.
-/

namespace NextPath.Parser

open Net Laminar

/-! ## Rounds of the aggregation -/

section Rounds

variable (ipset : IPSets) (limit : ℤ) (isV6 : Bool)

/-- The loop of `aggregatePrefixes` does not go on: there are few enough networks, or none is longer
than what it may be widened to. -/
def Stopped (res : List Prefix) : Prop :=
  (res.length : ℤ) ≤ limit ∨ maxPrefix res ≤ minPrefix isV6

/-- One round of the loop. -/
def Round (res res' : List Prefix) : Prop :=
  ¬ Stopped limit isV6 res ∧ res' = collapseIPNets ipset (supers res)

/-- Any number of rounds. -/
def Rounds : List Prefix → List Prefix → Prop := Relation.ReflTransGen (Round ipset limit isV6)

/-- The loop ends, with `out`. -/
def LoopEnds (res out : List Prefix) : Prop :=
  Rounds ipset limit isV6 res out ∧ Stopped limit isV6 out

/-- What `aggregatePrefixes` may return. -/
def AggregatesTo (nets out : List Prefix) : Prop :=
  if nets = [] ∨ limit ≤ 0 then out = nets
  else LoopEnds ipset limit isV6 (collapseIPNets ipset nets) out

end Rounds

theorem maxPrefix_le_iff {nets : List Prefix} {k : ℕ} :
    maxPrefix nets ≤ k ↔ ∀ n ∈ nets, n.bits ≤ k := by
  induction nets with
  | nil => simp [maxPrefix]
  | cons n nets ih =>
    rw [List.forall_mem_cons, ← ih]
    simp [maxPrefix]

theorem bits_le_maxPrefix {nets : List Prefix} {n : Prefix} (hn : n ∈ nets) :
    n.bits ≤ maxPrefix nets :=
  maxPrefix_le_iff.1 le_rfl n hn

/-- A set of addresses and one it may be widened to: nothing is lost, and no block is touched that
was not. -/
structure Widens (isV6 : Bool) (s s' : Set Bytes) : Prop where
  subset : s ⊆ s'
  touched : ∀ a ∈ s', ∃ b ∈ s, SameBlock (minPrefix isV6) a b

theorem Widens.refl (isV6 : Bool) (s : Set Bytes) : Widens isV6 s s :=
  ⟨subset_rfl, fun a ha => ⟨a, ha, .refl _ _⟩⟩

theorem Widens.trans {isV6 : Bool} {s t u : Set Bytes} (h : Widens isV6 s t)
    (h' : Widens isV6 t u) : Widens isV6 s u := by
  refine ⟨h.subset.trans h'.subset, fun a ha => ?_⟩
  obtain ⟨b, hb, hab⟩ := h'.touched a ha
  obtain ⟨c, hc, hbc⟩ := h.touched b hb
  exact ⟨c, hc, hab.trans hbc⟩

section Supers

variable {res : List Prefix} (hres : ∀ n ∈ res, n.WellFormed)

/-- A network of `supers` is one of the list, or a longest one shortened by a bit. -/
theorem mem_supers {m : Prefix} (hm : m ∈ supers res) :
    ∃ n ∈ res, n.bits ≠ maxPrefix res ∧ m = n ∨
      n.bits = maxPrefix res ∧ m = n.shorten (maxPrefix res - 1) := by
  obtain ⟨n, hn, rfl⟩ := List.mem_map.1 hm
  refine ⟨n, hn, ?_⟩
  split_ifs with hmax
  · exact .inr ⟨hmax, rfl⟩
  · exact .inl ⟨hmax, rfl⟩

include hres

theorem wellFormed_supers : ∀ m ∈ supers res, m.WellFormed := by
  intro m hm
  obtain ⟨n, hn, ⟨-, rfl⟩ | ⟨hmax, rfl⟩⟩ := mem_supers hm
  · exact hres m hn
  · exact (hres n hn).shorten (by omega)

theorem widens_supers {isV6 : Bool} (hlong : minPrefix isV6 < maxPrefix res) :
    Widens isV6 (covered res) (covered (supers res)) := by
  constructor
  · rintro ip ⟨n, hn, hip⟩
    refine ⟨_, List.mem_map_of_mem hn, ?_⟩
    split_ifs with hmax
    · rw [Prefix.mem_addresses_shorten (hres n hn) (by omega)]
      exact ((Prefix.mem_addresses (hres n hn)).1 hip).mono (by omega)
    · exact hip
  · rintro ip ⟨m, hm, hip⟩
    obtain ⟨n, hn, ⟨-, rfl⟩ | ⟨hmax, rfl⟩⟩ := mem_supers hm
    · exact ⟨ip, ⟨m, hn, hip⟩, .refl _ _⟩
    · -- a longest prefix is shortened to no less than a block
      rw [Prefix.mem_addresses_shorten (hres n hn) (by omega)] at hip
      exact ⟨n.addr, ⟨n, hn, Prefix.addr_mem_addresses (hres n hn)⟩, hip.mono (by omega)⟩

end Supers

section Run

variable {ipset : IPSets} {limit : ℤ} {isV6 : Bool} {res out : List Prefix}

/-- **A round** leaves valid networks, covers what was covered and touches no other block. -/
theorem Round.widens (hset : ipset.Collapses) (hres : ∀ n ∈ res, n.WellFormed)
    (h : Round ipset limit isV6 res out) :
    (∀ n ∈ out, n.WellFormed) ∧ Widens isV6 (covered res) (covered out) := by
  obtain ⟨hgo, rfl⟩ := h
  rw [Stopped, not_or, not_le, not_le] at hgo
  have hcover := hset _ (wellFormed_supers hres)
  have hspan : covered (collapseIPNets ipset (supers res)) = covered (supers res) := hcover.span_eq
  exact ⟨hcover.mem_ok, hspan ▸ widens_supers hres hgo.2⟩

/-- **Any number of rounds** does the same. -/
theorem widens_of_rounds (hset : ipset.Collapses) (hres : ∀ n ∈ res, n.WellFormed)
    (h : Rounds ipset limit isV6 res out) :
    (∀ n ∈ out, n.WellFormed) ∧ Widens isV6 (covered res) (covered out) := by
  induction h with
  | refl => exact ⟨hres, .refl _ _⟩
  | tail _ hround ih =>
    obtain ⟨hwf, hwiden⟩ := hround.widens hset ih.1
    exact ⟨hwf, ih.2.trans hwiden⟩

/-- The loop with a bound on its rounds makes rounds. -/
theorem rounds_aggregateLoop (ipset : IPSets) (limit : ℤ) (isV6 : Bool) (rounds : ℕ)
    (res : List Prefix) :
    Rounds ipset limit isV6 res (aggregateLoop ipset limit isV6 rounds res) := by
  induction rounds generalizing res with
  | zero => exact .refl
  | succ rounds ih =>
    rw [aggregateLoop]
    split_ifs with hfew hshort
    · exact .refl
    · exact .refl
    · exact .head ⟨fun h => h.elim hfew hshort, rfl⟩ (ih _)

theorem widens_collapse (isV6 : Bool) (hset : ipset.Collapses) (hres : ∀ n ∈ res, n.WellFormed) :
    (∀ n ∈ collapseIPNets ipset res, n.WellFormed) ∧
      Widens isV6 (covered res) (covered (collapseIPNets ipset res)) := by
  have hcover := hset _ hres
  have hspan : covered (collapseIPNets ipset res) = covered res := hcover.span_eq
  exact ⟨hcover.mem_ok, hspan ▸ .refl _ _⟩

theorem widens_of_rounds_collapse (hset : ipset.Collapses) (hres : ∀ n ∈ res, n.WellFormed)
    (h : Rounds ipset limit isV6 (collapseIPNets ipset res) out) :
    (∀ n ∈ out, n.WellFormed) ∧ Widens isV6 (covered res) (covered out) := by
  obtain ⟨hwf, hwiden⟩ := widens_collapse isV6 hset hres
  obtain ⟨hwf', hwiden'⟩ := widens_of_rounds hset hwf h
  exact ⟨hwf', hwiden.trans hwiden'⟩

/-- What `aggregatePrefixes` returns covers its networks and touches no other block: the list that
the loop ends with, and the one that is computed here with a bound on the rounds. -/
theorem AggregatesTo.widens (hset : ipset.Collapses) (hres : ∀ n ∈ res, n.WellFormed)
    (h : AggregatesTo ipset limit isV6 res out) :
    (∀ n ∈ out, n.WellFormed) ∧ Widens isV6 (covered res) (covered out) := by
  rw [AggregatesTo] at h
  split_ifs at h
  · subst h
    exact ⟨hres, .refl _ _⟩
  · exact widens_of_rounds_collapse hset hres h.1

theorem widens_aggregatePrefixes (limit : ℤ) (isV6 : Bool) (hset : ipset.Collapses)
    (hres : ∀ n ∈ res, n.WellFormed) :
    (∀ n ∈ aggregatePrefixes ipset res limit isV6, n.WellFormed) ∧
      Widens isV6 (covered res) (covered (aggregatePrefixes ipset res limit isV6)) := by
  rw [aggregatePrefixes]
  split_ifs
  · exact ⟨hres, .refl _ _⟩
  · exact ⟨hres, .refl _ _⟩
  · exact widens_of_rounds_collapse hset hres (rounds_aggregateLoop ..)

end Run

/-! ## The routes -/

/-- The width that an included network must have. -/
def minAllowed (isV6 : Bool) : ℕ := if isV6 then 16 else 4

theorem mem_filterIPNets {src : List Prefix} {isV6 applySafeguard : Bool} {n : Prefix} :
    n ∈ filterIPNets src isV6 applySafeguard ↔
      n ∈ src ∧ n.is6 = isV6 ∧ (applySafeguard = true → minAllowed isV6 ≤ n.bits) := by
  rw [filterIPNets, List.mem_filter]
  cases isV6 <;> cases applySafeguard <;> simp [minAllowed]

/-- The excluded and the denied networks of a family. -/
def AddressLists.exCombined (l : AddressLists) (isV6 : Bool) : List Prefix :=
  filterIPNets l.excIps isV6 false ++ filterIPNets l.denyIps isV6 false

/-- What `compileIPs` may write as routes. -/
def RoutesTo (ipset : IPSets) (l : AddressLists) (limit : ℤ) (isV6 : Bool) (routes : List Prefix) :
    Prop :=
  ∃ aggrNets, AggregatesTo ipset limit isV6 (filterIPNets l.incIps isV6 true) aggrNets ∧
    routes = subNetsOptimized ipset aggrNets (l.exCombined isV6)

/-- The routes have no address that is excluded or denied, and every other address of an included
network of the family that is not too wide. -/
structure ExactRoutes (l : AddressLists) (isV6 : Bool) (routes : List Prefix) : Prop where
  excluded : ∀ ip ∈ covered routes, ∀ e ∈ l.excIps ++ l.denyIps, ip ∉ e.addresses
  included : ∀ n ∈ l.incIps, n.is6 = isV6 → minAllowed isV6 ≤ n.bits → ∀ ip ∈ n.addresses,
    (∀ e ∈ l.excIps ++ l.denyIps, ip ∉ e.addresses) → ip ∈ covered routes

section Routes

variable {ipset : IPSets} {l : AddressLists}

/-- **Widening before the exclusions are taken out readmits nothing.** -/
theorem exactRoutes_of_widens (hset : ipset.Exact)
    (hl : ∀ n ∈ l.incIps ++ l.excIps ++ l.denyIps, n.WellFormed) {isV6 : Bool}
    {aggrNets : List Prefix} (hwf : ∀ n ∈ aggrNets, n.WellFormed)
    (hwiden : Widens isV6 (covered (filterIPNets l.incIps isV6 true)) (covered aggrNets)) :
    ExactRoutes l isV6 (subNetsOptimized ipset aggrNets (l.exCombined isV6)) := by
  simp only [List.mem_append] at hl
  have hex {e : Prefix} : e ∈ l.exCombined isV6 ↔ e ∈ l.excIps ++ l.denyIps ∧ e.is6 = isV6 := by
    simp only [AddressLists.exCombined, List.mem_append, mem_filterIPNets, Bool.false_eq_true,
      false_imp_iff, and_true, or_and_right]
  have hexwf : ∀ e ∈ l.excIps ++ l.denyIps, e.WellFormed := fun e he =>
    hl e ((List.mem_append.1 he).elim (fun h => .inl (.inr h)) .inr)
  have hcover := hset aggrNets (l.exCombined isV6) fun n hn => by
    rcases List.mem_append.1 hn with hn | hn
    · exact hwf n hn
    · exact hexwf n (hex.1 hn).1
  have hspan : covered (subNetsOptimized ipset aggrNets (l.exCombined isV6)) =
      covered aggrNets \ covered (l.exCombined isV6) := hcover.span_eq
  constructor
  · intro ip hip e he hipe
    rw [hspan] at hip
    -- the address is of the family, since it shares a block with an included one
    obtain ⟨b, ⟨n, hn, hbn⟩, hblock⟩ := hwiden.touched ip hip.1
    obtain ⟨hninc, hn6, -⟩ := mem_filterIPNets.1 hn
    have hlen : e.addr.length = n.addr.length := by
      rw [← ((Prefix.mem_addresses (hexwf e he)).1 hipe).1, hblock.1,
        ((Prefix.mem_addresses (hl n (.inl (.inl hninc)))).1 hbn).1]
    have he6 : e.is6 = isV6 := by rw [← hn6, Prefix.is6, Prefix.is6, hlen]
    exact hip.2 ⟨e, hex.2 ⟨he, he6⟩, hipe⟩
  · intro n hn hn6 hwide ip hip hfree
    rw [hspan]
    refine ⟨hwiden.subset ⟨n, mem_filterIPNets.2 ⟨hn, hn6, fun _ => hwide⟩, hip⟩, ?_⟩
    rintro ⟨e, he, hipe⟩
    exact hfree e (hex.1 he).1 hipe

/-- **The routes respect the exclusions and lose nothing**: those that are computed here, and
whatever `compileIPs` may write once the loop of the aggregation ends. The list of denied networks
covers the denied addresses of the family. -/
theorem routes_exact (ipset : IPSets) (hset : ipset.Exact) (l : AddressLists)
    (hl : ∀ n ∈ l.incIps ++ l.excIps ++ l.denyIps, n.WellFormed) (limit : ℤ) (isV6 : Bool) :
    ExactRoutes l isV6 (compileRoutes ipset l limit isV6) ∧
      (∀ routes, RoutesTo ipset l limit isV6 routes → ExactRoutes l isV6 routes) ∧
      ∀ ip, ip ∈ covered (compileDeny ipset l isV6) ↔
        ∃ n ∈ l.denyIps, n.is6 = isV6 ∧ ip ∈ n.addresses := by
  have hinc : ∀ n ∈ filterIPNets l.incIps isV6 true, n.WellFormed := fun n hn =>
    hl n (by simp [(mem_filterIPNets.1 hn).1])
  refine ⟨?_, ?_, fun ip => ?_⟩
  · obtain ⟨hwf, hwiden⟩ := widens_aggregatePrefixes limit isV6 hset.collapses hinc
    exact exactRoutes_of_widens hset hl hwf hwiden
  · rintro routes ⟨aggrNets, haggr, rfl⟩
    obtain ⟨hwf, hwiden⟩ := haggr.widens hset.collapses hinc
    exact exactRoutes_of_widens hset hl hwf hwiden
  · have hdeny : ∀ n ∈ filterIPNets l.denyIps isV6 false, n.WellFormed := fun n hn =>
      hl n (by simp [(mem_filterIPNets.1 hn).1])
    have hspan : covered (compileDeny ipset l isV6) = covered (filterIPNets l.denyIps isV6 false) :=
      (hset.collapses _ hdeny).span_eq
    rw [hspan]
    simp only [mem_covered, mem_filterIPNets, Bool.false_eq_true, false_imp_iff, and_true,
      and_assoc]

/-- Networks that meet and contain one another, in both families. -/
def nestedLists : AddressLists where
  incIps := [⟨[10, 0, 0, 0], 8⟩, ⟨[11, 0, 0, 0], 8⟩, ⟨[0, 0, 0, 0], 0⟩,
    ⟨[0x20, 1, 0, 0, 0, 0, 0, 0, 0, 0, 0, 0, 0, 0, 0, 0], 16⟩]
  excIps := [⟨[10, 1, 0, 0], 16⟩]
  denyIps := [⟨[10, 1, 2, 0], 24⟩, ⟨[9, 9, 9, 9], 32⟩]

theorem routes_exact_nested :
    ∃ ipset : IPSets, ipset.Exact ∧
      [11, 2, 3, 4] ∈ covered (compileRoutes ipset nestedLists 1 false) ∧
      [10, 1, 7, 7] ∉ covered (compileRoutes ipset nestedLists 1 false) ∧
      [9, 9, 9, 9] ∈ covered (compileDeny ipset nestedLists false) := by
  obtain ⟨ipset, hset, -⟩ := exists_ipsets
  obtain ⟨hroutes, -, hdeny⟩ := routes_exact ipset hset nestedLists (by decide) 1 false
  have hfree : ∀ e ∈ nestedLists.excIps ++ nestedLists.denyIps,
      e.contains [11, 2, 3, 4] = false := by decide
  refine ⟨ipset, hset, ?_, fun hin => ?_, ?_⟩
  · exact hroutes.included ⟨[11, 0, 0, 0], 8⟩ (by decide) rfl (by decide) _
      (show Prefix.contains _ _ = true by decide)
      fun e he hin => Bool.false_ne_true ((hfree e he).symm.trans hin)
  · exact hroutes.excluded _ hin ⟨[10, 1, 0, 0], 16⟩ (by decide)
      (show Prefix.contains _ _ = true by decide)
  · exact (hdeny _).2
      ⟨⟨[9, 9, 9, 9], 32⟩, by decide, rfl, show Prefix.contains _ _ = true by decide⟩

end Routes

/-! ## The end of the aggregation -/

section Termination

variable {ipset : IPSets} {limit : ℤ} {isV6 : Bool} {res : List Prefix}

/-- **Collapsing to a minimal list does not lengthen the longest prefix**: each network of the list
contains one of those it is made of. -/
theorem maxPrefix_collapse_le (hset : ipset.Minimal) (hres : ∀ n ∈ res, n.WellFormed) :
    maxPrefix (collapseIPNets ipset res) ≤ maxPrefix res := by
  refine maxPrefix_le_iff.2 fun m hm => ?_
  obtain ⟨n, hn, hsub⟩ := (hset res hres).exists_subset isLaminar_addresses hres hm
  exact (Prefix.bits_le_of_subset (hres n hn) ((hset res hres).mem_ok m hm) hsub).trans
    (bits_le_maxPrefix hn)

theorem maxPrefix_supers_lt (hlong : 0 < maxPrefix res) :
    maxPrefix (supers res) < maxPrefix res := by
  have hle : maxPrefix (supers res) ≤ maxPrefix res - 1 := by
    refine maxPrefix_le_iff.2 fun m hm => ?_
    obtain ⟨n, hn, ⟨hne, rfl⟩ | ⟨-, rfl⟩⟩ := mem_supers hm
    · have := bits_le_maxPrefix hn
      omega
    · exact le_rfl
  omega

/-- **A round shortens the longest prefix.** -/
theorem Round.maxPrefix_lt (hset : ipset.Minimal) (hres : ∀ n ∈ res, n.WellFormed)
    {res' : List Prefix} (h : Round ipset limit isV6 res res') :
    maxPrefix res' < maxPrefix res := by
  obtain ⟨hgo, rfl⟩ := h
  rw [Stopped, not_or, not_le, not_le] at hgo
  exact (maxPrefix_collapse_le hset (wellFormed_supers hres)).trans_lt
    (maxPrefix_supers_lt (by omega))

/-- The loop ends when it may make as many rounds as the longest prefix is too long by. -/
theorem loopEnds_aggregateLoop (hset : ipset.Minimal) (rounds : ℕ) (hres : ∀ n ∈ res, n.WellFormed)
    (hlong : maxPrefix res ≤ minPrefix isV6 + rounds) :
    LoopEnds ipset limit isV6 res (aggregateLoop ipset limit isV6 rounds res) := by
  refine ⟨rounds_aggregateLoop .., ?_⟩
  induction rounds generalizing res with
  | zero => exact .inr hlong
  | succ rounds ih =>
    rw [aggregateLoop]
    split_ifs with hfew hshort
    · exact .inl hfew
    · exact .inr hshort
    · have hround : Round ipset limit isV6 res (collapseIPNets ipset (supers res)) :=
        ⟨fun h => h.elim hfew hshort, rfl⟩
      have hlt := hround.maxPrefix_lt hset hres
      exact ih (hround.widens hset.collapses hres).1 (by omega)

theorem collapseIPNets_nil (hset : ipset.Collapses) : collapseIPNets ipset [] = [] := by
  refine List.eq_nil_iff_forall_not_mem.2 fun n hn => ?_
  have hcover := hset [] (by simp)
  have hin := hcover.mem_of_mem hn (Prefix.addr_mem_addresses (hcover.mem_ok n hn))
  rw [covered_nil] at hin
  exact hin

/-- **The aggregation ends, with bounded widening.** The loop ends, with the list that is computed
here; it covers every address of the networks; a block of the length that prefixes may be widened to
that it touches is touched by them; and it has at most `limit` networks, or none that is longer than
that length. -/
theorem aggregation_bounded (ipset : IPSets) (hset : ipset.Minimal) (isV6 : Bool)
    (nets : List Prefix) (hnets : ∀ n ∈ nets, n.WellFormed ∧ n.is6 = isV6) (limit : ℤ)
    (hlimit : 1 ≤ limit) :
    LoopEnds ipset limit isV6 (collapseIPNets ipset nets)
        (aggregatePrefixes ipset nets limit isV6) ∧
      covered nets ⊆ covered (aggregatePrefixes ipset nets limit isV6) ∧
      (∀ block : Prefix, block.WellFormed → block.bits = minPrefix isV6 →
        (∃ ip ∈ block.addresses, ip ∈ covered (aggregatePrefixes ipset nets limit isV6)) →
        ∃ ip ∈ block.addresses, ip ∈ covered nets) ∧
      (((aggregatePrefixes ipset nets limit isV6).length : ℤ) ≤ limit ∨
        ∀ n ∈ aggregatePrefixes ipset nets limit isV6, n.bits ≤ minPrefix isV6) := by
  have hwf : ∀ n ∈ nets, n.WellFormed := fun n hn => (hnets n hn).1
  have hends : LoopEnds ipset limit isV6 (collapseIPNets ipset nets)
      (aggregatePrefixes ipset nets limit isV6) := by
    rw [aggregatePrefixes]
    split_ifs with hnil hpos
    · subst hnil
      rw [collapseIPNets_nil hset.collapses]
      exact ⟨.refl, .inl (by simpa using by omega)⟩
    · omega
    · obtain ⟨hwf', -⟩ := widens_collapse isV6 hset.collapses hwf
      refine loopEnds_aggregateLoop hset 128 hwf' (maxPrefix_le_iff.2 fun n hn => ?_)
      -- an address has 128 bits at most
      have hbits := (hwf' n hn).2
      rcases (hwf' n hn).1 with hlen | hlen <;> omega
  obtain ⟨-, hwiden⟩ := widens_of_rounds_collapse hset.collapses hwf hends.1
  refine ⟨hends, hwiden.subset, ?_, ?_⟩
  · rintro block hblock hbits ⟨ip, hip, hres⟩
    obtain ⟨ip', hip', hsame⟩ := hwiden.touched ip hres
    rw [Prefix.mem_addresses hblock, hbits] at hip
    refine ⟨ip', (Prefix.mem_addresses hblock).2 ?_, hip'⟩
    rw [hbits]
    exact hsame.symm.trans hip
  · rcases hends.2 with hfew | hshort
    · exact .inl hfew
    · exact .inr (maxPrefix_le_iff.1 hshort)

/-- Three networks, to be aggregated to one. -/
theorem aggregation_bounded_three :
    ∃ ipset : IPSets, ipset.Minimal ∧
      LoopEnds ipset 1 false
        (collapseIPNets ipset [⟨[10, 0, 0, 0], 24⟩, ⟨[10, 0, 1, 0], 24⟩, ⟨[10, 9, 0, 0], 16⟩])
        (aggregatePrefixes ipset
          [⟨[10, 0, 0, 0], 24⟩, ⟨[10, 0, 1, 0], 24⟩, ⟨[10, 9, 0, 0], 16⟩] 1 false) := by
  obtain ⟨ipset, -, hset⟩ := exists_ipsets
  exact ⟨ipset, hset, (aggregation_bounded ipset hset false _ (by decide) 1 (by decide)).1⟩

end Termination

end NextPath.Parser
