import NextPath.Pool.Rollback
import NextPath.Proxy.Handler

/-!
# A request that fails leaves no mapping

A request may fail in the first call of the pool or in the second, and then takes back what the
first has allocated. A roll-back commutes with what the second call has deleted
(`IPPool.vacateAll_rollback`), so that in the end the pool has the mappings it had when the request
came, without some that were not live.

* `failure_leaves_no_trace`: a call that fails, and a request that fails.
-/

namespace NextPath.Proxy

open Net Pool
open IPPool (Found SameMaps Without)

/-- The second pool has no mapping that the first has not. -/
structure NoNewMapping (p p' : IPPool) : Prop where
  slot : ∀ j x f, (p'.slot j x).1 = some f → (p.slot j x).1 = some f
  realOf : ∀ f r, p'.realOf f = some r → p.realOf f = some r
  versionOf : ∀ f v, p'.versionOf f = some v → p.versionOf f = some v

theorem noNewMapping_of_sameMaps {p p' : IPPool} {gone : List IP}
    (h : SameMaps p' (p.vacateAll gone)) : NoNewMapping p p' where
  slot j x f hf := ((p.slot_vacateAll gone j x f).1 (h.slot j x ▸ hf)).1
  realOf f r hr :=
    ((IPPool.lookup_vacateAll (·.globalFakeToReal) (fun _ _ _ _ => rfl) p gone f r).1
      ((h.realOf f).symm.trans hr)).1
  versionOf f v hv :=
    ((IPPool.lookup_vacateAll (·.globalVersions) (fun _ _ _ _ => rfl) p gone f v).1
      ((h.versionOf f).symm.trans hv)).1

/-- The request has been answered with a failure. -/
def Written.isFailed : Written → Bool
  | .failed => true
  | _ => false

theorem eq_failed_of_isFailed {w : Written} (h : w.isFailed = true) : w = .failed := by
  cases w with
  | failed => rfl
  | reply => cases h
  | response => cases h

/-- A call that fails deletes. -/
theorem sameMaps_of_getFakes_none {p p' : IPPool}
    (hp : ∀ f, p.realOf f = none → p.versionOf f = none) {reals : List IP} {isIPv6 : Bool}
    {now : Time} {clk : ℕ → Time} (h : getFakes p reals isIPv6 now clk = (p', none)) :
    ∃ gone, SameMaps p' (p.vacateAll gone) := by
  rw [getFakes] at h
  split_ifs at h with hnil
  · cases h
  · have hcall := IPPool.trail_call hp hnil isIPv6 now clk
    rw [h] at hcall
    obtain ⟨_, _, _, -, -, -, gone, -, hsame, -⟩ := hcall
    exact ⟨gone, hsame⟩

/-- A call that succeeds deletes, apart from what it has allocated. -/
theorem sameMaps_of_getFakes_some {p p' : IPPool}
    (hp : ∀ f, p.realOf f = none → p.versionOf f = none) {reals : List IP} {isIPv6 : Bool}
    {now : Time} {clk : ℕ → Time} {found : Found}
    (h : getFakes p reals isIPv6 now clk = (p', some found)) :
    (∃ gone, SameMaps (p'.rollback found.newMappings.entries) (p.vacateAll gone)) ∧
      ∀ f, p'.realOf f = none → p'.versionOf f = none := by
  rw [getFakes] at h
  split_ifs at h with hnil
  · obtain ⟨rfl, rfl⟩ : p = p' ∧ ⟨∅, ∅⟩ = found := by simpa using h
    exact ⟨⟨[], .refl p⟩, hp⟩
  · have hcall := IPPool.trail_call hp hnil isIPv6 now clk
    rw [h] at hcall
    obtain ⟨⟨gone, -, hsame, -⟩, hpaired⟩ := hcall
    exact ⟨⟨gone, hsame⟩, hpaired⟩

/-- **Both calls.** If one of them fails there is no new mapping. -/
theorem noNewMapping_allocateBoth {p p' : IPPool}
    (hp : ∀ f, p.realOf f = none → p.versionOf f = none) {reals : Reals} {clocks : Clocks}
    (h : allocateBoth p reals clocks = (p', none)) : NoNewMapping p p' := by
  rw [allocateBoth] at h
  generalize hcall4 : getFakes p reals.v4 false clocks.now4 clocks.clk4 = out4 at h
  rcases out4 with ⟨p4, _ | found4⟩
  · obtain rfl : p4 = p' := by simpa using h
    obtain ⟨gone, hsame⟩ := sameMaps_of_getFakes_none hp hcall4
    exact noNewMapping_of_sameMaps hsame
  · dsimp only at h
    obtain ⟨⟨gone4, hsame4⟩, hp4⟩ := sameMaps_of_getFakes_some hp hcall4
    generalize hcall6 : getFakes p4 reals.v6 true clocks.now6 clocks.clk6 = out6 at h
    rcases out6 with ⟨p6, _ | found6⟩
    · obtain rfl : p6.rollback found4.newMappings.entries = p' := by simpa using h
      obtain ⟨gone6, hsame6⟩ := sameMaps_of_getFakes_none hp4 hcall6
      -- the roll-back of the first call comes before the deletions of the second
      have hrollback := hsame6.rollback found4.newMappings.entries
      rw [← IPPool.vacateAll_rollback] at hrollback
      have hboth := hrollback.trans (hsame4.vacateAll gone6)
      rw [IPPool.vacateAll, IPPool.vacateAll, ← List.foldl_append] at hboth
      exact noNewMapping_of_sameMaps hboth
    · simp at h

theorem noNewMapping_handleDNSRequest {p p' : IPPool}
    (hp : ∀ f, p.realOf f = none → p.versionOf f = none) {proxy : DNSProxy} {net : Network}
    {question : List Bytes} {clocks : Clocks}
    (h : proxy.handleDNSRequest net question clocks p = (p', .failed)) : NoNewMapping p p' := by
  rw [DNSProxy.handleDNSRequest] at h
  by_cases hprobe : isProbe question = true
  · simp [hprobe] at h
  · rw [if_neg hprobe] at h
    cases hresolve : resolveUpstream net proxy.upstreams with
    | none =>
      obtain rfl : p = p' := by simpa [hresolve] using h
      exact ⟨fun _ _ _ hf => hf, fun _ _ hr => hr, fun _ _ hv => hv⟩
    | some resp =>
      rw [hresolve] at h
      dsimp only at h
      generalize hboth : allocateBoth p (collect proxy.enableIPv6 resp) clocks = out at h
      rcases out with ⟨q, _ | ⟨found4, found6⟩⟩
      · obtain rfl : q = p' := by simpa using h
        exact noNewMapping_allocateBoth hp hboth
      · simp at h

/-- **A failure leaves no trace.** A call that fails on a consistent pool has stopped at a real for
which no fake was free, and leaves the mappings and versions that were there, without those of the
reals up to this one whose lease had run out. A request that fails, in whichever call, leaves no
mapping that was not there. -/
theorem failure_leaves_no_trace {p : IPPool} (h : RepInv p) :
    (∀ (reals : List IP) (isIPv6 : Bool) (now : Time) (clk : ℕ → Time) (p' : IPPool),
      reals ≠ [] → p.getFakeIPsForReals reals isIPv6 now clk = (p', none) →
      ∃ done ip rest, IPPool.sortReals reals = done ++ ip :: rest ∧
        p.StopsAt isIPv6 now clk done ip ∧ (∀ f, ¬ p.Live now ip f) ∧
        Without p now (done ++ [ip]) p') ∧
    ∀ (proxy : DNSProxy) (net : Network) (question : List Bytes) (clocks : Clocks) (p' : IPPool),
      proxy.handleDNSRequest net question clocks p = (p', .failed) → NoNewMapping p p' := by
  have hp (f : IPKey) (hf : p.realOf f = none) : p.versionOf f = none := by
    rw [← Option.not_isSome_iff_eq_none, h.isSome_versionOf, hf]
    exact Bool.false_ne_true
  refine ⟨fun reals isIPv6 now clk p' hne hcall => ?_, fun _ _ _ _ _ hreq => ?_⟩
  · have hvacated := IPPool.trail_call hp hne isIPv6 now clk
    rw [hcall] at hvacated
    obtain ⟨done, ip, rest, hsplit, hstops, hdead, hvac⟩ := hvacated
    exact ⟨done, ip, rest, hsplit, hstops, hdead, hvac.without⟩
  · exact noNewMapping_handleDNSRequest hp hreq

/-- A pool with one fake of each family, the IPv4 one with a lease that has run out. -/
def smallPool : IPPool :=
  [Call.addMapping [9, 9, 9, 9] [198, 18, 0, 1] 1 0].foldl Call.run
    (newIPPoolWithConfig [] [] ⟨1, 1⟩)

theorem repInv_smallPool : RepInv smallPool :=
  Call.repInv_foldl (.new [] [] ⟨1, 1⟩) (by simp [Call.addresses, IP.WellFormed])

/-- A response with one IPv4 address and two IPv6 addresses. -/
def crowdedResponse : Msg where
  truncated := false
  authenticatedData := false
  answer := [⟨[], 1, 300, .a [9, 9, 9, 9]⟩, ⟨[], 1, 300, .aaaa (List.replicate 16 1)⟩,
    ⟨[], 1, 300, .aaaa (List.replicate 16 2)⟩]
  ns := []
  extra := []

/-- A call that finds no fake, and a request that allocates a fake for its IPv4 address and fails on
its second IPv6 address. -/
theorem no_trace_smallPool :
    (∃ done ip rest, IPPool.sortReals [[9, 9, 9, 9], [1, 1, 1, 1]] = done ++ ip :: rest ∧
      smallPool.StopsAt false minute (fun _ => minute) done ip ∧
      (∀ f, ¬ smallPool.Live minute ip f) ∧ Without smallPool minute (done ++ [ip])
        (smallPool.getFakeIPsForReals [[9, 9, 9, 9], [1, 1, 1, 1]] false minute
          fun _ => minute).1) ∧
    NoNewMapping smallPool
      (DNSProxy.handleDNSRequest ⟨[[]], 60, true⟩ ⟨fun _ _ => some crowdedResponse, fun _ _ => none⟩
        [[]] ⟨minute, fun _ => minute, minute, fun _ => minute⟩ smallPool).1 := by
  have hcall : (smallPool.getFakeIPsForReals [[9, 9, 9, 9], [1, 1, 1, 1]] false minute
      fun _ => minute).2.isNone = true := by decide +kernel
  have hreq : (DNSProxy.handleDNSRequest ⟨[[]], 60, true⟩
      ⟨fun _ _ => some crowdedResponse, fun _ _ => none⟩ [[]]
      ⟨minute, fun _ => minute, minute, fun _ => minute⟩ smallPool).2.isFailed = true := by
    decide +kernel
  obtain ⟨hfirst, hsecond⟩ := failure_leaves_no_trace repInv_smallPool
  exact ⟨hfirst _ _ _ _ _ (by simp) (Prod.ext rfl (Option.isNone_iff_eq_none.1 hcall)),
    hsecond _ _ _ _ _ (Prod.ext rfl (eq_failed_of_isFailed hreq))⟩

/-- **An expired mapping may stay.** The call fails on `1.1.1.1`, which comes first, because the
only fake is held by the expired mapping of `9.9.9.9`; that mapping, though its address is requested
too, is not deleted. -/
theorem expired_mapping_stays :
    let reals : List IP := [[1, 1, 1, 1], [9, 9, 9, 9]]
    let out := smallPool.getFakeIPsForReals reals false minute fun _ => minute
    RepInv smallPool ∧ out.2.isNone = true ∧
      smallPool.Expired minute [9, 9, 9, 9] (toIPKey [198, 18, 0, 1]) ∧
      out.1.realOf (toIPKey [198, 18, 0, 1]) = some (toIPKey [9, 9, 9, 9]) ∧
      ¬ Without smallPool minute reals out.1 := by
  intro reals out
  have hexp : smallPool.Expired minute [9, 9, 9, 9] (toIPKey [198, 18, 0, 1]) :=
    ⟨0, by decide, by decide +kernel⟩
  have hreal : out.1.realOf (toIPKey [198, 18, 0, 1]) = some (toIPKey [9, 9, 9, 9]) := by
    decide +kernel
  refine ⟨repInv_smallPool, by decide +kernel, hexp, hreal, fun hwithout => ?_⟩
  exact ((hwithout.realOf _ _).1 hreal).2 [9, 9, 9, 9] (by simp [reals]) hexp

end NextPath.Proxy
