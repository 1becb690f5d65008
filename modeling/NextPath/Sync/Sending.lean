import NextPath.Pool.Canonical
import NextPath.Sync.Queues
import NextPath.Sync.Usable

/-!
# What a node sends is valid

The nodes of a cluster have one configuration. If it is regular, the fakes that a node allocates lie
in the networks that all of them advertise, each of the family of its real. So do those that it
accepts, and what it queues for its peers comes from its requests or from its pool.

* `valid_of_allocated`, `valid_of_mem_getAllMappings`: the mappings of the two sources are valid.
* `Sends.step`: a node that is sent valid mappings sends none that are not.
-/

namespace NextPath.Sync

open Net Pool
open Intake (AllUsable Requested)

/-! ## The two sources -/

section Sources

variable {p : IPPool} (hp : AllUsable p)

include hp

/-- What a section allocates makes a valid mapping. -/
theorem valid_of_allocated {realIP : IP} {isIPv6 : Bool} (hreq : Requested isIPv6 realIP)
    (hwf : realIP.WellFormed) {now clk : Time} {info : MappingInfo}
    (h : (p.secure realIP isIPv6 now clk).2 = .allocated info)
    (hparse : parseIP realIP.string ≠ []) :
    Mapping.Valid (.ofPool p.toPoolRange)
      ⟨info.ip, familyForm isIPv6 (parseIP realIP.string), info.version⟩ := by
  have hsec := p.secured_secure realIP isIPv6 now clk
  rw [h] at hsec
  generalize (p.secure realIP isIPv6 now clk).1 = q at hsec
  cases hsec with
  | fresh dead find =>
    have hrange : (p.vacate realIP).toPoolRange = p.toPoolRange :=
      (vacate_updates hwf isIPv6 clk dead).toPoolRange_eq
    obtain ⟨hin, hfamily⟩ := Regular.findFake (hrange ▸ hp.masked) (hrange ▸ hp.regular) find
    rw [hrange] at hin
    have hreal : (familyForm isIPv6 (parseIP realIP.string)).WellFormed ∧
        toIPKey (familyForm isIPv6 (parseIP realIP.string)) = toIPKey realIP := by
      cases isIPv6 with
      | false =>
        have hlen : realIP.length = 4 := hreq
        have h4 : realIP.to4 = realIP := IP.to4_of_length hlen
        refine ⟨.inl ?_, toIPKey_familyForm hparse fun _ => by rw [h4]; exact hwf.ne_nil⟩
        rw [parseIP_string hwf, familyForm, if_neg (by simp), IP.to4_to16 realIP hwf, h4, hlen]
      | true =>
        refine ⟨.inr ?_, toIPKey_familyForm hparse fun hv4 => by cases hv4⟩
        rw [parseIP_string hwf, familyForm, if_pos rfl, IP.to16_to16 realIP hwf]
        exact IP.length_to16 hwf
    exact ⟨.inr (IPPool.length_of_findFake _ find), hreal.1, hin,
      by rw [hfamily, hreal.2, Intake.isIPv6_of_requested hreq]⟩

/-- What the pool holds makes valid mappings. -/
theorem valid_of_mem_getAllMappings {order : List IPKey} {m : Mapping}
    (hm : m ∈ getAllMappings p order) : m.Valid (.ofPool p.toPoolRange) := by
  obtain ⟨f, -, hf⟩ := List.mem_filterMap.1 hm
  obtain ⟨r, hr, rfl⟩ := Option.map_eq_some_iff.1 hf
  obtain ⟨hin, hfamily⟩ := hp.matches' f r hr
  exact ⟨f.wellFormed_toIP, r.wellFormed_toIP, hin,
    by rw [toIPKey_toIP, toIPKey_toIP, hfamily]⟩

end Sources

/-! ## A node -/

/-- The reals that a call is made for. -/
def Asked (isIPv6 : Bool) (realIP : IP) : Prop := Requested isIPv6 realIP ∧ realIP.WellFormed

/-- What comes from outside is as it should be: the addresses in a response are addresses, and the
mappings of peers are valid. -/
def Admitted (c : PoolRange) : Join.Event → Prop
  | .query enableIPv6 resp _ =>
    ∀ ip ∈ (Proxy.collect enableIPv6 resp).v4 ++ (Proxy.collect enableIPv6 resp).v6, ip.WellFormed
  | .receive m _ _ => m.Valid (.ofPool c)
  | _ => True

/-- The pool and the requests of a node with the range `c`: every mapping can be used, and what the
requests will broadcast is valid. -/
structure Holding (c : PoolRange) (proxy : Proxy.State) : Prop where
  usable : AllUsable proxy.pool
  range : proxy.pool.toPoolRange = c
  requests : ∀ {j : ℕ} {req : Proxy.Request}, proxy.requests[j]? = some req →
    Throughout Asked (Mapping.Valid (.ofPool c)) req

/-- All that a node has queued, or is going to queue, is valid for the nodes with the same range. -/
structure Sends (c : PoolRange) (s : Join.Node) : Prop where
  nets : s.nets = .ofPool c
  holding : Holding c s.proxy
  queued : ∀ {i : ℕ} {sc : SafeConn}, s.links[i]? = some sc →
    ∀ m, m ∈ sc.queued ∨ m ∈ sc.toSend → m.Valid (.ofPool c)

/-- A node of a regular configuration that starts with an empty pool. -/
theorem Sends.start (uuid : UInt64) {base4 base6 : Bytes} {cfg : IPPoolConfig}
    (h : Regular (newIPPoolWithConfig base4 base6 cfg).toPoolRange) :
    Sends (newIPPoolWithConfig base4 base6 cfg).toPoolRange
      (.start uuid (.ofPool (newIPPoolWithConfig base4 base6 cfg).toPoolRange)
        (newIPPoolWithConfig base4 base6 cfg)) where
  nets := rfl
  holding := ⟨.new h, rfl, fun hreq => by simp [Join.Node.start] at hreq⟩
  queued hsc := by simp [Join.Node.start] at hsc

section Step

variable {c : PoolRange} {s : Join.Node} {e : Join.Event}

/-- The pool makes one of the steps in which mappings enter it or leave it. -/
theorem Holding.setPool {proxy : Proxy.State} (h : Holding c proxy) {e : Intake.Event}
    (hallowed : Intake.Allowed proxy.pool e) (hsane : Intake.Sane proxy.pool e) :
    Holding c { proxy with pool := Intake.step proxy.pool e } :=
  ⟨h.usable.step hallowed hsane, (h.usable.toPoolRange_step hsane).trans h.range, h.requests⟩

/-- The pool after a step of a request. -/
theorem Holding.advance_pool {proxy : Proxy.State} (h : Holding c proxy) {req : Proxy.Request}
    (hreq : Throughout Asked (Mapping.Valid (.ofPool c)) req) (t : Time) (k : ℕ) :
    Holding c { proxy with pool := (req.advance proxy.pool t k).1 } := by
  rcases req.advance_pool proxy.pool t k with
    heq | ⟨isIPv6, now, realIP, rest, found, hstatus, heq⟩ | ⟨next, -, heq⟩
  · rwa [heq]
  · obtain ⟨hrequested, hwf⟩ := (hreq.call hstatus).1 realIP List.mem_cons_self
    rw [heq]
    exact h.setPool (e := .secure realIP isIPv6 now t) hrequested hwf
  · rw [heq]
    exact h.setPool (e := .remove (parseIP next.1.1) next.1.2.ip) trivial trivial

theorem Holding.step (h : Holding c s.proxy) (hnets : s.nets = .ofPool c) (he : Admitted c e) :
    Holding c (Join.proxyStep s e) := by
  cases e with
  | query enableIPv6 resp now =>
    refine ⟨h.usable, h.range, fun {j req} hreq => ?_⟩
    rcases Proxy.requests_start hreq with hreq | rfl
    · exact h.requests hreq
    · refine .start (fun r hr => ⟨?_, he r (List.mem_append_left _ hr)⟩)
        (fun r hr => ⟨?_, he r (List.mem_append_right _ hr)⟩) now
      · exact Proxy.length_of_mem_collect hr
      · exact Proxy.to4_eq_nil_of_mem_collect hr
  | advance i t k =>
    rw [Join.proxyStep]
    cases hi : s.proxy.requests[i]? with
    | none => rwa [Proxy.step_advance_of_none hi]
    | some req =>
      have hpool := h.advance_pool (h.requests hi) t k
      rw [← Proxy.pool_step_advance hi] at hpool
      refine ⟨hpool.usable, hpool.range, fun {j other} hother => ?_⟩
      rcases Proxy.requests_advance hother with ⟨-, hother⟩ | ⟨rfl, old, hold, rfl⟩
      · exact h.requests hother
      · refine (h.requests hold).advance s.proxy.pool t k fun _ hreal hsecure hparse => ?_
        rw [← h.range]
        exact valid_of_allocated h.usable hreal.1 hreal.2 hsecure hparse
  | receive m t t' =>
    have hpool := h.setPool (e := .receive m t t') trivial fun _ =>
      ⟨he.wellFormed_realIP, he.sameFamily.symm⟩
    rw [Intake.step, h.range] at hpool
    rwa [Join.proxyStep, hnets]
  | prune now order => exact h.setPool (e := .prune now order) trivial trivial
  | _ => exact h

/-- **A node that is sent valid mappings sends none that are not.** -/
theorem Sends.step (h : Sends c s) (he : Admitted c e) : Sends c (Join.step s e) := by
  obtain ⟨hproxy, -, hnets⟩ := Join.core_step s e
  refine ⟨hnets.trans h.nets, hproxy ▸ h.holding.step h.nets he, fun {i sc'} hsc' m hm => ?_⟩
  have hlinks := Join.links_step s e
  cases hsc : s.links[i]? with
  | none =>
    have hblank := hlinks.new hsc hsc'
    rw [hblank.queued, hblank.toSend] at hm
    simp at hm
  | some sc =>
    obtain ⟨sc'', hsc'', hev⟩ := hlinks.old hsc
    obtain rfl : sc'' = sc' := Option.some.inj (hsc''.symm.trans hsc')
    rcases hev.source m hm with hm | ⟨q, hm⟩ | ⟨order, hm⟩
    · exact h.queued hsc m hm
    · obtain ⟨req, hreq, hm⟩ := Join.Node.mem_message.1 hm
      exact (h.holding.requests hreq).toBroadcast m hm
    · rw [← h.holding.range]
      exact valid_of_mem_getAllMappings h.holding.usable hm

end Step

end NextPath.Sync
