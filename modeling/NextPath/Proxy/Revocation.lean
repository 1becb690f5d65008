import NextPath.Proxy.Requests

/-!
# Answers that are taken back

A mapping becomes visible to the other requests when the section that makes it ends, and may be
removed much later, when its request fails on another real. In between another request can read it
and be answered. Apart from that no answer loses its mappings, in any interleaving of any number of
requests.

The condition `Unshared` is about the removals only: a mapping is not taken back while another
request, which has not failed, holds its fake.
-/

namespace NextPath.Proxy

open Net Pool
open IPPool (Found)

/-! ## The property -/

/-- What the calls of a request have returned, unless it is being taken back. -/
def Request.returned (req : Request) : List Found :=
  match req.status with
  | .undo _ _ => []
  | _ => [req.found4, req.found6]

/-- The pool maps each real of a result to its fake, and no other real to that fake. -/
def Kept (p : IPPool) (found : Found) : Prop :=
  ∀ ip fake, found.result.lookup ip.string = some fake →
    p.fakeAt ip = some (toIPKey fake) ∧
      ∀ ip', p.fakeAt ip' = some (toIPKey fake) → toIPKey ip' = toIPKey ip

/-! ## The conditions -/

/-- The section that the request is about to enter meets no lease that has run out. -/
def Request.LeaseHolds (p : IPPool) (req : Request) : Prop :=
  match req.status with
  | .call _ now (realIP :: _) true _ => p.Unexpired now realIP
  | _ => True

instance (p : IPPool) : DecidablePred (Request.LeaseHolds p)
  | ⟨_, _, _, .call _ now (realIP :: _) true _⟩ =>
    inferInstanceAs (Decidable (p.Unexpired now realIP))
  | ⟨_, _, _, .call _ _ (_ :: _) false _⟩ | ⟨_, _, _, .call _ _ [] _ _⟩ | ⟨_, _, _, .undo _ _⟩
  | ⟨_, _, _, .answered⟩ => isTrue trivial

/-- No lease runs out. -/
def LeasesHold (s : State) : Event → Prop
  | .advance i _ _ => ∀ req ∈ s.requests[i]?, req.LeaseHolds s.pool
  | .start _ _ => True

instance (s : State) : DecidablePred (LeasesHold s)
  | .advance i _ _ => inferInstanceAs (Decidable (∀ req ∈ s.requests[i]?, req.LeaseHolds s.pool))
  | .start _ _ => isTrue trivial

/-- What a request has found so far, unless it is being taken back. -/
def Request.founds (req : Request) : List Found :=
  match req.status with
  | .call _ _ _ _ found => [req.found4, req.found6, found]
  | .answered => [req.found4, req.found6]
  | .undo _ _ => []

/-- A fake is none of those of a result. -/
def Avoids (found : Found) (f : IPKey) : Prop :=
  ∀ s ∈ found.result.keys, ∀ fake ∈ found.result.lookup s, toIPKey fake ≠ f

instance (found : Found) (f : IPKey) : Decidable (Avoids found f) :=
  inferInstanceAs (Decidable (∀ s ∈ found.result.keys, ∀ fake ∈ found.result.lookup s, _))

/-- No request but the `i`-th holds the fake. -/
def HeldOnlyBy (s : State) (i : ℕ) (f : IPKey) : Prop :=
  ∀ j < s.requests.length, j ≠ i → ∀ other ∈ s.requests[j]?, ∀ found ∈ other.founds, Avoids found f

instance (s : State) (i : ℕ) (f : IPKey) : Decidable (HeldOnlyBy s i f) :=
  inferInstanceAs (Decidable (∀ j < s.requests.length, j ≠ i → ∀ other ∈ s.requests[j]?,
    ∀ found ∈ other.founds, Avoids found f))

/-- A removal that takes effect is not of a fake that another request holds. -/
def Unshared (s : State) : Event → Prop
  | .advance i _ k =>
    ∀ req ∈ s.requests[i]?, ∀ next ∈ req.status.removal k,
      s.pool.fakeAt (parseIP next.1.1) = some (toIPKey next.1.2.ip) →
        HeldOnlyBy s i (toIPKey next.1.2.ip)
  | .start _ _ => True

instance (s : State) : DecidablePred (Unshared s)
  | .advance i _ k =>
    inferInstanceAs (Decidable (∀ req ∈ s.requests[i]?, ∀ next ∈ req.status.removal k,
      s.pool.fakeAt (parseIP next.1.1) = some (toIPKey next.1.2.ip) →
        HeldOnlyBy s i (toIPKey next.1.2.ip)))
  | .start _ _ => isTrue trivial

/-! ## One step of a request -/

/-- The entries of a result are mappings of the pool. -/
def Mapped (p : IPPool) (found : Found) : Prop :=
  ∀ ip fake, found.result.lookup ip.string = some fake → p.fakeAt ip = some (toIPKey fake)

theorem mapped_empty (p : IPPool) : Mapped p ⟨∅, ∅⟩ := fun _ _ h => by simp at h

theorem Mapped.insert {p : IPPool} {found : Found} (h : Mapped p found) {realIP fake : IP}
    (hfake : p.fakeAt realIP = some (toIPKey fake)) (new : AList fun _ : Bytes => MappingInfo) :
    Mapped p ⟨found.result.insert realIP.string fake, new⟩ := by
  intro ip fake' hip
  rw [Map.lookup_insert_ite] at hip
  split_ifs at hip with hstr
  · rw [p.fakeAt_of_string_eq hstr, hfake, Option.some.inj hip]
  · exact h ip fake' hip

theorem Mapped.mono {p q : IPPool} {found : Found} (h : Mapped p found)
    (hkeep : ∀ ip f, p.fakeAt ip = some f → q.fakeAt ip = some f) : Mapped q found :=
  fun ip fake hip => hkeep ip _ (h ip fake hip)

theorem mapped_enter6 {req : Request} {p : IPPool} (h4 : Mapped p req.found4)
    (h6 : Mapped p req.found6) (t : Time) : ∀ found ∈ (req.enter6 t).founds, Mapped p found := by
  by_cases hnil : req.reals6 = []
  · simp only [Request.enter6, if_pos hnil, Request.founds, List.forall_mem_cons]
    exact ⟨h4, h6, by simp⟩
  · simp only [Request.enter6, if_neg hnil, Request.founds, List.forall_mem_cons]
    exact ⟨h4, h6, mapped_empty p, by simp⟩

theorem mapped_start (reals : Reals) (now : Time) (p : IPPool) :
    ∀ found ∈ (Request.start reals now).founds, Mapped p found := by
  rw [Request.start]
  split_ifs
  · exact mapped_enter6 (mapped_empty p) (mapped_empty p) now
  · simp only [Request.founds, List.forall_mem_cons]
    exact ⟨mapped_empty p, mapped_empty p, mapped_empty p, by simp⟩

/-- A step keeps every mapping but the one it removes. -/
theorem fakeAt_advance {req : Request} {p : IPPool} (hlease : req.LeaseHolds p) (t : Time) {k : ℕ}
    {ip : IP} {f : IPKey} (h : p.fakeAt ip = some f)
    (hne : ∀ next ∈ req.status.removal k,
      p.fakeAt (parseIP next.1.1) = some (toIPKey next.1.2.ip) → f ≠ toIPKey next.1.2.ip) :
    (req.advance p t k).1.fakeAt ip = some f := by
  rcases req.advance_pool p t k with
    heq | ⟨isIPv6, now, realIP, rest, found, hstatus, heq⟩ | ⟨next, hnext, heq⟩
  · rwa [heq]
  · rw [Request.LeaseHolds, hstatus] at hlease
    rw [heq]
    exact IPPool.fakeAt_secure hlease isIPv6 t h
  · rw [heq]
    exact IPPool.fakeAt_removeMapping h (hne next hnext)

/-- What a request has found is mapped in the pool after its step as well. -/
theorem mapped_advance {req : Request} {p : IPPool} (hlease : req.LeaseHolds p) (t : Time) (k : ℕ)
    (h : ∀ found ∈ req.founds, Mapped p found) :
    ∀ found ∈ (req.advance p t k).2.founds, Mapped (req.advance p t k).1 found := by
  rcases req with ⟨reals6, found4, found6, status⟩
  cases status with
  | call isIPv6 now todo looked found =>
    simp only [Request.founds, List.forall_mem_cons] at h
    obtain ⟨h4, h6, hcall, -⟩ := h
    -- the call goes on, with what it had found and one more entry
    have hnext {q : IPPool} {found' : Found} {rest : List IP} {looked : Bool}
        (hkeep : ∀ ip f, p.fakeAt ip = some f → q.fakeAt ip = some f) (hq : Mapped q found') :
        ∀ found ∈ Request.founds
          ⟨reals6, found4, found6, .call isIPv6 now rest looked found'⟩, Mapped q found := by
      simp only [Request.founds, List.forall_mem_cons]
      exact ⟨h4.mono hkeep, h6.mono hkeep, hq, by simp⟩
    cases todo with
    | nil =>
      cases isIPv6 with
      | false => exact mapped_enter6 hcall h6 t
      | true =>
        simp only [Request.advance, if_true, Request.founds, List.forall_mem_cons]
        exact ⟨h4, hcall, by simp⟩
    | cons realIP rest =>
      cases looked with
      | false =>
        simp only [Request.advance]
        cases hpeek : p.peek now realIP with
        | none => exact hnext (fun _ _ hf => hf) hcall
        | some fake =>
          refine hnext (fun _ _ hf => hf) (hcall.insert ?_ _)
          rw [toIPKey_toIP]
          exact (p.secured_peek hpeek isIPv6 t).live_existing.2
      | true =>
        have hkeep (ip : IP) (f : IPKey) (hf : p.fakeAt ip = some f) :=
          IPPool.fakeAt_secure hlease isIPv6 t hf
        have hsec := p.secured_secure realIP isIPv6 now t
        simp only [Request.advance]
        generalize p.secure realIP isIPv6 now t = out at hkeep hsec ⊢
        rcases out with ⟨q, fake | info | _⟩
        · refine hnext hkeep ((hcall.mono hkeep).insert ?_ _)
          rw [toIPKey_toIP]
          exact hsec.live_existing.1.1
        · exact hnext hkeep ((hcall.mono hkeep).insert hsec.live_allocated.1 _)
        · exact fun _ hfound => absurd hfound List.not_mem_nil
  | undo own earlier =>
    -- nothing is held any more
    simp only [Request.advance]
    cases hnext : Status.removal k (.undo own earlier) with
    | none => exact fun _ hfound => absurd hfound List.not_mem_nil
    | some next =>
      obtain ⟨own', earlier', hstatus⟩ := undo_of_removal hnext
      intro found hfound
      simp only [hstatus] at hfound
      exact absurd hfound List.not_mem_nil
  | answered => exact h

theorem exclusive_advance {p : IPPool} (h : Exclusive p) (req : Request) (t : Time) (k : ℕ) :
    Exclusive (req.advance p t k).1 := by
  rcases req.advance_pool p t k with
    heq | ⟨isIPv6, now, realIP, rest, found, -, heq⟩ | ⟨next, -, heq⟩
  · rwa [heq]
  · rw [heq]
    exact h.secured (p.secured_secure realIP isIPv6 now t)
  · rw [heq]
    exact h.removeMapping _ _

/-! ## Runs of requests -/

/-- What every request holds is mapped in the pool. -/
structure Inv (s : State) : Prop where
  exclusive : Exclusive s.pool
  mapped : ∀ {j : ℕ} {req : Request}, s.requests[j]? = some req →
    ∀ found ∈ req.founds, Mapped s.pool found

theorem Avoids.ne {found : Found} {f : IPKey} (h : Avoids found f) {s : Bytes} {fake : IP}
    (hs : found.result.lookup s = some fake) : toIPKey fake ≠ f :=
  h s (Finmap.mem_keys.2 (Finmap.mem_of_lookup_eq_some hs)) fake hs

theorem Inv.step {s : State} {e : Event} (h : Inv s) (hlease : LeasesHold s e)
    (hshare : Unshared s e) : Inv (step s e) := by
  cases e with
  | start reals now =>
    refine ⟨h.exclusive, fun {j req} hreq => ?_⟩
    rcases requests_start hreq with hreq | rfl
    · exact h.mapped hreq
    · exact mapped_start reals now s.pool
  | advance i t k =>
    cases hi : s.requests[i]? with
    | none => rwa [step_advance_of_none hi]
    | some req =>
      have hreq := hlease req hi
      have hexclusive := exclusive_advance h.exclusive req t k
      rw [← pool_step_advance hi] at hexclusive
      refine ⟨hexclusive, fun {j other} hother => ?_⟩
      rw [pool_step_advance hi]
      rcases requests_advance hother with ⟨hj, hother⟩ | ⟨rfl, old, hold, rfl⟩
      · -- another request: its mappings are kept, unless the step removes one of them
        intro found hfound ip fake hip
        refine fakeAt_advance hreq t (h.mapped hother found hfound ip fake hip)
          fun next hnext heffect => ?_
        have hlt := (List.getElem?_eq_some_iff.1 hother).1
        exact (hshare req hi next hnext heffect j hlt (Ne.symm hj) other hother found hfound).ne hip
      · obtain rfl := Option.some.inj (hi.symm.trans hold)
        exact mapped_advance hreq t k (h.mapped hi)

theorem returned_subset_founds (req : Request) : req.returned ⊆ req.founds := by
  rcases req with ⟨reals6, found4, found6, status⟩
  cases status <;> simp [Request.returned, Request.founds]

theorem Inv.kept {s : State} (h : Inv s) {req : Request} (hreq : req ∈ s.requests) {found : Found}
    (hfound : found ∈ req.returned) : Kept s.pool found := by
  intro ip fake hip
  obtain ⟨j, hj⟩ := List.mem_iff_getElem?.1 hreq
  have hfake := h.mapped hj found (returned_subset_founds req hfound) ip fake hip
  exact ⟨hfake, fun ip' hip' => (h.exclusive.unique hip' hfake).2⟩

/-! ## Two runs -/

/-- Three reals, and a fake. -/
def realA : IP := [192, 0, 2, 1]

def realB : IP := [192, 0, 2, 2]

def realC : IP := [192, 0, 2, 3]

def fakeA : IP := v4InV6Prefix ++ [198, 18, 0, 1]

/-- A request for IPv4 reals. -/
def ask (reals : List IP) : Event := .start ⟨reals, []⟩ 0

/-- A request moves, and removes the first mapping if it has to remove one. -/
def move (i : ℕ) : Event := .advance i 0 0

/-- A pool with a single fake to give. -/
def onePool : IPPool := newIPPoolWithConfig [] [] ⟨1, 256⟩

/-- The first request makes a mapping, the second reads it and is answered, the first fails on its
other real and takes the mapping back, and the third is given the fake. -/
def revokingRun : List Event :=
  [ask [realA, realB], move 0, move 0, ask [realA], move 1, move 1, move 0, move 0, move 0,
    ask [realC], move 2, move 2, move 2]

/-- The second and the third request are answered with the same fake for two reals, and only the
third real is mapped to it. -/
theorem answer_revoked :
    RepInv onePool ∧ Runs.Along step LeasesHold ⟨onePool, []⟩ revokingRun ∧
      ∃ req₁ req₂, (Runs.run step ⟨onePool, []⟩ revokingRun).requests[1]? = some req₁ ∧
        (Runs.run step ⟨onePool, []⟩ revokingRun).requests[2]? = some req₂ ∧
        (∃ found ∈ req₁.returned, found.result.lookup realA.string = some fakeA ∧
          ¬ Kept (Runs.run step ⟨onePool, []⟩ revokingRun).pool found) ∧
        ∃ found ∈ req₂.returned, found.result.lookup realC.string = some fakeA := by
  have hpool : (Runs.run step ⟨onePool, []⟩ revokingRun).pool.fakeAt realA = none := by
    decide +kernel
  have hfirst : (Runs.run step ⟨onePool, []⟩ revokingRun).requests[1]?.map (fun req =>
      decide (∃ found ∈ req.returned, found.result.lookup realA.string = some fakeA)) =
        some true := by decide +kernel
  have hsecond : (Runs.run step ⟨onePool, []⟩ revokingRun).requests[2]?.map (fun req =>
      decide (∃ found ∈ req.returned, found.result.lookup realC.string = some fakeA)) =
        some true := by decide +kernel
  obtain ⟨req₁, hreq₁, hfound₁⟩ := Option.map_eq_some_iff.1 hfirst
  obtain ⟨req₂, hreq₂, hfound₂⟩ := Option.map_eq_some_iff.1 hsecond
  obtain ⟨found, hmem, hlookup⟩ := of_decide_eq_true hfound₁
  refine ⟨RepInv.new _ _ _, by decide +kernel, req₁, req₂, hreq₁, hreq₂,
    ⟨found, hmem, hlookup, fun hkept => ?_⟩, of_decide_eq_true hfound₂⟩
  exact absurd (hpool.symm.trans (hkept realA fakeA hlookup).1) (by simp)

/-- A pool with two fakes to give. -/
def twoPool : IPPool := newIPPoolWithConfig [] [] ⟨3, 256⟩

/-- Two requests share a mapping and are answered; a third fails and takes back one of its own. -/
def sharingRun : List Event :=
  [ask [realA], move 0, move 0, ask [realA], move 1, move 1, ask [realB, realC], move 2, move 2,
    move 2, move 2, move 0, move 2]

/-- **Answers are kept, unless a mapping is taken back that another request has read.** In every
run from a consistent pool in which no lease runs out and no request removes a fake that another
one holds, the pool maps the reals of every answer to their fakes, and nothing else to these. -/
theorem kept_of_unshared {p : IPPool} (h : RepInv p) {es : List Event}
    (hlease : Runs.Along step LeasesHold ⟨p, []⟩ es)
    (hshare : Runs.Along step Unshared ⟨p, []⟩ es) :
    ∀ req ∈ (Runs.run step ⟨p, []⟩ es).requests, ∀ found ∈ req.returned,
      Kept (Runs.run step ⟨p, []⟩ es).pool found := by
  have hinit : Inv ⟨p, []⟩ := ⟨h.exclusive, fun {j req} hreq => by simp at hreq⟩
  have hrun : Inv (Runs.run step ⟨p, []⟩ es) :=
    Runs.invariant (C := fun s e => LeasesHold s e ∧ Unshared s e)
      (fun s e hs hC => hs.step hC.1 hC.2) hinit
      fun x hx => ⟨hlease x hx, hshare x hx⟩
  exact fun req hreq found hfound => hrun.kept hreq hfound

theorem kept_after_sharingRun :
    (∃ req found, (Runs.run step ⟨twoPool, []⟩ sharingRun).requests[1]? = some req ∧
      found ∈ req.returned ∧ found.result.lookup realA.string = some fakeA) ∧
      ∀ req ∈ (Runs.run step ⟨twoPool, []⟩ sharingRun).requests, ∀ found ∈ req.returned,
        Kept (Runs.run step ⟨twoPool, []⟩ sharingRun).pool found := by
  have hfound : (Runs.run step ⟨twoPool, []⟩ sharingRun).requests[1]?.map (fun req =>
      decide (∃ found ∈ req.returned, found.result.lookup realA.string = some fakeA)) =
        some true := by decide +kernel
  obtain ⟨req, hreq, hfound⟩ := Option.map_eq_some_iff.1 hfound
  obtain ⟨found, hmem, hlookup⟩ := of_decide_eq_true hfound
  exact ⟨⟨req, found, hreq, hmem, hlookup⟩,
    kept_of_unshared (RepInv.new _ _ _) (by decide +kernel) (by decide +kernel)⟩

end NextPath.Proxy
