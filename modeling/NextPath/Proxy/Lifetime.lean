import NextPath.Pool.Pruning
import NextPath.Pool.Served
import NextPath.Proxy.Collection
import NextPath.Proxy.Revocation
import NextPath.Sync.Receive

/-!
# Answers and their leases

A client keeps an answer for the TTL of its records and connects to a fake as long as it has it, so
that the fake has to stay with its real until then. While a request runs, and after it, the node
goes on: other requests come and fail, the pruner of the pool deletes the leases that had run out at
its last scan, and peers send mappings.

A call hands out a fake only with a lease that has five minutes to run at the time the call has
read. So let `T` be at most five minutes later. No step that reads its clock before `T` ends a lease
that lasts until `T`:

* `Lasts.secured`: a section never shortens a lease that has not run out;
* `Lasts.pruneEntries`: the pruner deletes a pair only after its lease;
* `Lasts.removeMapping`, `Lasts.receive`: a mapping that is taken back or displaced is the only one
  that goes.

The two ways in which a pair is lost are those of the condition `Undisturbed`. Without them every
answer of the run has its mappings until `T` (`mapped_while_cached`), and the TTLs that the handler
writes end before that.
-/

namespace NextPath.Proxy

open Net Pool Sync
open IPPool (Found)

/-! ## Leases that last -/

/-- The pool has the pair, with a lease that runs until `T` or longer. -/
def Lasts (T : Time) (p : IPPool) (r f : IPKey) : Prop :=
  ∃ x ∈ p.leases, x.real = r ∧ x.fake = f ∧ T ≤ x.expiry

/-- The fakes of the rows that the pool gives up for a mapping it accepts. -/
def displaced (p : IPPool) (m : Mapping) : List IPKey :=
  (p.fakeOf (toIPKey m.realIP)).toList.filter (· ≠ toIPKey m.fakeIP) ++
    if p.realOf (toIPKey m.fakeIP) = some (toIPKey m.realIP) then [] else [toIPKey m.fakeIP]

/-- A mapping of a peer leaves the table alone, or takes the place of the rows at its two ends. -/
theorem leases_receive {nets : Subnets} {p : IPPool} (h : RepInv p) {m : Mapping}
    (hm : m.realIP.WellFormed) (t t' : Time) :
    RepInv (receive nets p m t t').1 ∧
      ((receive nets p m t t').1.leases = p.leases ∨
        (receive nets p m t t').2 = true ∧ (receive nets p m t t').1.leases =
          insert ⟨toIPKey m.realIP, toIPKey m.fakeIP, m.version, t' + mappingTTL⟩
            {x ∈ p.leases | x.real ≠ toIPKey m.realIP ∧ x.fake ≠ toIPKey m.fakeIP}) := by
  simp only [receive]
  split_ifs
  · exact ⟨h, .inl rfl⟩
  · exact ⟨h, .inl rfl⟩
  · exact ⟨h, .inl rfl⟩
  · have htick : RepInv (p.observeVersion m.version t) := h.tick _
    obtain ⟨-, hno, hyes, -⟩ := exact_addMapping htick hm m.fakeIP m.version (t' + mappingTTL)
    cases hout : ((p.observeVersion m.version t).addMapping m.realIP m.fakeIP m.version
        (t' + mappingTTL)).2 with
    | false =>
      rw [hno hout]
      exact ⟨htick, .inl rfl⟩
    | true => exact ⟨(hyes hout).1, .inr ⟨rfl, (hyes hout).2.2.2⟩⟩

namespace Lasts

variable {T now : Time} {p q : IPPool} {r f : IPKey}

theorem fakeOf (h : Lasts T p r f) : p.fakeOf r = some f := by
  obtain ⟨x, hx, rfl, rfl, -⟩ := h
  exact hx.1

theorem realOf (h : Lasts T p r f) (hp : RepInv p) : p.realOf f = some r :=
  (hp.fakeOf_iff r f).1 h.fakeOf

/-- A section leaves the row of its real as it is, or puts off its end. -/
theorem secured (h : Lasts T p r f) (hp : RepInv p) {realIP : IP} (hr : realIP.WellFormed)
    (hnow : now < T) (isIPv6 : Bool) (clk : Time) :
    Lasts T (p.secure realIP isIPv6 now clk).1 r f := by
  obtain ⟨x, hx, rfl, rfl, hT⟩ := h
  by_cases hreal : x.real = toIPKey realIP
  · have hslot := (p.mem_leases_iff.1 hx).1
    rw [hreal, ← getShardIndex_eq hr, IPPool.slot, Prod.mk.injEq] at hslot
    have hlive : now < x.expiry := lt_of_lt_of_le hnow hT
    simp only [IPPool.secure, hslot.1, hslot.2, if_pos hlive]
    split_ifs with hsoon
    · -- the new end is two hours away, the old one less than five minutes
      refine ⟨{ x with expiry := now + mappingTTL }, ?_, rfl, rfl, ?_⟩
      · rw [getShardIndex_eq hr, ← hreal, leases_refresh hx]
        exact Set.mem_insert _ _
      · have hlonger : 5 * minute ≤ mappingTTL := by decide
        exact hT.trans (hsoon.le.trans (add_le_add_right hlonger now))
    · exact ⟨x, hx, rfl, rfl, hT⟩
  · have hsec := p.secured_secure realIP isIPv6 now clk
    exact ⟨x, (hsec.mem_leases_iff_of_ne hp hr hreal).2 hx, rfl, rfl, hT⟩

/-- The delete phase of the pruner, with whatever pairs a scan has noted. -/
theorem pruneEntries (h : Lasts T p r f) (hp : RepInv p) (hnow : now ≤ T) (i : Fin 64)
    (expired : List (IPKey × IPKey)) : Lasts T (p.pruneEntries i now expired) r f := by
  obtain ⟨x, hx, rfl, rfl, hT⟩ := h
  have hkeeps := ((pruneEntries_updates hp i now expired).leases_of_prune hp).2
  exact ⟨x, hkeeps x hx (not_lt.2 (hnow.trans hT)), rfl, rfl, hT⟩

/-- A removal takes effect on one pair only. -/
theorem removeMapping (h : Lasts T p r f) (hp : RepInv p) {realIP fakeIP : IP}
    (hne : p.fakeAt realIP = some (toIPKey fakeIP) → f ≠ toIPKey fakeIP) :
    Lasts T (p.removeMapping realIP fakeIP) r f := by
  obtain ⟨x, hx, rfl, rfl, hT⟩ := h
  refine ⟨x, ?_, rfl, rfl, hT⟩
  simp only [IPPool.removeMapping]
  split_ifs with hf
  · obtain ⟨hi, hpair⟩ := fakeOf_of_lookup hp hf
    rw [hi, leases_unbind hp hpair]
    refine ⟨hx, fun hreal => hne hf (Option.some.inj ?_)⟩
    rw [← hpair, ← hreal, hx.1]
  · exact hx

/-- The mapping of a peer that confirms a pair puts off the end of its lease. -/
theorem receive (h : Lasts T p r f) (hp : RepInv p) {nets : Subnets} {m : Mapping}
    (hm : m.realIP.WellFormed) {t t' : Time} (ht' : T ≤ t' + mappingTTL)
    (hne : (receive nets p m t t').2 = true → f ∉ displaced p m) :
    Lasts T (receive nets p m t t').1 r f := by
  obtain ⟨x, hx, rfl, rfl, hT⟩ := h
  rcases (leases_receive hp hm t t').2 with heq | ⟨haccepted, heq⟩
  · exact ⟨x, heq ▸ hx, rfl, rfl, hT⟩
  · have hout := hne haccepted
    simp only [displaced, List.mem_append, not_or] at hout
    have hreal := (hp.fakeOf_iff _ _).1 hx.1
    rw [Lasts, heq]
    by_cases hsame : x.real = toIPKey m.realIP
    · -- the pair is the one of the mapping
      have hfake : x.fake = toIPKey m.fakeIP := by
        by_contra hfake
        refine hout.1 (List.mem_filter.2 ⟨?_, by simpa using hfake⟩)
        rw [Option.mem_toList, ← hsame]
        exact hx.1
      exact ⟨_, Set.mem_insert _ _, hsame.symm, hfake.symm, ht'⟩
    · refine ⟨x, Set.mem_insert_of_mem _ ⟨hx, hsame, fun hfake => hout.2 ?_⟩, rfl, rfl, hT⟩
      rw [if_neg]
      · exact List.mem_singleton.2 hfake
      · rw [← hfake, hreal]
        exact fun e => hsame (Option.some.inj e)

end Lasts

/-! ## The node -/

/-- A step of a request, the deletions of the pruner in a shard, or a mapping from a peer. -/
inductive NodeEvent
  | request (e : Event)
  | prune (i : Fin 64) (now : Time) (expired : List (IPKey × IPKey))
  | receive (m : Mapping) (t t' : Time)

/-- One step of the node. -/
def nodeStep (nets : Subnets) (s : State) : NodeEvent → State
  | .request e => step s e
  | .prune i now expired => { s with pool := s.pool.pruneEntries i now expired }
  | .receive m t t' => { s with pool := (receive nets s.pool m t t').1 }

/-- The readings of the clock fall into the five minutes before `T`, and a mapping that is added
lasts until then. -/
def Timely (T : Time) : NodeEvent → Prop
  | .request (.start _ now) => T ≤ now + 5 * minute ∧ now < T
  | .request (.advance _ t _) => T ≤ t + 5 * minute ∧ t < T
  | .prune _ now _ => now ≤ T
  | .receive _ _ t' => T ≤ t' + mappingTTL

/-- The reals are addresses. -/
def WellAddressed : NodeEvent → Prop
  | .request (.start reals _) => ∀ ip ∈ reals.v4 ++ reals.v6, ip.WellFormed
  | .request (.advance ..) => True
  | .prune .. => True
  | .receive m _ _ => m.realIP.WellFormed

/-- No request loses a fake that it holds, because another one takes the mapping back or because a
mapping of a peer is accepted in its place. -/
def Undisturbed (nets : Subnets) (s : State) : NodeEvent → Prop
  | .request e => Unshared s e
  | .prune .. => True
  | .receive m t t' => (receive nets s.pool m t t').2 = true →
      ∀ f ∈ displaced s.pool m, ∀ req ∈ s.requests, ∀ found ∈ req.founds, Avoids found f

instance (T : Time) : DecidablePred (Timely T)
  | .request (.start _ now) => inferInstanceAs (Decidable (T ≤ now + 5 * minute ∧ now < T))
  | .request (.advance _ t _) => inferInstanceAs (Decidable (T ≤ t + 5 * minute ∧ t < T))
  | .prune _ now _ => inferInstanceAs (Decidable (now ≤ T))
  | .receive _ _ t' => inferInstanceAs (Decidable (T ≤ t' + mappingTTL))

instance : DecidablePred WellAddressed
  | .request (.start reals _) =>
    inferInstanceAs (Decidable (∀ ip ∈ reals.v4 ++ reals.v6, ip.WellFormed))
  | .request (.advance ..) => isTrue trivial
  | .prune .. => isTrue trivial
  | .receive m _ _ => inferInstanceAs (Decidable m.realIP.WellFormed)

instance (nets : Subnets) (s : State) : DecidablePred (Undisturbed nets s)
  | .request e => inferInstanceAs (Decidable (Unshared s e))
  | .prune .. => isTrue trivial
  | .receive m t t' => inferInstanceAs (Decidable ((receive nets s.pool m t t').2 = true →
      ∀ f ∈ displaced s.pool m, ∀ req ∈ s.requests, ∀ found ∈ req.founds, Avoids found f))

/-! ## One step of a request -/

/-- The reals that a request still has to treat are addresses, and a call that it is in has read a
time that meets the condition. -/
structure Request.Sound (C : Time → Prop) (req : Request) : Prop where
  reals6 : ∀ ip ∈ req.reals6, ip.WellFormed
  todo : ∀ isIPv6 now todo looked found, req.status = .call isIPv6 now todo looked found →
    C now ∧ ∀ ip ∈ todo, ip.WellFormed

/-- The entries of a result are mappings that last. -/
def Found.Lasts (T : Time) (p : IPPool) (found : Found) : Prop :=
  ∀ ip fake, ip.WellFormed → found.result.lookup ip.string = some fake →
    Proxy.Lasts T p (toIPKey ip) (toIPKey fake)

/-- What a request has found lasts, and what it is going to find will. -/
structure Request.Lasting (T : Time) (p : IPPool) (req : Request) : Prop where
  founds : ∀ found ∈ req.founds, Found.Lasts T p found
  call : ∀ isIPv6 now todo looked found, req.status = .call isIPv6 now todo looked found →
    T ≤ now + 5 * minute

section Step

variable {C : Time → Prop} {T now : Time} {p q : IPPool} {req : Request}

theorem Found.lasts_empty (T : Time) (p : IPPool) : Found.Lasts T p ⟨∅, ∅⟩ :=
  fun _ _ _ h => by simp at h

theorem Found.Lasts.mono {found : Found} (h : Found.Lasts T p found)
    (hkeep : ∀ r f, Proxy.Lasts T p r f → Proxy.Lasts T q r f) : Found.Lasts T q found :=
  fun ip fake hip hlookup => hkeep _ _ (h ip fake hip hlookup)

theorem Found.Lasts.insert {found : Found} (h : Found.Lasts T p found) {realIP fake : IP}
    (hr : realIP.WellFormed) (hfake : Proxy.Lasts T p (toIPKey realIP) (toIPKey fake))
    (new : AList fun _ : Bytes => MappingInfo) :
    Found.Lasts T p ⟨found.result.insert realIP.string fake, new⟩ := by
  intro ip fake' hip hlookup
  rw [Map.lookup_insert_ite] at hlookup
  split_ifs at hlookup with hstring
  · rw [(string_eq_iff hip hr).1 hstring, ← Option.some.inj hlookup]
    exact hfake
  · exact h ip fake' hip hlookup

theorem mem_sortReals {ip : IP} {reals : List IP} : ip ∈ IPPool.sortReals reals ↔ ip ∈ reals :=
  (List.perm_insertionSort _ reals).mem_iff

theorem Request.Sound.enter6 (h : ∀ ip ∈ req.reals6, ip.WellFormed) (hnow : C now) :
    (req.enter6 now).Sound C := by
  refine ⟨h, fun isIPv6 now' todo looked found hstatus => ?_⟩
  rw [Request.enter6] at hstatus
  split_ifs at hstatus with hnil
  obtain ⟨rfl, rfl, rfl, rfl, rfl⟩ := Status.call.inj hstatus
  exact ⟨hnow, fun ip hip => h ip (mem_sortReals.1 hip)⟩

theorem Request.Sound.start {reals : Reals} (h : ∀ ip ∈ reals.v4 ++ reals.v6, ip.WellFormed)
    (hnow : C now) : (Request.start reals now).Sound C := by
  have h6 : ∀ ip ∈ reals.v6, ip.WellFormed := fun ip hip => h ip (List.mem_append_right _ hip)
  rw [Request.start]
  split_ifs with hnil
  · exact .enter6 h6 hnow
  · refine ⟨h6, fun isIPv6 now' todo looked found hstatus => ?_⟩
    obtain ⟨rfl, rfl, rfl, rfl, rfl⟩ := Status.call.inj hstatus
    exact ⟨hnow, fun ip hip => h ip (List.mem_append_left _ (mem_sortReals.1 hip))⟩

/-- A call goes on, or ends: its reals are among those it had. -/
theorem Request.Sound.advance (h : req.Sound C) {t : Time} (ht : C t) (p : IPPool) (k : ℕ) :
    (req.advance p t k).2.Sound C := by
  rcases req with ⟨reals6, found4, found6, status⟩
  have hreals6 : ∀ ip ∈ reals6, ip.WellFormed := h.reals6
  cases status with
  | call isIPv6 now todo looked found =>
    obtain ⟨hnow, htodo⟩ := h.todo isIPv6 now todo looked found rfl
    have hcall {rest : List IP} {looked' : Bool} {found' : Found}
        (hrest : ∀ ip ∈ rest, ip.WellFormed) :
        Request.Sound C ⟨reals6, found4, found6, .call isIPv6 now rest looked' found'⟩ := by
      refine ⟨hreals6, fun isIPv6' now' todo' looked'' found'' hstatus => ?_⟩
      obtain ⟨rfl, rfl, rfl, rfl, rfl⟩ := Status.call.inj hstatus
      exact ⟨hnow, hrest⟩
    cases todo with
    | nil =>
      cases isIPv6 with
      | false => exact Request.Sound.enter6 hreals6 ht
      | true => exact ⟨hreals6, fun _ _ _ _ _ hstatus => by cases hstatus⟩
    | cons realIP rest =>
      have hrest : ∀ ip ∈ rest, ip.WellFormed := fun ip hip =>
        htodo ip (List.mem_cons_of_mem realIP hip)
      cases looked with
      | false =>
        simp only [Request.advance]
        cases p.peek now realIP with
        | none => exact hcall htodo
        | some fake => exact hcall hrest
      | true =>
        simp only [Request.advance]
        rcases p.secure realIP isIPv6 now t with ⟨q, fake | info | _⟩
        · exact hcall hrest
        · exact hcall hrest
        · exact ⟨hreals6, fun _ _ _ _ _ hstatus => by cases hstatus⟩
  | undo own earlier =>
    simp only [Request.advance]
    cases hnext : Status.removal k (.undo own earlier) with
    | none => exact h
    | some next =>
      obtain ⟨own', earlier', hundo⟩ := undo_of_removal hnext
      exact ⟨hreals6, fun _ _ _ _ _ hstatus => by cases hundo.symm.trans hstatus⟩
  | answered => exact h

theorem repInv_advance (hp : RepInv p) (h : req.Sound C) (t : Time) (k : ℕ) :
    RepInv (req.advance p t k).1 := by
  rcases req.advance_pool p t k with
    heq | ⟨isIPv6, now, realIP, rest, found, hstatus, heq⟩ | ⟨next, -, heq⟩
  · rwa [heq]
  · have hr := (h.todo _ _ _ _ _ hstatus).2 realIP List.mem_cons_self
    rw [heq]
    exact (secured_updates hr (p.secured_secure realIP isIPv6 now t)).repInv hp
  · rw [heq]
    exact (removeMapping_updates hp _ _).repInv hp

/-- A step of a request keeps every lasting pair but the one it removes. -/
theorem Lasts.advance {r f : IPKey} (h : Lasts T p r f) (hp : RepInv p) (hreq : req.Sound (· < T))
    (t : Time) {k : ℕ}
    (hne : ∀ next ∈ req.status.removal k,
      p.fakeAt (parseIP next.1.1) = some (toIPKey next.1.2.ip) → f ≠ toIPKey next.1.2.ip) :
    Lasts T (req.advance p t k).1 r f := by
  rcases req.advance_pool p t k with
    heq | ⟨isIPv6, now, realIP, rest, found, hstatus, heq⟩ | ⟨next, hnext, heq⟩
  · rwa [heq]
  · obtain ⟨hnow, htodo⟩ := hreq.todo _ _ _ _ _ hstatus
    rw [heq]
    exact h.secured hp (htodo realIP List.mem_cons_self) hnow isIPv6 t
  · rw [heq]
    exact h.removeMapping hp (hne next hnext)

/-- A fake that a call finds comes with five minutes. -/
theorem Lasts.of_existing (hp : RepInv p) {realIP : IP} (hr : realIP.WellFormed) {isIPv6 : Bool}
    {clk : Time} {f : IPKey} (hsec : p.Secured realIP isIPv6 now clk q (.existing f))
    (hT : T ≤ now + 5 * minute) : Lasts T q (toIPKey realIP) (toIPKey f.toIP) := by
  obtain ⟨y, -, hreal, hfake, -, t, hg⟩ := hsec.grants_existing hp hr
  exact ⟨_, hg.mem_self, hreal, by rw [toIPKey_toIP]; exact hfake, hT.trans hg.long⟩

theorem Lasts.of_allocated (hp : RepInv p) {realIP : IP} (hr : realIP.WellFormed) {isIPv6 : Bool}
    {clk : Time} {info : MappingInfo}
    (hsec : p.Secured realIP isIPv6 now clk q (.allocated info)) (hT : T ≤ now + 5 * minute) :
    Lasts T q (toIPKey realIP) (toIPKey info.ip) := by
  have hg := (hsec.grants_allocated hp hr).2
  exact ⟨_, hg.mem_self, rfl, rfl, hT.trans hg.long⟩

theorem Request.Lasting.enter6 (h4 : Found.Lasts T p req.found4) (h6 : Found.Lasts T p req.found6)
    (hT : T ≤ now + 5 * minute) : (req.enter6 now).Lasting T p := by
  by_cases hnil : req.reals6 = []
  · simp only [Request.enter6, if_pos hnil]
    refine ⟨?_, fun _ _ _ _ _ hstatus => by cases hstatus⟩
    simp only [Request.founds, List.forall_mem_cons]
    exact ⟨h4, h6, by simp⟩
  · simp only [Request.enter6, if_neg hnil]
    refine ⟨?_, fun _ _ _ _ _ hstatus => ?_⟩
    · simp only [Request.founds, List.forall_mem_cons]
      exact ⟨h4, h6, Found.lasts_empty T p, by simp⟩
    · obtain ⟨rfl, rfl, rfl, rfl, rfl⟩ := Status.call.inj hstatus
      exact hT

theorem Request.Lasting.start (reals : Reals) (hT : T ≤ now + 5 * minute) (p : IPPool) :
    (Request.start reals now).Lasting T p := by
  have hempty := Found.lasts_empty T p
  rw [Request.start]
  split_ifs
  · exact .enter6 hempty hempty hT
  · refine ⟨?_, fun _ _ _ _ _ hstatus => ?_⟩
    · simp only [Request.founds, List.forall_mem_cons]
      exact ⟨hempty, hempty, hempty, by simp⟩
    · obtain ⟨rfl, rfl, rfl, rfl, rfl⟩ := Status.call.inj hstatus
      exact hT

/-- What a request holds lasts after its own step as well. -/
theorem Request.Lasting.advance (h : req.Lasting T p) (hp : RepInv p)
    (hreq : req.Sound (· < T)) {t : Time} (ht : T ≤ t + 5 * minute) (k : ℕ) :
    (req.advance p t k).2.Lasting T (req.advance p t k).1 := by
  rcases req with ⟨reals6, found4, found6, status⟩
  cases status with
  | call isIPv6 now todo looked found =>
    have hT : T ≤ now + 5 * minute := h.call _ _ _ _ _ rfl
    obtain ⟨hnow, htodo⟩ := hreq.todo _ _ _ _ _ rfl
    have hfounds := h.founds
    simp only [Request.founds, List.forall_mem_cons] at hfounds
    obtain ⟨h4, h6, hcall, -⟩ := hfounds
    -- the call goes on, with what it had found and one more entry
    have hnext {q : IPPool} {found' : Found} {rest : List IP} {looked : Bool}
        (hkeep : ∀ r f, Lasts T p r f → Lasts T q r f) (hq : Found.Lasts T q found') :
        Request.Lasting T q ⟨reals6, found4, found6, .call isIPv6 now rest looked found'⟩ := by
      refine ⟨?_, fun _ _ _ _ _ hstatus => ?_⟩
      · simp only [Request.founds, List.forall_mem_cons]
        exact ⟨h4.mono hkeep, h6.mono hkeep, hq, by simp⟩
      · obtain ⟨rfl, rfl, rfl, rfl, rfl⟩ := Status.call.inj hstatus
        exact hT
    cases todo with
    | nil =>
      cases isIPv6 with
      | false => exact .enter6 hcall h6 ht
      | true =>
        refine ⟨?_, fun _ _ _ _ _ hstatus => by cases hstatus⟩
        simp only [Request.advance, if_true, Request.founds, List.forall_mem_cons]
        exact ⟨h4, hcall, by simp⟩
    | cons realIP rest =>
      have hr := htodo realIP List.mem_cons_self
      cases looked with
      | false =>
        simp only [Request.advance]
        cases hpeek : p.peek now realIP with
        | none => exact hnext (fun _ _ hl => hl) hcall
        | some fake =>
          have hsec := p.secured_peek hpeek isIPv6 t
          exact hnext (fun _ _ hl => hl) (hcall.insert hr (.of_existing hp hr hsec hT) _)
      | true =>
        have hkeep (r f : IPKey) (hl : Lasts T p r f) := hl.secured hp hr hnow isIPv6 t
        have hsec := p.secured_secure realIP isIPv6 now t
        simp only [Request.advance]
        generalize p.secure realIP isIPv6 now t = out at hkeep hsec ⊢
        rcases out with ⟨q, fake | info | _⟩
        · exact hnext hkeep ((hcall.mono hkeep).insert hr (.of_existing hp hr hsec hT) _)
        · exact hnext hkeep ((hcall.mono hkeep).insert hr (.of_allocated hp hr hsec hT) _)
        · exact ⟨fun _ hfound => absurd hfound List.not_mem_nil,
            fun _ _ _ _ _ hstatus => by cases hstatus⟩
  | undo own earlier =>
    -- nothing is held any more
    simp only [Request.advance]
    cases hnext : Status.removal k (.undo own earlier) with
    | none => exact h
    | some next =>
      obtain ⟨own', earlier', hundo⟩ := undo_of_removal hnext
      refine ⟨fun found hfound => ?_, fun _ _ _ _ _ hstatus => by cases hundo.symm.trans hstatus⟩
      simp only [hundo] at hfound
      exact absurd hfound List.not_mem_nil
  | answered => exact h

end Step

/-! ## Runs -/

/-- The requests from the `n`-th on hold mappings that last until `T`. -/
structure Lasting (T : Time) (n : ℕ) (s : State) : Prop where
  repInv : RepInv s.pool
  sound : ∀ {j : ℕ} {req : Request}, s.requests[j]? = some req → req.Sound (· < T)
  lasting : ∀ {j : ℕ} {req : Request}, n ≤ j → s.requests[j]? = some req → req.Lasting T s.pool

namespace Lasting

variable {nets : Subnets} {T : Time} {n : ℕ} {s : State}

/-- A step that leaves the requests as they are. -/
theorem of_pool (h : Lasting T n s) {q : IPPool} (hq : RepInv q)
    (hkeep : ∀ r f, Lasts T s.pool r f →
      (∃ req ∈ s.requests, ∃ found ∈ req.founds, ∃ str fake,
        found.result.lookup str = some fake ∧ toIPKey fake = f) → Lasts T q r f) :
    Lasting T n { s with pool := q } := by
  refine ⟨hq, h.sound, fun {j req} hj hreq => ⟨fun found hfound ip fake hip hlookup => ?_,
    (h.lasting hj hreq).call⟩⟩
  exact hkeep _ _ ((h.lasting hj hreq).founds found hfound ip fake hip hlookup)
    ⟨req, List.mem_of_getElem? hreq, found, hfound, _, fake, hlookup, rfl⟩

theorem request (h : Lasting T n s) {e : Event} (htime : Timely T (.request e))
    (haddr : WellAddressed (.request e)) (hshare : Unshared s e) :
    Lasting T n (Proxy.step s e) := by
  cases e with
  | start reals now =>
    refine ⟨h.repInv, fun {j req} hreq => ?_, fun {j req} hj hreq => ?_⟩
    · rcases requests_start hreq with hreq | rfl
      · exact h.sound hreq
      · exact .start haddr htime.2
    · rcases requests_start hreq with hreq | rfl
      · exact h.lasting hj hreq
      · exact .start reals htime.1 s.pool
  | advance i t k =>
    cases hi : s.requests[i]? with
    | none => rwa [step_advance_of_none hi]
    | some req =>
      have hreq := h.sound hi
      refine ⟨?_, fun {j other} hother => ?_, fun {j other} hj hother => ?_⟩
      · rw [pool_step_advance hi]
        exact repInv_advance h.repInv hreq t k
      · rcases requests_advance hother with ⟨-, hother⟩ | ⟨rfl, old, hold, rfl⟩
        · exact h.sound hother
        · exact (h.sound hold).advance htime.2 s.pool k
      · rw [pool_step_advance hi]
        rcases requests_advance hother with ⟨hij, hother⟩ | ⟨rfl, old, hold, rfl⟩
        · -- another request: its mappings are kept, unless the step removes one of them
          have hlast := h.lasting hj hother
          refine ⟨fun found hfound ip fake hip hlookup => ?_, hlast.call⟩
          refine (hlast.founds found hfound ip fake hip hlookup).advance h.repInv hreq t
            fun next hnext heffect => ?_
          have hlt := (List.getElem?_eq_some_iff.1 hother).1
          exact (hshare req hi next hnext heffect j hlt (Ne.symm hij) other hother found
            hfound).ne hlookup
        · obtain rfl := Option.some.inj (hi.symm.trans hold)
          exact (h.lasting hj hi).advance h.repInv hreq htime.1 k

theorem step (h : Lasting T n s) {e : NodeEvent} (htime : Timely T e) (haddr : WellAddressed e)
    (hcalm : Undisturbed nets s e) : Lasting T n (nodeStep nets s e) := by
  cases e with
  | request e => exact h.request htime haddr hcalm
  | prune i now expired =>
    refine h.of_pool ((pruneEntries_updates h.repInv i now expired).repInv h.repInv) ?_
    exact fun r f hlast _ => hlast.pruneEntries h.repInv htime i expired
  | receive m t t' =>
    refine h.of_pool (leases_receive h.repInv haddr t t').1 fun r f hlast hheld => ?_
    obtain ⟨req, hreq, found, hfound, str, fake, hlookup, rfl⟩ := hheld
    refine hlast.receive h.repInv haddr htime fun haccepted hmem => ?_
    exact (hcalm haccepted _ hmem req hreq found hfound).ne hlookup rfl

end Lasting

/-! ## The TTL of an answer -/

/-- `time.Second`. -/
def second : Time := 10 ^ 9

/-- A record in which an address has been replaced has a TTL within the limit. -/
theorem ttl_filterRR {proxy : DNSProxy} {mapV4 mapV6 : Map Bytes IP} {rr₀ rr : RR}
    (h : proxy.filterRR mapV4 mapV6 rr₀ = some rr) {ip fake : IP}
    (hip : ip ∈ rr₀.addresses4 ∧ mapV4.lookup ip.string = some fake ∨
      ip ∈ rr₀.addresses6 ∧ mapV6.lookup ip.string = some fake) : rr.ttl ≤ proxy.maxTTL := by
  rcases rr₀ with ⟨name, cls, ttl, data⟩
  cases data with
  | a addr =>
    rcases hip with ⟨hmem, hlookup⟩ | ⟨hmem, -⟩
    · obtain rfl : ip = addr := List.mem_singleton.1 hmem
      simp only [DNSProxy.filterRR, hlookup, Option.some.injEq] at h
      exact h ▸ Std.min_le_right
    · exact absurd hmem List.not_mem_nil
  | aaaa addr =>
    rcases hip with ⟨hmem, -⟩ | ⟨hmem, hlookup⟩
    · exact absurd hmem List.not_mem_nil
    · obtain rfl : ip = addr := List.mem_singleton.1 hmem
      simp only [DNSProxy.filterRR, hlookup] at h
      split_ifs at h
      exact Option.some.inj h ▸ Std.min_le_right
  | svcb record => exact Option.some.inj h ▸ Std.min_le_right
  | https record => exact Option.some.inj h ▸ Std.min_le_right
  | rrsig data => cases h
  | nsec data => cases h
  | nsec3 data => cases h
  | other rrtype data => simp [RR.addresses4, RR.addresses6] at hip

/-- **An answer is mapped while a client keeps it.** Take any run of the node whose clocks are read
in the five minutes before `T`, with any requests under way at its start, in which no request loses
a fake to another request or to a peer. When a request of the run has been answered and its
response, written at a time that leaves the largest TTL before `T`, has a record in which the
address `ip` was replaced by `fake`, the record is forgotten by `T`, and at the end of the run the
pool still maps the address to the fake, and the fake back to it. -/
theorem mapped_while_cached {nets : Subnets} {s : State} (hpool : RepInv s.pool) {T : Time}
    (hold : ∀ req ∈ s.requests, req.Sound (· < T)) {es : List NodeEvent}
    (htime : ∀ e ∈ es, Timely T e) (haddr : ∀ e ∈ es, WellAddressed e)
    (hcalm : Runs.Along (nodeStep nets) (Undisturbed nets) s es) {j : ℕ} {req : Request}
    (hj : s.requests.length ≤ j)
    (hreq : (Runs.run (nodeStep nets) s es).requests[j]? = some req)
    (hanswered : req.status = .answered) {proxy : DNSProxy} {written : Time}
    (hwritten : written + proxy.maxTTL.toNat * second ≤ T) {rr₀ rr : RR}
    (hrr : proxy.filterRR req.found4.result req.found6.result rr₀ = some rr) {ip fake : IP}
    (hip : ip.WellFormed)
    (hfake : ip ∈ rr₀.addresses4 ∧ req.found4.result.lookup ip.string = some fake ∨
      ip ∈ rr₀.addresses6 ∧ req.found6.result.lookup ip.string = some fake) :
    written + rr.ttl.toNat * second ≤ T ∧
      (Runs.run (nodeStep nets) s es).pool.fakeOf (toIPKey ip) = some (toIPKey fake) ∧
      (Runs.run (nodeStep nets) s es).pool.realOf (toIPKey fake) = some (toIPKey ip) := by
  have hinit : Lasting T s.requests.length s := by
    refine ⟨hpool, fun {i other} hi => hold other (List.mem_of_getElem? hi),
      fun {i other} hi h => ?_⟩
    rw [List.getElem?_eq_none hi] at h
    cases h
  have hrun : Lasting T s.requests.length (Runs.run (nodeStep nets) s es) := by
    refine Runs.invariant (C := fun s e => Undisturbed nets s e ∧ Timely T e ∧ WellAddressed e)
      (fun s e hs hC => hs.step hC.2.1 hC.2.2 hC.1) hinit fun x hx => ⟨hcalm x hx, ?_⟩
    have hmem := Runs.mem_of_mem_trace hx
    exact ⟨htime _ hmem, haddr _ hmem⟩
  have hfounds := (hrun.lasting hj hreq).founds
  rw [Request.founds, hanswered] at hfounds
  have hlast : Lasts T (Runs.run (nodeStep nets) s es).pool (toIPKey ip) (toIPKey fake) := by
    rcases hfake with ⟨-, hlookup⟩ | ⟨-, hlookup⟩
    · exact hfounds req.found4 (by simp) ip fake hip hlookup
    · exact hfounds req.found6 (by simp) ip fake hip hlookup
  refine ⟨le_trans ?_ hwritten, hlast.fakeOf, hlast.realOf hrun.repInv⟩
  have httl : rr.ttl.toNat ≤ proxy.maxTTL.toNat := ttl_filterRR hrr hfake
  have hsecond : (0 : Time) ≤ second := by decide
  gcongr

/-- A request is answered while the pruner passes, and afterwards a peer sends a mapping and another
request for the same real comes. -/
def cachedRun : List NodeEvent :=
  [.request (ask [realA]), .prune (getShardIndex realA) minute [(toIPKey realA, toIPKey fakeA)],
    .request (move 0), .request (move 0), .request (move 0),
    .receive ⟨v4InV6Prefix ++ [198, 18, 0, 2], realB, 1⟩ 0 0, .request (ask [realA]),
    .request (move 1), .prune (getShardIndex realA) (4 * minute) [(toIPKey realA, toIPKey fakeA)]]

/-- The record of the response that the request of `cachedRun` has, written a minute after it came.
-/
theorem mapped_after_cachedRun :
    let nets := Subnets.ofPool twoPool.toPoolRange
    let s := Runs.run (nodeStep nets) ⟨twoPool, []⟩ cachedRun
    (∃ req, s.requests[0]? = some req ∧ req.status = .answered ∧
      req.found4.result.lookup realA.string = some fakeA) ∧
      s.pool.realOf (toIPKey (v4InV6Prefix ++ [198, 18, 0, 2])) = some (toIPKey realB) ∧
      s.pool.fakeOf (toIPKey realA) = some (toIPKey fakeA) ∧
      s.pool.realOf (toIPKey fakeA) = some (toIPKey realA) := by
  intro nets s
  have hfound : s.requests[0]?.map (fun req => (req.status matches .answered) &&
      decide (req.found4.result.lookup realA.string = some fakeA)) = some true := by decide +kernel
  obtain ⟨req, hreq, hfound⟩ := Option.map_eq_some_iff.1 hfound
  rw [Bool.and_eq_true, decide_eq_true_eq] at hfound
  have hanswered : req.status = .answered := by
    cases hstatus : req.status with
    | answered => rfl
    | call => simp [hstatus] at hfound
    | undo => simp [hstatus] at hfound
  -- the largest TTL is four minutes, so that the record is forgotten after five
  let proxy : DNSProxy := ⟨[], 240, true⟩
  have hrr : proxy.filterRR req.found4.result req.found6.result ⟨[], 1, 3600, .a realA⟩ =
      some ⟨[], 1, 240, .a fakeA⟩ := by
    simp only [DNSProxy.filterRR, hfound.2]
    rfl
  have hwritten : minute + proxy.maxTTL.toNat * second ≤ 5 * minute := by decide
  have htime : ∀ e ∈ cachedRun, Timely (5 * minute) e := by decide +kernel
  have hcalm : Runs.Along (nodeStep nets) (Undisturbed nets) ⟨twoPool, []⟩ cachedRun := by
    decide +kernel
  have hmapped := mapped_while_cached (RepInv.new [] [] ⟨3, 256⟩) (by simp) htime
    (by decide +kernel) hcalm (Nat.zero_le 0) hreq hanswered hwritten hrr
    (show realA.WellFormed from .inl rfl) (.inl ⟨List.mem_singleton.2 rfl, hfound.2⟩)
  exact ⟨⟨req, hreq, hanswered, hfound.2⟩, by decide +kernel, hmapped.2⟩

end NextPath.Proxy
