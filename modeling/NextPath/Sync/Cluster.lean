import NextPath.Proxy.Lifetime
import NextPath.Sync.Convergence
import NextPath.Sync.Sending

/-!
# Do the nodes of a cluster agree?

A number of nodes, each with its requests, its broadcasts and its connections (`Join.Node`), and
the mappings on their way between them: every connection has a node at its other end, which takes
the mappings of the queue one after the other. Requests allocate, connections are made, replaced
and lost, snapshots are sent and mappings arrive, in any order.

Nothing is said about time: `Calm` excludes the steps that take a mapping from a pool on account of
its lease, or because a request has failed. Then all that happens to a pool is that mappings arrive
in it, those of its own requests and those of the peers, and each node has the outcome of a contest
(`Inv.contest`). The mappings need not arrive everywhere: a node that joins late is sent a snapshot,
which lacks what has been beaten. What no mapping beats is never lost, so it reaches every node.

* `edges_advance`: a step of a request is an arrival, or leaves the mappings alone.
* `acceptable_of_regular`: what a node takes is valid for it, if the configuration is regular.
* `agree_of_quiet`: when everything has been broadcast and taken, and every beaten mapping is beaten
  by an unbeaten one, all the nodes have the unbeaten mappings.
-/

namespace NextPath.Sync

open Net Pool

/-! ## Arrivals in a pool -/

/-- An insertion as an edge. -/
def insertionEdge (x : Insertion) : Edge := ⟨x.2.2, x.1, x.2.1⟩

section Pool

variable {p q : IPPool} {realIP : IP} {isIPv6 : Bool} {now clk : Time}

theorem holds_iff_mem_edges (hp : RepInv p) {x : Insertion} :
    Holds p x = true ↔ insertionEdge x ∈ edges p := by
  rw [Holds, decide_eq_true_eq]
  refine and_congr_right fun hreal => ?_
  obtain ⟨v, hv, -⟩ := exists_edge hp hreal
  rw [insertionEdge, hv, Option.getD_some, Option.some.injEq]

/-- A snapshot is of edges of the pool. -/
theorem edge_mem_of_mem_getAllMappings (hp : RepInv p) {order : List IPKey} {m : Mapping}
    (hm : m ∈ getAllMappings p order) : m.edge ∈ edges p := by
  obtain ⟨f, -, hf⟩ := List.mem_filterMap.1 hm
  obtain ⟨r, hr, rfl⟩ := Option.map_eq_some_iff.1 hf
  obtain ⟨v, hv, he⟩ := exists_edge hp hr
  simpa only [Mapping.edge, toIPKey_toIP, hv, Option.getD_some] using he

/-- A new mapping conflicts with none. -/
theorem edges_bind_free (hp : RepInv p) {r f : IPKey} (hr : p.fakeOf r = none)
    (hf : p.realOf f = none) (v : UInt64) (t : Time) :
    edges (p.bind (shardOf r) r f v t) = Contest.deliver Edge.Conflict (edges p) ⟨v, f, r⟩ := by
  have hnone : ∀ x ∈ edges p, ¬ Edge.Conflict ⟨v, f, r⟩ x := by
    rintro x ⟨hreal, -⟩ (hfake | hreal')
    · rw [← show f = x.fake from hfake, hf] at hreal
      cases hreal
    · rw [← hp.fakeOf_iff, ← show r = x.real from hreal', hr] at hreal
      cases hreal
  rw [Contest.deliver_of_wins fun x hx hc => absurd hc (hnone x hx),
    Set.sep_eq_self_iff_mem_true.2 hnone]
  ext ⟨v', f', r'⟩
  rw [mem_edges, Set.mem_insert_iff, mem_edges, IPPool.realOf_bind, IPPool.versionOf_bind,
    Edge.mk.injEq]
  by_cases hff : f' = f
  · subst hff
    simp [hf, eq_comm, and_comm]
  · simp [hff]

/-- What a section inserts, by the way it ends. -/
def outcomeInsertion (realIP : IP) : IPPool.Outcome → Option Insertion
  | .allocated info => some (toIPKey info.ip, toIPKey realIP, info.version)
  | _ => none

/-- **A section is an arrival**, if it meets no lease that has run out. -/
theorem edges_secured (hp : RepInv p) (hr : realIP.WellFormed) (hlease : p.Unexpired now realIP)
    {outcome : IPPool.Outcome} (hsec : p.Secured realIP isIPv6 now clk q outcome) :
    edges q = Contest.deliverAll Edge.Conflict insertionEdge (edges p)
      (outcomeInsertion realIP outcome).toList := by
  -- a real without a live mapping has none
  have hfree (dead : ∀ f, ¬ p.Live now realIP f) : p.fakeAt realIP = none := by
    cases hf : p.fakeAt realIP with
    | none => rfl
    | some f => exact absurd ⟨hf, hlease⟩ (dead f)
  cases hsec with
  | kept => rfl
  | extended => rfl
  | fresh dead find =>
    have hnone := hfree dead
    rw [IPPool.vacate_of_none p hnone] at find ⊢
    rw [IPPool.fakeAt_eq_fakeOf p hr] at hnone
    rw [getShardIndex_eq hr]
    exact edges_bind_free (hp.tick _) hnone (p.realOf_of_findFake find) _ (now + mappingTTL)
  | exhausted dead =>
    rw [IPPool.vacate_of_none p (hfree dead)]
    rfl

/-- The section that a request is about to enter meets no lease that has run out, and it does not
take a mapping back. -/
def Quiet (p : IPPool) (req : Proxy.Request) (k : ℕ) : Prop :=
  req.LeaseHolds p ∧ ∀ next ∈ req.status.removal k,
    p.fakeAt (parseIP next.1.1) ≠ some (toIPKey next.1.2.ip)

instance (p : IPPool) (req : Proxy.Request) (k : ℕ) : Decidable (Quiet p req k) :=
  inferInstanceAs (Decidable (_ ∧ ∀ next ∈ req.status.removal k, _))

/-- **A step of a request is an arrival of what it inserts.** -/
theorem edges_advance (hp : RepInv p) {req : Proxy.Request} {C : Time → Prop}
    (hreq : req.Sound C) (t : Time) {k : ℕ} (hquiet : Quiet p req k) :
    edges (req.advance p t k).1 =
      Contest.deliverAll Edge.Conflict insertionEdge (edges p) (insertion req p t).toList := by
  rcases req with ⟨reals6, found4, found6, status⟩
  cases status with
  | call isIPv6 now todo looked found =>
    cases todo with
    | nil => cases isIPv6 <;> rfl
    | cons realIP rest =>
      cases looked with
      | false =>
        simp only [Proxy.Request.advance, insertion]
        cases p.peek now realIP <;> rfl
      | true =>
        have hr := (hreq.todo _ _ _ _ _ rfl).2 realIP List.mem_cons_self
        have hsec := edges_secured hp hr hquiet.1 (p.secured_secure realIP isIPv6 now t)
        simp only [Proxy.Request.advance, insertion]
        generalize p.secure realIP isIPv6 now t = out at hsec ⊢
        rcases out with ⟨q, fake | info | _⟩ <;> exact hsec
  | undo own earlier =>
    simp only [Proxy.Request.advance, insertion]
    cases hnext : Proxy.Status.removal k (.undo own earlier) with
    | none => rfl
    | some next =>
      have hnot := hquiet.2 next hnext
      show edges (p.removeMapping (parseIP next.1.1) next.1.2.ip) = edges p
      simp only [IPPool.removeMapping]
      split_ifs with hf
      · exact absurd hf hnot
      · rfl
  | answered => rfl

end Pool

/-! ## The cluster -/

/-- The nodes, and how many mappings of the queue of each connection the peer has taken. What has
arrived in each pool is there for the statements only. -/
structure Cluster (n : ℕ) where
  nodes : Fin n → Join.Node
  taken : Fin n → ℕ → ℕ
  arrived : Fin n → List Edge

namespace Cluster

open Join (inserts proxyStep core_step)

/-- Something happens at a node, or the peer takes the next mapping from the queue of a
connection. -/
inductive Event (n : ℕ)
  | act (i : Fin n) (e : Join.Event)
  | deliver (i : Fin n) (c : ℕ) (t t' : Time)

variable {n : ℕ}

/-- The mapping that the peer takes next. -/
def next (s : Cluster n) (i : Fin n) (c : ℕ) : Option Mapping :=
  (s.nodes i).links[c]?.bind fun sc => sc.queued[s.taken i c]?

/-- The nodes start with empty pools of one configuration. -/
def start (uuids : Fin n → UInt64) (base4 base6 : Bytes) (cfg : IPPoolConfig) : Cluster n where
  nodes i := .start (uuids i) (.ofPool (newIPPoolWithConfig base4 base6 cfg).toPoolRange)
    (newIPPoolWithConfig base4 base6 cfg)
  taken _ _ := 0
  arrived _ := []

/-- One step; `peer` says which node is at the other end of a connection. -/
def step (peer : Fin n → ℕ → Fin n) (s : Cluster n) : Event n → Cluster n
  | .act i e =>
    { s with
      nodes := Function.update s.nodes i (Join.step (s.nodes i) e)
      arrived := Function.update s.arrived i
        (s.arrived i ++ (inserts (s.nodes i) e).map insertionEdge) }
  | .deliver i c t t' =>
    match s.next i c with
    | none => s
    | some m =>
      { nodes := Function.update s.nodes (peer i c)
          (Join.step (s.nodes (peer i c)) (.receive m t t'))
        taken := Function.update s.taken i (Function.update (s.taken i) c (s.taken i c + 1))
        arrived := Function.update s.arrived (peer i c) (s.arrived (peer i c) ++ [m.edge]) }

/-! ## Conditions -/

/-- No mapping goes from a pool because of its lease or a failed request, and the addresses are
addresses. Mappings of peers come from their queues. -/
def CalmAt (s : Join.Node) : Join.Event → Prop
  | .query enableIPv6 resp _ =>
    ∀ ip ∈ (Proxy.collect enableIPv6 resp).v4 ++ (Proxy.collect enableIPv6 resp).v6, ip.WellFormed
  | .advance i _ k => ∀ req ∈ s.proxy.requests[i]?, Quiet s.proxy.pool req k
  | .receive .. => False
  | .prune now _ => ∀ i, ∀ r ∈ (s.proxy.pool.shards i).expiries.keys,
      ∀ t ∈ (s.proxy.pool.shards i).expiries.lookup r, now ≤ t
  | _ => True

/-- What happens at a node is calm. -/
def Calm (s : Cluster n) : Event n → Prop
  | .act i e => CalmAt (s.nodes i) e
  | .deliver .. => True

/-- What a peer takes is valid for it. -/
def Acceptable (peer : Fin n → ℕ → Fin n) (s : Cluster n) : Event n → Prop
  | .act .. => True
  | .deliver i c _ _ => ∀ m ∈ s.next i c, m.Valid (s.nodes (peer i c)).nets

instance (s : Join.Node) : DecidablePred (CalmAt s)
  | .query enableIPv6 resp _ => inferInstanceAs (Decidable (∀ ip ∈
      (Proxy.collect enableIPv6 resp).v4 ++ (Proxy.collect enableIPv6 resp).v6, ip.WellFormed))
  | .advance i _ k =>
    inferInstanceAs (Decidable (∀ req ∈ s.proxy.requests[i]?, Quiet s.proxy.pool req k))
  | .receive .. => isFalse id
  | .prune now _ =>
    inferInstanceAs (Decidable (∀ i, ∀ r ∈ (s.proxy.pool.shards i).expiries.keys,
      ∀ t ∈ (s.proxy.pool.shards i).expiries.lookup r, now ≤ t))
  | .connect .. | .register _ | .snapshot .. | .send _ | .beginBroadcast _ | .forward ..
  | .endBroadcast _ | .message _ | .write _ | .close _ | .leave _ => isTrue trivial

instance (s : Cluster n) : DecidablePred (Calm s)
  | .act i e => inferInstanceAs (Decidable (CalmAt (s.nodes i) e))
  | .deliver .. => isTrue trivial

/-- The mappings that have been allocated, at any node. -/
def allocated (s : Cluster n) : Set Edge :=
  {e | ∃ i, ∃ x ∈ (s.nodes i).inserted, insertionEdge x = e}

/-- A connection from the first node to the second is registered and open, its snapshot has been
sent, and all that was queued on it has been taken. -/
def Linked (peer : Fin n → ℕ → Fin n) (s : Cluster n) (i j : Fin n) : Prop :=
  ∃ addr c sc, (s.nodes i).conns.lookup addr = some c ∧ (s.nodes i).links[c]? = some sc ∧
    sc.closed = false ∧ sc.phase = .sent ∧ peer i c = j ∧ sc.queued.length ≤ s.taken i c

/-! ## A step of a node -/

theorem mem_edges_iff_lease {p : IPPool} (hp : RepInv p) {e : Edge} :
    e ∈ edges p ↔ ∃ t, (⟨e.real, e.fake, e.version, t⟩ : Lease) ∈ p.leases := by
  constructor
  · rintro ⟨hreal, hv⟩
    obtain ⟨v, t, hx⟩ := hp.realOf_iff_lease.1 hreal
    obtain rfl : e.version = v := Option.some.inj (hv.symm.trans hx.2.1)
    exact ⟨t, hx⟩
  · rintro ⟨t, hx⟩
    exact ⟨(hp.fakeOf_iff _ _).1 hx.1, hx.2.1⟩

/-- The pruner finds nothing to delete. -/
theorem edges_pruneExpired {p : IPPool} (hp : RepInv p) {now : Time}
    (hcalm : ∀ i, ∀ r ∈ (p.shards i).expiries.keys, ∀ t ∈ (p.shards i).expiries.lookup r, now ≤ t)
    (order : Fin 64 → List IPKey) :
    RepInv (p.pruneExpired now order) ∧ edges (p.pruneExpired now order) = edges p := by
  have hupd := pruneExpired_updates hp now order
  have hinv := hupd.repInv hp
  obtain ⟨hsub, hlive⟩ := hupd.leases_of_prune hp
  refine ⟨hinv, Set.ext fun e => ?_⟩
  rw [mem_edges_iff_lease hinv, mem_edges_iff_lease hp]
  refine exists_congr fun t => ⟨fun hx => hsub hx, fun hx => hlive _ hx (not_lt.2 ?_)⟩
  exact hcalm _ _ (Finmap.mem_keys.2 (Finmap.mem_of_lookup_eq_some hx.2.2)) t hx.2.2

/-- The pool is consistent, and the requests ask for addresses. -/
structure Ready (proxy : Proxy.State) : Prop where
  repInv : RepInv proxy.pool
  sound : ∀ {j : ℕ} {req : Proxy.Request}, proxy.requests[j]? = some req →
    req.Sound fun _ => True

/-- **A calm event is an arrival of what it inserts.** -/
theorem Ready.step {s : Join.Node} (h : Ready s.proxy) {e : Join.Event} (hcalm : CalmAt s e) :
    Ready (proxyStep s e) ∧ edges (proxyStep s e).pool =
      Contest.deliverAll Edge.Conflict insertionEdge (edges s.proxy.pool) (inserts s e) := by
  cases e with
  | query enableIPv6 resp now =>
    refine ⟨⟨h.repInv, fun {j req} hreq => ?_⟩, rfl⟩
    rcases Proxy.requests_start hreq with hreq | rfl
    · exact h.sound hreq
    · exact .start hcalm trivial
  | advance i t k =>
    simp only [proxyStep, inserts]
    cases hi : s.proxy.requests[i]? with
    | none =>
      rw [Proxy.step_advance_of_none hi]
      exact ⟨h, rfl⟩
    | some req =>
      have hreq := h.sound hi
      have hpool := Proxy.repInv_advance h.repInv hreq t k
      have hedges := edges_advance h.repInv hreq t (hcalm req hi)
      rw [← Proxy.pool_step_advance hi] at hpool hedges
      refine ⟨⟨hpool, fun {j other} hother => ?_⟩, hedges⟩
      rcases Proxy.requests_advance hother with ⟨-, hother⟩ | ⟨rfl, old, hold, rfl⟩
      · exact h.sound hother
      · exact (h.sound hold).advance trivial s.proxy.pool k
  | receive m t t' => exact hcalm.elim
  | prune now order =>
    obtain ⟨hinv, hedges⟩ := edges_pruneExpired h.repInv hcalm order
    exact ⟨⟨hinv, h.sound⟩, hedges⟩
  | _ => exact ⟨h, rfl⟩

/-- A mapping of a peer arrives. -/
theorem Ready.receive {s : Join.Node} (h : Ready s.proxy) {m : Mapping} (hm : m.Valid s.nets)
    (t t' : Time) : Ready (proxyStep s (.receive m t t')) ∧
      edges (proxyStep s (.receive m t t')).pool =
        Contest.deliver Edge.Conflict (edges s.proxy.pool) m.edge :=
  ⟨⟨receive_repInv h.repInv hm t t', h.sound⟩, edges_receive h.repInv hm t t'⟩

/-! ## The invariant -/

/-- What holds in every state of a calm run. -/
structure Inv (peer : Fin n → ℕ → Fin n) (s : Cluster n) : Prop where
  join : ∀ i, Join.Inv (s.nodes i)
  ready : ∀ i, Ready (s.nodes i).proxy
  /-- The pool has the outcome of the contest of what has arrived. -/
  contest : ∀ i, edges (s.nodes i).proxy.pool =
    Contest.deliverAll Edge.Conflict id ∅ (s.arrived i)
  /-- What a node has inserted and what it has taken has arrived. -/
  own : ∀ i, ∀ x ∈ (s.nodes i).inserted, insertionEdge x ∈ s.arrived i
  received : ∀ (i : Fin n) (c k : ℕ), k < s.taken i c → ∃ sc m, (s.nodes i).links[c]? = some sc ∧
    sc.queued[k]? = some m ∧ m.edge ∈ s.arrived (peer i c)
  /-- All that arrives, is queued or is to be queued has been allocated at some node. -/
  origin : ∀ i, ∀ e ∈ s.arrived i, e ∈ s.allocated
  queued : ∀ (i : Fin n) (c : ℕ) (sc : SafeConn), (s.nodes i).links[c]? = some sc →
    ∀ m, m ∈ sc.queued ∨ m ∈ sc.toSend → m.edge ∈ s.allocated
  /-- What a snapshot lacks has been beaten. -/
  lost : ∀ (i : Fin n) (c : ℕ) (sc : SafeConn), (s.nodes i).links[c]? = some sc → ∀ x ∈ sc.lost,
    ∃ y ∈ s.allocated, Contest.Beats Edge.Conflict y (insertionEdge x)

namespace Inv

variable {peer : Fin n → ℕ → Fin n} {s : Cluster n}

theorem start (uuids : Fin n → UInt64) (base4 base6 : Bytes) (cfg : IPPoolConfig) :
    Inv peer (start uuids base4 base6 cfg) where
  join i := Join.Inv.start _ _ _
  ready i := ⟨.new base4 base6 cfg, fun {j req} hreq => by
    simp [Cluster.start, Join.Node.start] at hreq⟩
  contest i := edges_new base4 base6 cfg
  own i x hx := by cases hx
  received i c k hk := absurd hk (Nat.not_lt_zero k)
  origin i e he := by cases he
  queued i c sc hsc := by simp [Cluster.start, Join.Node.start] at hsc
  lost i c sc hsc := by simp [Cluster.start, Join.Node.start] at hsc

/-- What a snapshot would lack now has been beaten. -/
theorem beaten_of_not_holds (h : Inv peer s) {i : Fin n} {x : Insertion}
    (hx : x ∈ (s.nodes i).inserted) (hnot : Holds (s.nodes i).proxy.pool x = false) :
    ∃ y ∈ s.allocated, Contest.Beats Edge.Conflict y (insertionEdge x) := by
  have hmem : insertionEdge x ∈ (∅ : Set Edge) ∪ {e | ∃ m ∈ s.arrived i, id m = e} :=
    .inr ⟨_, h.own i x hx, rfl⟩
  rcases Contest.mem_deliverAll_or_beaten Edge.conflict_symm hmem with hin | ⟨y, hy, hb⟩
  · rw [← h.contest i, ← holds_iff_mem_edges (h.ready i).repInv, hnot] at hin
    cases hin
  · rcases hy with hy | ⟨e, he, rfl⟩
    · exact hy.elim
    · exact ⟨e, h.origin i e he, hb⟩

/-- What a request broadcasts has been allocated. -/
theorem message_allocated (h : Inv peer s) {i : Fin n} {q : ℕ} {m : Mapping}
    (hm : m ∈ (s.nodes i).message q) : m.edge ∈ s.allocated := by
  obtain ⟨req, hreq, hm⟩ := Join.Node.mem_message.1 hm
  exact ⟨i, _, ((h.join i).recorded hreq).toBroadcast m hm, rfl⟩

/-- What the pool has, has been allocated. -/
theorem edges_allocated (h : Inv peer s) {i : Fin n} {e : Edge}
    (he : e ∈ edges (s.nodes i).proxy.pool) : e ∈ s.allocated := by
  rw [h.contest i] at he
  have hsub : Contest.deliverAll Edge.Conflict id ∅ (s.arrived i) ⊆ s.allocated :=
    Contest.deliverAll_subset (Set.empty_subset _) fun e he => h.origin i e he
  exact hsub he

/-- A node makes a step, in which some edges arrive; what is counted as taken is among them. -/
theorem update (h : Inv peer s) {j : Fin n} {e : Join.Event}
    (hready : Ready (proxyStep (s.nodes j) e)) {new : List Edge}
    (hedges : edges (proxyStep (s.nodes j) e).pool =
      Contest.deliverAll Edge.Conflict id (edges (s.nodes j).proxy.pool) new)
    (hown : ∀ x ∈ inserts (s.nodes j) e, insertionEdge x ∈ new)
    (horigin : ∀ a ∈ new, a ∈ s.allocated ∨ ∃ x ∈ inserts (s.nodes j) e, insertionEdge x = a)
    {taken : Fin n → ℕ → ℕ}
    (htaken : ∀ i c k, k < taken i c → k < s.taken i c ∨ peer i c = j ∧
      ∃ sc m, (s.nodes i).links[c]? = some sc ∧ sc.queued[k]? = some m ∧ m.edge ∈ new) :
    Inv peer ⟨Function.update s.nodes j (Join.step (s.nodes j) e), taken,
      Function.update s.arrived j (s.arrived j ++ new)⟩ := by
  obtain ⟨hproxy, hinserted, -⟩ := core_step (s.nodes j) e
  set s' : Cluster n := ⟨Function.update s.nodes j (Join.step (s.nodes j) e), taken,
    Function.update s.arrived j (s.arrived j ++ new)⟩ with hs'
  have hself : s'.nodes j = Join.step (s.nodes j) e := Function.update_self ..
  have hother {i : Fin n} (hi : i ≠ j) : s'.nodes i = s.nodes i := Function.update_of_ne hi ..
  have harrived : s'.arrived j = s.arrived j ++ new := Function.update_self ..
  have harrived' {i : Fin n} (hi : i ≠ j) : s'.arrived i = s.arrived i :=
    Function.update_of_ne hi ..
  -- the old is kept, at this node and at the others
  have hlinks (i : Fin n) : Join.LinksStep (s.nodes i) (s'.nodes i).links := by
    by_cases hi : i = j
    · subst hi
      rw [hself]
      exact Join.links_step _ e
    · rw [hother hi]
      exact .refl _
  have hmono : s.allocated ⊆ s'.allocated := by
    rintro _ ⟨i, x, hx, rfl⟩
    refine ⟨i, x, ?_, rfl⟩
    by_cases hi : i = j
    · subst hi
      rw [hself, hinserted]
      exact List.mem_append_left _ hx
    · rwa [hother hi]
  have hgrow (i : Fin n) : s.arrived i ⊆ s'.arrived i := by
    by_cases hi : i = j
    · subst hi
      rw [harrived]
      exact List.subset_append_left _ _
    · rw [harrived' hi]
      exact List.Subset.refl _
  refine ⟨fun i => ?_, fun i => ?_, fun i => ?_, fun i x hx => ?_, fun i c k hk => ?_,
    fun i a ha => ?_, fun i c sc' hsc' m hm => ?_, fun i c sc' hsc' x hx => ?_⟩
  · by_cases hi : i = j
    · subst hi
      rw [hself]
      exact (h.join i).step e
    · rw [hother hi]
      exact h.join i
  · by_cases hi : i = j
    · subst hi
      rwa [hself, hproxy]
    · rw [hother hi]
      exact h.ready i
  · by_cases hi : i = j
    · subst hi
      rw [hself, hproxy, harrived, hedges, Contest.deliverAll_append, h.contest i]
    · rw [hother hi, harrived' hi]
      exact h.contest i
  · by_cases hi : i = j
    · subst hi
      rw [hself, hinserted, List.mem_append] at hx
      rw [harrived, List.mem_append]
      exact hx.imp (h.own i x) (hown x)
    · rw [hother hi] at hx
      exact hgrow i (h.own i x hx)
  · rcases htaken i c k hk with hk | ⟨hj, sc, m, hsc, hm, hedge⟩
    · obtain ⟨sc, m, hsc, hm, hedge⟩ := h.received i c k hk
      obtain ⟨sc', hsc', hev⟩ := (hlinks i).old hsc
      exact ⟨sc', m, hsc', hev.getElem?_queued hm, hgrow _ hedge⟩
    · obtain ⟨sc', hsc', hev⟩ := (hlinks i).old hsc
      refine ⟨sc', m, hsc', hev.getElem?_queued hm, ?_⟩
      rw [hj, harrived]
      exact List.mem_append_right _ hedge
  · by_cases hi : i = j
    · subst hi
      rw [harrived, List.mem_append] at ha
      rcases ha with ha | ha
      · exact hmono (h.origin i a ha)
      · rcases horigin a ha with ha | ⟨x, hx, rfl⟩
        · exact hmono ha
        · refine ⟨i, x, ?_, rfl⟩
          rw [hself, hinserted]
          exact List.mem_append_right _ hx
    · rw [harrived' hi] at ha
      exact hmono (h.origin i a ha)
  · cases hsc : (s.nodes i).links[c]? with
    | none =>
      have hblank := (hlinks i).new hsc hsc'
      rw [hblank.queued, hblank.toSend] at hm
      simp at hm
    | some sc =>
      obtain ⟨sc'', hsc'', hev⟩ := (hlinks i).old hsc
      obtain rfl : sc'' = sc' := Option.some.inj (hsc''.symm.trans hsc')
      rcases hev.source m hm with hm | ⟨q, hm⟩ | ⟨order, hm⟩
      · exact hmono (h.queued i c sc hsc m hm)
      · exact hmono (h.message_allocated hm)
      · exact hmono (h.edges_allocated (edge_mem_of_mem_getAllMappings (h.ready i).repInv hm))
  · cases hsc : (s.nodes i).links[c]? with
    | none =>
      rw [((hlinks i).new hsc hsc').lost] at hx
      cases hx
    | some sc =>
      obtain ⟨sc'', hsc'', hev⟩ := (hlinks i).old hsc
      obtain rfl : sc'' = sc' := Option.some.inj (hsc''.symm.trans hsc')
      have hbeaten : ∃ y ∈ s.allocated, Contest.Beats Edge.Conflict y (insertionEdge x) := by
        rcases hev.lost x hx with hx | ⟨hx, hnot⟩
        · exact h.lost i c sc hsc x hx
        · exact h.beaten_of_not_holds hx hnot
      obtain ⟨y, hy, hb⟩ := hbeaten
      exact ⟨y, hmono hy, hb⟩

theorem step (h : Inv peer s) {e : Event n} (hcalm : Calm s e) (hvalid : Acceptable peer s e) :
    Inv peer (step peer s e) := by
  cases e with
  | act i e =>
    obtain ⟨hready, hedges⟩ := (h.ready i).step hcalm
    refine h.update hready ?_ (fun x hx => List.mem_map_of_mem hx)
      (fun a ha => .inr (List.mem_map.1 ha)) fun _ _ _ hk => .inl hk
    rw [Contest.deliverAll_map_val, hedges]
  | deliver i c t t' =>
    simp only [Cluster.step]
    cases hnext : s.next i c with
    | none => exact h
    | some m =>
      obtain ⟨sc, hsc, hm⟩ := Option.bind_eq_some_iff.1 hnext
      obtain ⟨hready, hedges⟩ := (h.ready (peer i c)).receive (hvalid m hnext) t t'
      rw [show Contest.deliver Edge.Conflict (edges (s.nodes (peer i c)).proxy.pool) m.edge =
        Contest.deliverAll Edge.Conflict id _ [m.edge] from rfl] at hedges
      refine h.update hready hedges (fun x hx => by cases hx) (fun a ha => .inl ?_)
        fun i' c' k hk => ?_
      · rw [List.mem_singleton.1 ha]
        exact h.queued i c sc hsc m (.inl (List.mem_of_getElem? hm))
      · by_cases hi : i' = i
        · subst hi
          by_cases hc : c' = c
          · subst hc
            rw [Function.update_self, Function.update_self] at hk
            rcases Nat.lt_succ_iff_lt_or_eq.1 hk with hk | rfl
            · exact .inl hk
            · exact .inr ⟨rfl, sc, m, hsc, hm, List.mem_singleton_self _⟩
          · rw [Function.update_self, Function.update_of_ne hc] at hk
            exact .inl hk
        · rw [Function.update_of_ne hi] at hk
          exact .inl hk

/-- What no mapping beats reaches every node. -/
theorem unbeaten_arrived (h : Inv peer s) (hbroadcast : ∀ i, ∀ x ∈ (s.nodes i).inserted,
      ∃ q ∈ (s.nodes i).done, ∃ m ∈ (s.nodes i).message q, m.key = x)
    (hlinked : ∀ i j, i ≠ j → Linked peer s i j) (j : Fin n) {e : Edge}
    (he : e ∈ Contest.unbeaten Edge.Conflict s.allocated) : e ∈ s.arrived j := by
  obtain ⟨⟨i, x, hx, rfl⟩, hun⟩ := he
  by_cases hij : i = j
  · subst hij
    exact h.own i x hx
  · obtain ⟨addr, c, sc, hconn, hlink, hopen, hsent, hpeer, htaken⟩ := hlinked i j hij
    obtain ⟨q, hq, m, hm, rfl⟩ := hbroadcast i x hx
    -- it was in the pool when the snapshot was taken
    have hlost : m.key ∉ sc.lost := fun hlost => by
      obtain ⟨y, hy, hb⟩ := h.lost i c sc hlink _ hlost
      exact hun y hy hb
    obtain ⟨m', hm', hkey⟩ := (h.join i).delivered addr c sc hconn hlink hopen hsent q hq m hm hlost
    obtain ⟨k, hk⟩ := List.mem_iff_getElem?.1 hm'
    have hlt := lt_of_lt_of_le (List.getElem?_eq_some_iff.1 hk).1 htaken
    obtain ⟨sc', m'', hlink', hk', hedge⟩ := h.received i c k hlt
    obtain rfl : sc = sc' := Option.some.inj (hlink.symm.trans hlink')
    obtain rfl : m' = m'' := Option.some.inj (hk.symm.trans hk')
    rw [← hpeer, ← hkey]
    exact hedge

end Inv

/-! ## What is taken is valid -/

/-- All the nodes send valid mappings. -/
theorem sends_step {c : PoolRange} {peer : Fin n → ℕ → Fin n} {s : Cluster n} {e : Event n}
    (h : ∀ i, Sends c (s.nodes i)) (hcalm : Calm s e) : ∀ i, Sends c ((step peer s e).nodes i) := by
  -- one node makes a step
  have hupdate {j : Fin n} {e : Join.Event} (he : Admitted c e) (i : Fin n) :
      Sends c (Function.update s.nodes j (Join.step (s.nodes j) e) i) := by
    by_cases hi : i = j
    · subst hi
      rw [Function.update_self]
      exact (h i).step he
    · rw [Function.update_of_ne hi]
      exact h i
  cases e with
  | act j e =>
    refine hupdate ?_
    cases e with
    | query enableIPv6 resp now => exact hcalm
    | receive m t t' => exact hcalm.elim
    | _ => trivial
  | deliver j k t t' =>
    simp only [step]
    cases hnext : s.next j k with
    | none => exact h
    | some m =>
      obtain ⟨sc, hsc, hm⟩ := Option.bind_eq_some_iff.1 hnext
      exact hupdate ((h j).queued hsc m (.inl (List.mem_of_getElem? hm)))

/-- **Nodes of a regular configuration send what their peers accept.** -/
theorem acceptable_of_regular (peer : Fin n → ℕ → Fin n) (uuids : Fin n → UInt64)
    {base4 base6 : Bytes} {cfg : IPPoolConfig}
    (hregular : Regular (newIPPoolWithConfig base4 base6 cfg).toPoolRange) {es : List (Event n)}
    (hcalm : Runs.Along (step peer) Calm (start uuids base4 base6 cfg) es) :
    Runs.Along (step peer) (Acceptable peer) (start uuids base4 base6 cfg) es := by
  have hsends : Runs.Along (step peer)
      (fun s _ => ∀ i, Sends (newIPPoolWithConfig base4 base6 cfg).toPoolRange (s.nodes i))
      (start uuids base4 base6 cfg) es :=
    Runs.invariant_along (fun s e h hC => sends_step h hC) (fun i => .start (uuids i) hregular)
      hcalm
  rintro ⟨s, e⟩ hx
  cases e with
  | act i e => trivial
  | deliver i k t t' =>
    intro m hnext
    obtain ⟨sc, hsc, hm⟩ := Option.bind_eq_some_iff.1 hnext
    rw [(hsends _ hx (peer i k)).nets]
    exact (hsends _ hx i).queued hsc m (.inl (List.mem_of_getElem? hm))

/-! ## Agreement -/

/-- **The nodes of a cluster agree.** Take any calm run of nodes that start with empty pools of one
configuration, which is regular, or at least what a node takes is valid for it. When all that the
requests have inserted has been broadcast, every node has an open connection to every other on which
the snapshot has been sent and everything taken, and every mapping that was beaten by another is
beaten by an unbeaten one, then all the pools hold the unbeaten mappings. -/
theorem agree_of_quiet (peer : Fin n → ℕ → Fin n) (uuids : Fin n → UInt64) (base4 base6 : Bytes)
    (cfg : IPPoolConfig) {es : List (Event n)}
    (hcalm : Runs.Along (step peer) Calm (start uuids base4 base6 cfg) es)
    (hvalid : Regular (newIPPoolWithConfig base4 base6 cfg).toPoolRange ∨
      Runs.Along (step peer) (Acceptable peer) (start uuids base4 base6 cfg) es)
    (hbroadcast : ∀ i,
      ∀ x ∈ ((Runs.run (step peer) (start uuids base4 base6 cfg) es).nodes i).inserted,
      ∃ q ∈ ((Runs.run (step peer) (start uuids base4 base6 cfg) es).nodes i).done,
      ∃ m ∈ ((Runs.run (step peer) (start uuids base4 base6 cfg) es).nodes i).message q, m.key = x)
    (hlinked : ∀ i j, i ≠ j →
      Linked peer (Runs.run (step peer) (start uuids base4 base6 cfg) es) i j)
    (hcovered : Contest.Covered Edge.Conflict
      (Runs.run (step peer) (start uuids base4 base6 cfg) es).allocated) :
    let s := Runs.run (step peer) (start uuids base4 base6 cfg) es
    (∀ i, edges (s.nodes i).proxy.pool = Contest.unbeaten Edge.Conflict s.allocated) ∧
      ∀ i j, Agree (s.nodes i).proxy.pool (s.nodes j).proxy.pool := by
  intro s
  have hvalid : Runs.Along (step peer) (Acceptable peer) (start uuids base4 base6 cfg) es :=
    hvalid.elim (fun hregular => acceptable_of_regular peer uuids hregular hcalm) id
  have hs : Inv peer s := Runs.invariant (C := fun s e => Calm s e ∧ Acceptable peer s e)
    (fun s e hs hC => hs.step hC.1 hC.2) (Inv.start uuids base4 base6 cfg)
    fun x hx => ⟨hcalm x hx, hvalid x hx⟩
  have hedges (i : Fin n) :
      edges (s.nodes i).proxy.pool = Contest.unbeaten Edge.Conflict s.allocated := by
    have hsub : ∅ ∪ {e | ∃ a ∈ s.arrived i, id a = e} ⊆ s.allocated := by
      rintro e (he | ⟨a, ha, rfl⟩)
      · exact he.elim
      · exact hs.origin i a ha
    obtain ⟨hcov, hun⟩ := hcovered.of_subset hsub fun e he =>
      .inr ⟨e, hs.unbeaten_arrived hbroadcast hlinked i he, rfl⟩
    rw [hs.contest i, Contest.deliverAll_eq_unbeaten Edge.conflict_symm (fun x hx => hx.elim) hcov,
      hun]
  refine ⟨hedges, fun i j => ?_⟩
  rw [agree_iff_edges_eq (hs.ready i).repInv (hs.ready j).repInv, hedges i, hedges j]

/-- Two nodes, each at the other end of the connections of the other. -/
def opposite (i : Fin 2) (_ : ℕ) : Fin 2 := 1 - i

/-- A node is asked for 192.0.2.1, and broadcasts the mapping to nobody. -/
def asked (i : Fin 2) (t : Time) : List (Event 2) :=
  [.act i (.query false ⟨false, false, [⟨[], 1, 60, .a [192, 0, 2, 1]⟩], [], []⟩ t),
    .act i (.advance 0 t 0), .act i (.advance 0 t 0), .act i (.advance 0 t 0),
    .act i (.beginBroadcast 0), .act i (.endBroadcast 0)]

/-- A node connects, and sends its snapshot. -/
def joined (i : Fin 2) (uuid : UInt64) : List (Event 2) :=
  [.act i (.connect [1] [2] uuid (i == 0)), .act i (.register 0),
    .act i (.snapshot 0 [toIPKey [198, 18, 0, 1]]), .act i (.send 0), .act i (.send 0)]

/-- The two nodes have given the same fake with different versions when they connect. -/
def latecomers : List (Event 2) :=
  asked 0 0 ++ asked 1 7 ++ joined 0 2 ++ joined 1 1 ++ [.deliver 0 0 8 8, .deliver 1 0 9 9]

theorem agree_after_latecomers :
    let s := Runs.run (step opposite) (start (fun i => i.val.toUInt64) [] [] ⟨4, 4⟩) latecomers
    (s.nodes 0).proxy.pool.versionOf (toIPKey [198, 18, 0, 1]) = some 7 ∧
      Agree (s.nodes 0).proxy.pool (s.nodes 1).proxy.pool := by
  intro s
  have hlink (i : Fin 2) : Linked opposite s i (1 - i) := by
    have hcheck : (s.nodes i).links[0]?.map (fun sc => !sc.closed && (sc.phase matches .sent) &&
        decide (sc.queued.length ≤ s.taken i 0) &&
        decide ((s.nodes i).conns.lookup [1] = some 0)) = some true := by
      revert i
      decide +kernel
    obtain ⟨sc, hsc, hcheck⟩ := Option.map_eq_some_iff.1 hcheck
    simp only [Bool.and_eq_true, decide_eq_true_eq, Bool.not_eq_true'] at hcheck
    obtain ⟨⟨⟨hopen, hphase⟩, htaken⟩, hconn⟩ := hcheck
    refine ⟨[1], 0, sc, hconn, hsc, hopen, ?_, rfl, htaken⟩
    cases hsc : sc.phase with
    | sent => rfl
    | _ => simp [hsc] at hphase
  -- all the mappings have the same fake
  have hfake : ∀ i, ∀ x ∈ (s.nodes i).inserted, x.1 = toIPKey [198, 18, 0, 1] := by decide +kernel
  have hcovered : Contest.Covered Edge.Conflict s.allocated := by
    refine Contest.covered_of_trans Edge.conflict_symm ?_ ?_
    · have hunion : s.allocated = ⋃ i, insertionEdge '' {x | x ∈ (s.nodes i).inserted} := by
        ext e
        simp [allocated]
      rw [hunion]
      exact Set.finite_iUnion fun i => (List.finite_toSet _).image _
    · rintro _ ⟨i, x, hx, rfl⟩ y - _ ⟨j, z, hz, rfl⟩ - -
      exact .inl ((hfake i x hx).trans (hfake j z hz).symm)
  have hagree := agree_of_quiet opposite (fun i => i.val.toUInt64) [] [] ⟨4, 4⟩
    (by decide +kernel) (.inl (by decide +kernel)) (by decide +kernel) (fun i j hij => ?_) hcovered
  · exact ⟨by decide +kernel, hagree.2 0 1⟩
  · have hj : j = 1 - i := by
      revert i j
      decide
    exact hj ▸ hlink i

end Cluster

end NextPath.Sync
