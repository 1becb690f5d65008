import NextPath.Foundations.Runs
import NextPath.Sync.Connections

/-!
# No mapping is lost when a peer joins

A mapping is in the pool before it is broadcast, and a connection is in the table before its handler
looks at the pool. So a broadcast that does not reach a new connection, because it is over before
the connection is registered, is of mappings that the handler then finds in the pool, unless they
have gone from it.

The invariant `Inv` follows a connection from its registration on: `covered` is about the broadcasts
that are over, with the mappings that the handler has still to queue, `serving` about those that are
going on.
-/

namespace NextPath.Sync.Join

open Net Pool

/-! ## The property -/

/-- The mapping has been put in the queue of the connection. -/
def Queued (sc : SafeConn) (m : Mapping) : Prop := ∃ m' ∈ sc.queued, m'.key = m.key

/-- What has been broadcast, and had not gone from the pool when the handler of a connection took
its snapshot, has been queued on that connection once the snapshot has been sent; unless the
connection is closed or no longer the one that is registered for its peer. -/
def Delivered (s : Node) : Prop :=
  ∀ addr c sc, s.conns.lookup addr = some c → s.links[c]? = some sc → sc.closed = false →
    sc.phase = .sent → ∀ i ∈ s.done, ∀ m ∈ s.message i, m.key ∉ sc.lost → Queued sc m

/-! ## Snapshots and batches -/

theorem flatten_batches (current mappings : List Mapping) :
    (batches current mappings).flatten = current ++ mappings := by
  induction mappings generalizing current with
  | nil =>
    rw [batches]
    split_ifs with h
    · simp [h]
    · simp
  | cons m rest ih =>
    rw [batches]
    split_ifs
    · rw [List.flatten_cons, ih]
      simp
    · rw [ih]
      simp

/-- A mapping that the pool has is in the snapshot. -/
theorem exists_mem_getAllMappings {p : IPPool} {order : List IPKey} (horder : Enumerates p order)
    {x : Insertion} (h : Holds p x = true) : ∃ m ∈ getAllMappings p order, m.key = x := by
  obtain ⟨hreal, hversion⟩ := of_decide_eq_true h
  have hmem : x.1 ∈ order := by
    rw [← List.mem_toFinset, horder.2, Finmap.mem_keys]
    exact Finmap.mem_of_lookup_eq_some hreal
  refine ⟨_, List.mem_filterMap.2 ⟨_, hmem, by rw [hreal, Option.map_some]⟩, ?_⟩
  simp only [Mapping.key, toIPKey_toIP, hversion]

/-! ## One connection -/

/-- The mapping has been queued, or the handler has still to take it from the pool or to queue it,
or it was lost. -/
def Covered (sc : SafeConn) (m : Mapping) : Prop :=
  Queued sc m ∨
    match sc.phase with
    | .sending rest => m.key ∈ sc.lost ∨ ∃ m' ∈ rest.flatten, m'.key = m.key
    | .sent => m.key ∈ sc.lost
    | _ => True

theorem Queued.mono {sc sc' : SafeConn} (h : sc.queued ⊆ sc'.queued) {m : Mapping}
    (hm : Queued sc m) : Queued sc' m := by
  obtain ⟨m', hm', hkey⟩ := hm
  exact ⟨m', h hm', hkey⟩

/-- If a connection is open after a message, the message is in its queue. -/
theorem push_of_open {sc : SafeConn} {mappings : List Mapping}
    (h : (sc.push mappings).closed = false) :
    sc.closed = false ∧
      sc.push mappings =
        { sc with pending := sc.pending + 1, queued := sc.queued ++ mappings } := by
  by_cases hclosed : sc.closed = true
  · rw [SafeConn.push, if_pos hclosed, hclosed] at h
    cases h
  · rw [SafeConn.push, if_neg hclosed] at h ⊢
    split_ifs at h ⊢
    · exact ⟨Bool.eq_false_iff.2 hclosed, rfl⟩
    · cases h

/-- A connection that is open was open before, has at least the mappings in its queue that it had,
and covers what it covered. -/
structure Keeps (M : Mapping → Prop) (sc sc' : SafeConn) : Prop where
  opened : sc'.closed = false → sc.closed = false
  queued : sc'.closed = false → sc.queued ⊆ sc'.queued
  covered : sc'.closed = false → ∀ m, M m → Covered sc m → Covered sc' m

namespace Keeps

variable {M : Mapping → Prop} {sc : SafeConn}

theorem of_closed {sc' : SafeConn} (h : sc'.closed = true) : Keeps M sc sc' := by
  constructor <;> simp [h]

/-- Only the queue has changed. -/
theorem of_queued {sc' : SafeConn} (hopen : sc'.closed = false → sc.closed = false)
    (hqueued : sc.queued ⊆ sc'.queued) (hphase : sc'.phase = sc.phase)
    (hlost : sc'.lost = sc.lost) : Keeps M sc sc' where
  opened := hopen
  queued _ := hqueued
  covered _ m _ h := by
    rw [Covered, hphase, hlost]
    exact h.imp_left (Queued.mono hqueued)

theorem push (mappings : List Mapping) : Keeps M sc (sc.push mappings) := by
  cases hclosed : (sc.push mappings).closed with
  | true => exact of_closed hclosed
  | false =>
    obtain ⟨hopen, heq⟩ := push_of_open hclosed
    rw [heq]
    exact of_queued (fun _ => hopen) (List.subset_append_left _ _) rfl rfl

theorem sendNext : Keeps M sc sc.sendNext := by
  rw [SafeConn.sendNext]
  split
  case h_1 hphase =>
    refine ⟨id, fun _ => List.Subset.refl _, fun _ m _ h => h.imp_right ?_⟩
    rw [hphase]
    simp
  case h_2 batch rest hphase =>
    cases hclosed : (sc.push batch).closed with
    | true => exact of_closed hclosed
    | false =>
      obtain ⟨hopen, heq⟩ := push_of_open hclosed
      rw [heq]
      refine ⟨fun _ => hopen, fun _ => List.subset_append_left _ _, fun _ m _ h => ?_⟩
      rcases h with hm | hm
      · exact .inl (hm.mono (List.subset_append_left _ _))
      · rw [hphase] at hm
        -- what was in the batch is now in the queue
        rcases hm with hlost | ⟨m', hm', hkey⟩
        · exact .inr (.inl hlost)
        · rw [List.flatten_cons, List.mem_append] at hm'
          rcases hm' with hm' | hm'
          · exact .inl ⟨m', List.mem_append_right _ hm', hkey⟩
          · exact .inr (.inr ⟨m', hm', hkey⟩)
  case h_3 => exact of_queued id (List.Subset.refl _) rfl rfl

end Keeps

/-! ## The invariant -/

/-- What holds of the connections in the table, while they are open. -/
structure Inv (s : Node) : Prop where
  valid : ∀ {addr : Bytes} {c : ℕ}, s.conns.lookup addr = some c → c < s.links.length
  /-- Only answered requests broadcast. -/
  answered : ∀ {i : ℕ}, (i ∈ s.done ∨ ∃ rest, (i, rest) ∈ s.broadcasting) →
    ∃ req, s.proxy.requests[i]? = some req ∧ req.status = .answered
  recorded : ∀ {i : ℕ} {req : Proxy.Request}, s.proxy.requests[i]? = some req →
    Recorded s.inserted req
  covered : ∀ {addr : Bytes} {c : ℕ} {sc : SafeConn}, s.conns.lookup addr = some c →
    s.links[c]? = some sc → sc.closed = false → ∀ i ∈ s.done, ∀ m ∈ s.message i, Covered sc m
  serving : ∀ {i : ℕ} {rest : Map Bytes ℕ} {addr : Bytes} {c : ℕ} {sc : SafeConn},
    (i, rest) ∈ s.broadcasting → s.conns.lookup addr = some c → s.links[c]? = some sc →
      sc.closed = false → rest.lookup addr = some c ∨ s.message i ⊆ sc.queued

namespace Inv

variable {s : Node}

theorem delivered (h : Inv s) : Delivered s := by
  intro addr c sc hconn hlink hopen hsent i hi m hm hlost
  refine (h.covered hconn hlink hopen i hi m hm).resolve_right fun hrest => hlost ?_
  rwa [hsent] at hrest

/-- The pool and the requests change; those that are answered stay. -/
theorem setProxy (h : Inv s) {proxy : Proxy.State}
    {inserted : List Insertion}
    (hproxy : ∀ (i : ℕ) (req : Proxy.Request), s.proxy.requests[i]? = some req →
      req.status = .answered → proxy.requests[i]? = some req)
    (hrecorded : ∀ {i : ℕ} {req : Proxy.Request}, proxy.requests[i]? = some req →
      Recorded inserted req) : Inv { s with proxy, inserted } := by
  have hmessage {i : ℕ} (hi : i ∈ s.done ∨ ∃ rest, (i, rest) ∈ s.broadcasting) :
      Node.message { s with proxy, inserted } i = s.message i := by
    obtain ⟨req, hreq, hanswered⟩ := h.answered hi
    simp only [Node.message, hproxy i req hreq hanswered, hreq]
  constructor
  · exact h.valid
  · intro i hi
    obtain ⟨req, hreq, hanswered⟩ := h.answered hi
    exact ⟨req, hproxy i req hreq hanswered, hanswered⟩
  · exact hrecorded
  · intro addr c sc hconn hlink hopen i hi
    rw [hmessage (.inl hi)]
    exact h.covered hconn hlink hopen i hi
  · intro i rest addr c sc hmem hconn hlink hopen
    rw [hmessage (.inr ⟨rest, hmem⟩)]
    exact h.serving hmem hconn hlink hopen

theorem query (h : Inv s) (enableIPv6 : Bool) (resp : Proxy.Msg) (now : Time) :
    Inv (Join.step s (.query enableIPv6 resp now)) := by
  refine h.setProxy (fun i req hreq hanswered => Proxy.step_answered hreq hanswered _)
    fun {j req} hreq => ?_
  rcases Proxy.requests_start hreq with hreq | rfl
  · exact h.recorded hreq
  · exact .start enableIPv6 resp now

theorem advance (h : Inv s) (i : ℕ) (t : Time) (k : ℕ) : Inv (s.advance i t k) := by
  refine h.setProxy (fun i req hreq hanswered => Proxy.step_answered hreq hanswered _)
    fun {j req} hreq => ?_
  rcases Proxy.requests_advance hreq with ⟨-, hreq⟩ | ⟨rfl, old, hi, rfl⟩
  · exact (h.recorded hreq).mono (List.subset_append_left _ _)
  · rw [hi]
    exact (h.recorded hi).advance s.proxy.pool t k

/-- A connection changes, and keeps what it covers of what has been broadcast. -/
theorem modifyConn (h : Inv s) {c : ℕ} {f : SafeConn → SafeConn}
    (hf : ∀ sc, Keeps (fun m => ∃ i ∈ s.done, m ∈ s.message i) sc (f sc)) :
    Inv (s.modifyConn c f) := by
  -- a link is unchanged or changed by `f`
  have hlinks {c' : ℕ} {sc' : SafeConn} (h' : (s.modifyConn c f).links[c']? = some sc') :
      ∃ sc, s.links[c']? = some sc ∧
        Keeps (fun m => ∃ i ∈ s.done, m ∈ s.message i) sc sc' := by
    rw [Node.modifyConn, List.getElem?_modify] at h'
    obtain ⟨sc, hsc, rfl⟩ := Option.map_eq_some_iff.1 h'
    refine ⟨sc, hsc, ?_⟩
    split_ifs
    · exact hf sc
    · exact Keeps.of_queued id (List.Subset.refl _) rfl rfl
  constructor
  · intro addr c' hconn
    simpa [Node.modifyConn] using h.valid hconn
  · exact h.answered
  · exact h.recorded
  · intro addr c' sc' hconn hlink hopen i hi m hm
    obtain ⟨sc, hsc, hkeeps⟩ := hlinks hlink
    exact hkeeps.covered hopen m ⟨i, hi, hm⟩
      (h.covered hconn hsc (hkeeps.opened hopen) i hi m hm)
  · intro i rest addr c' sc' hmem hconn hlink hopen
    obtain ⟨sc, hsc, hkeeps⟩ := hlinks hlink
    exact (h.serving hmem hconn hsc (hkeeps.opened hopen)).imp_right fun hm =>
      List.Subset.trans hm (hkeeps.queued hopen)

/-- A connection that is registered is in the table before its handler looks at the pool. -/
theorem enter (h : Inv s) (hidle : s.broadcasting = []) {c : ℕ} (hc : c < s.links.length)
    (sc : SafeConn) : Inv (s.enter c sc) := by
  constructor
  · intro addr c' hconn
    simp only [Node.enter, List.length_set]
    rw [Node.enter, Map.lookup_insert_ite] at hconn
    split_ifs at hconn
    · exact Option.some.inj hconn ▸ hc
    · exact h.valid hconn
  · exact h.answered
  · exact h.recorded
  · intro addr c' sc' hconn hlink hopen i hi m hm
    by_cases hcc : c = c'
    · subst hcc
      rw [Node.enter, List.getElem?_set_self hc] at hlink
      rw [← Option.some.inj hlink]
      exact .inr trivial
    · rw [Node.enter, List.getElem?_set_ne hcc] at hlink
      rw [Node.enter, Map.lookup_insert_ite] at hconn
      split_ifs at hconn
      · exact absurd (Option.some.inj hconn) hcc
      · exact h.covered hconn hlink hopen i hi m hm
  · intro i rest addr c' sc' hmem
    have : (i, rest) ∈ s.broadcasting := hmem
    rw [hidle] at this
    cases this

theorem register (h : Inv s) (hidle : s.broadcasting = []) (c : ℕ) : Inv (s.register c) := by
  rw [Node.register]
  cases hlink : s.links[c]? with
  | none => exact h
  | some sc =>
    have hc := (List.getElem?_eq_some_iff.1 hlink).1
    dsimp only
    split
    · split
      · exact h.enter hidle hc sc
      · split_ifs
        · exact (h.modifyConn fun _ => .of_closed rfl).enter hidle
            (by simpa [Node.modifyConn] using hc) sc
        · exact h.modifyConn fun _ => .of_closed rfl
    · exact h

theorem leave (h : Inv s) (c : ℕ) : Inv (s.leave c) := by
  rw [Node.leave]
  cases s.links[c]? with
  | none => exact h
  | some sc =>
    dsimp only
    split_ifs
    · have hsub {addr : Bytes} {c' : ℕ}
          (hconn : (s.conns.erase sc.selfAddr).lookup addr = some c') :
          s.conns.lookup addr = some c' := by
        rw [Map.lookup_erase_ite] at hconn
        split_ifs at hconn
        exact hconn
      exact ⟨fun hconn => h.valid (hsub hconn), h.answered, h.recorded,
        fun hconn => h.covered (hsub hconn), fun hmem hconn => h.serving hmem (hsub hconn)⟩
    · exact h

theorem connect (h : Inv s) (sc : SafeConn) : Inv { s with links := s.links ++ [sc] } := by
  have hsame {addr : Bytes} {c : ℕ} (hconn : s.conns.lookup addr = some c) :
      (s.links ++ [sc])[c]? = s.links[c]? := List.getElem?_append_left (h.valid hconn)
  constructor
  · intro addr c hconn
    rw [List.length_append]
    exact Nat.lt_add_right _ (h.valid hconn)
  · exact h.answered
  · exact h.recorded
  · intro addr c sc' hconn hlink
    exact h.covered hconn ((hsame hconn).symm.trans hlink)
  · intro i rest addr c sc' hmem hconn hlink
    exact h.serving hmem hconn ((hsame hconn).symm.trans hlink)

/-- **The snapshot has what was broadcast before it**, but for what has gone from the pool. -/
theorem snapshot (h : Inv s) (c : ℕ) {order : List IPKey}
    (horder : Enumerates s.proxy.pool order) : Inv (s.snapshot c order) := by
  refine h.modifyConn fun sc => ?_
  split
  · refine ⟨id, fun _ => List.Subset.refl _, fun _ m hm _ => .inr ?_⟩
    obtain ⟨i, hi, hm⟩ := hm
    obtain ⟨req, hreq, -⟩ := h.answered (.inl hi)
    rw [Node.message, hreq, Option.map_some, Option.getD_some] at hm
    cases hholds : Holds s.proxy.pool m.key with
    | true =>
      refine .inr ?_
      rw [flatten_batches, List.nil_append]
      exact exists_mem_getAllMappings horder hholds
    | false =>
      have hinserted := (h.recorded hreq).toBroadcast m hm
      exact .inl (List.mem_filter.2 ⟨hinserted, by rw [hholds]; rfl⟩)
  · exact .of_queued id (List.Subset.refl _) rfl rfl

/-! ## Broadcasts -/

theorem answered_of_message {i : ℕ} (h : s.message i ≠ []) :
    ∃ req, s.proxy.requests[i]? = some req ∧ req.status = .answered := by
  rw [Node.message] at h
  cases hreq : s.proxy.requests[i]? with
  | none => simp [hreq] at h
  | some req =>
    refine ⟨req, rfl, ?_⟩
    rw [hreq, Option.map_some, Option.getD_some, toBroadcast] at h
    cases hstatus : req.status with
    | answered => rfl
    | _ => simp [hstatus] at h

theorem beginBroadcast (h : Inv s) (i : ℕ) : Inv (s.beginBroadcast i) := by
  rw [Node.beginBroadcast]
  split_ifs with _ hmessage
  · exact h
  · exact h
  · constructor
    · exact h.valid
    · rintro j (hj | ⟨rest, hj⟩)
      · exact h.answered (.inl hj)
      · rcases List.mem_append.1 hj with hj | hj
        · exact h.answered (.inr ⟨rest, hj⟩)
        · obtain ⟨rfl, -⟩ := Prod.mk.inj (List.mem_singleton.1 hj)
          exact answered_of_message hmessage
    · exact h.recorded
    · exact h.covered
    · intro j rest addr c sc hmem hconn hlink hopen
      rcases List.mem_append.1 hmem with hmem | hmem
      · exact h.serving hmem hconn hlink hopen
      · -- the whole table is still to be served
        obtain ⟨-, rfl⟩ := Prod.mk.inj (List.mem_singleton.1 hmem)
        exact .inl hconn

theorem forward (h : Inv s) (b : ℕ) (addr : Bytes) : Inv (s.forward b addr) := by
  rw [Node.forward]
  cases hb : s.broadcasting[b]? with
  | none => exact h
  | some x =>
    rcases x with ⟨i, rest⟩
    dsimp only
    cases haddr : rest.lookup addr with
    | none => exact h
    | some c =>
      have hmem := List.mem_of_getElem? hb
      have hpush : Inv (s.modifyConn c (·.push (s.message i))) := h.modifyConn fun _ => .push _
      constructor
      · exact hpush.valid
      · rintro j (hj | ⟨rest', hj⟩)
        · exact h.answered (.inl hj)
        · rcases List.mem_or_eq_of_mem_set hj with hj | hj
          · exact h.answered (.inr ⟨rest', hj⟩)
          · obtain ⟨rfl, -⟩ := Prod.mk.inj hj
            exact h.answered (.inr ⟨rest, hmem⟩)
      · exact h.recorded
      · exact hpush.covered
      · intro j rest' addr' c' sc' hmem' hconn hlink hopen
        rcases List.mem_or_eq_of_mem_set hmem' with hmem' | hmem'
        · exact hpush.serving hmem' hconn hlink hopen
        · obtain ⟨rfl, rfl⟩ := Prod.mk.inj hmem'
          rcases hpush.serving hmem hconn hlink hopen with hrest | hqueued
          · rw [Map.lookup_erase_ite]
            split_ifs with haddr'
            · -- the connection that has just been served
              subst haddr'
              obtain rfl : c = c' := Option.some.inj (haddr.symm.trans hrest)
              have hsc : (s.links.modify c (·.push (s.message j)))[c]? = some sc' := hlink
              rw [List.getElem?_modify] at hsc
              obtain ⟨sc, -, rfl⟩ := Option.map_eq_some_iff.1 hsc
              rw [if_pos rfl] at hopen ⊢
              rw [(push_of_open hopen).2]
              exact .inr (List.subset_append_right _ _)
            · exact .inl hrest
          · exact .inr hqueued

theorem endBroadcast (h : Inv s) (b : ℕ) : Inv (s.endBroadcast b) := by
  rw [Node.endBroadcast]
  cases hb : s.broadcasting[b]? with
  | none => exact h
  | some x =>
    rcases x with ⟨i, rest⟩
    dsimp only
    split_ifs with hrest
    · have hmem := List.mem_of_getElem? hb
      constructor
      · exact h.valid
      · rintro j (hj | ⟨rest', hj⟩)
        · rcases List.mem_cons.1 hj with rfl | hj
          · exact h.answered (.inr ⟨rest, hmem⟩)
          · exact h.answered (.inl hj)
        · exact h.answered (.inr ⟨rest', List.mem_of_mem_eraseIdx hj⟩)
      · exact h.recorded
      · intro addr c sc hconn hlink hopen j hj m hm
        rcases List.mem_cons.1 hj with rfl | hj
        · -- every connection has been served
          have hserved := (h.serving hmem hconn hlink hopen).resolve_left (by simp [hrest])
          exact .inl ⟨m, hserved hm, rfl⟩
        · exact h.covered hconn hlink hopen j hj m hm
      · intro j rest' addr c sc hmem'
        exact h.serving (List.mem_of_mem_eraseIdx hmem')
    · exact h

theorem step (h : Inv s) (e : Event) : Inv (step s e) := by
  cases e with
  | query enableIPv6 resp now => exact h.query enableIPv6 resp now
  | advance i t k => exact h.advance i t k
  | receive m t t' => exact h.setProxy (fun i req hreq _ => hreq) h.recorded
  | prune now order => exact h.setProxy (fun i req hreq _ => hreq) h.recorded
  | connect selfAddr localCanonical peerUUID isOutgoing => exact h.connect _
  | register c =>
    simp only [Join.step]
    split_ifs with hidle
    · exact h.register hidle c
    · exact h
  | snapshot c order =>
    simp only [Join.step]
    split_ifs with horder
    · exact h.snapshot c horder
    · exact h
  | send c => exact h.modifyConn fun _ => .sendNext
  | beginBroadcast i => exact h.beginBroadcast i
  | forward b addr => exact h.forward b addr
  | endBroadcast b => exact h.endBroadcast b
  | message c => exact h.modifyConn fun _ => .push []
  | write c => exact h.modifyConn fun _ => .of_queued id (List.Subset.refl _) rfl rfl
  | close c => exact h.modifyConn fun _ => .of_closed rfl
  | leave c =>
    simp only [Join.step]
    split_ifs
    · exact h.leave c
    · exact h

end Inv

/-! ## Runs -/

theorem Inv.start (nodeUUID : UInt64) (nets : Subnets) (pool : IPPool) :
    Inv (.start nodeUUID nets pool) := by
  constructor
  · intro addr c hconn
    simp [Node.start] at hconn
  · rintro i (hi | ⟨rest, hi⟩)
    · cases hi
    · cases hi
  · intro i req hreq
    simp [Node.start] at hreq
  · intro addr c sc hconn
    simp [Node.start] at hconn
  · intro i rest addr c sc hmem
    cases hmem

/-- **No mapping is lost when a peer joins.** In every run of a node, on every connection that is
registered and open and whose handler has sent its snapshot, all that has been broadcast has been
queued, but for what had gone from the pool when the handler looked at it. -/
theorem delivered_run (nodeUUID : UInt64) (nets : Subnets) (pool : IPPool) (es : List Event) :
    Delivered (Runs.run step (.start nodeUUID nets pool) es) := by
  have hrun : Inv (Runs.run step (.start nodeUUID nets pool) es) :=
    Runs.invariant (C := fun _ _ => True) (fun s e hs _ => hs.step e)
      (Inv.start nodeUUID nets pool) fun _ _ => trivial
  exact hrun.delivered

/-- A broadcast that is over before the connection is registered: the mapping reaches the queue with
the snapshot. -/
example :
    ((Runs.run step (.start 1 ⟨none, none⟩ (newIPPoolWithConfig [] [] ⟨1, 256⟩))
      [.query false ⟨false, false, [⟨[], 1, 60, .a [192, 0, 2, 1]⟩], [], []⟩ 0, .advance 0 0 0,
        .advance 0 0 0, .advance 0 0 0, .connect [1] [2] 2 false, .beginBroadcast 0,
        .endBroadcast 0,
        .register 0, .snapshot 0 [.v4 3323068417], .send 0, .send 0]).links[0]?.map fun sc =>
      (sc.closed, sc.queued.map Mapping.key)) =
      some (false, [(.v4 3323068417, .v4 3221225985, 1)]) := by
  decide +kernel

end NextPath.Sync.Join
