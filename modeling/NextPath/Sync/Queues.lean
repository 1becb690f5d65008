import NextPath.Sync.Delivery

/-!
# What a step puts in the queues

Whatever happens at a node, a connection keeps what is in its queue, and what is added comes from a
request that broadcasts or from the snapshot of the pool.

* `Evolves`: what a step may do to a connection;
* `links_step`: what it does to all of them;
* `core_step`: what it does to the rest of the node.
-/

namespace NextPath.Sync

open Net Pool

/-- The mappings that the handler of a connection has still to queue. -/
def SafeConn.toSend (sc : SafeConn) : List Mapping :=
  match sc.phase with
  | .sending rest => rest.flatten
  | _ => []

namespace Join

/-- What a step of the node may do to a connection: mappings are added at the end of the queue,
which come from a request, or from the pool by way of the snapshot. A connection that is closed
stays closed. -/
structure Evolves (s : Node) (sc sc' : SafeConn) : Prop where
  selfAddr : sc'.selfAddr = sc.selfAddr
  opened : sc'.closed = false → sc.closed = false
  queued : sc.queued <+: sc'.queued
  source : ∀ m, m ∈ sc'.queued ∨ m ∈ sc'.toSend →
    (m ∈ sc.queued ∨ m ∈ sc.toSend) ∨ (∃ i, m ∈ s.message i) ∨
      ∃ order, m ∈ getAllMappings s.proxy.pool order
  lost : ∀ x ∈ sc'.lost, x ∈ sc.lost ∨ x ∈ s.inserted ∧ Holds s.proxy.pool x = false

namespace Evolves

variable {s : Node} {sc : SafeConn}

theorem refl (s : Node) (sc : SafeConn) : Evolves s sc sc :=
  ⟨rfl, id, List.prefix_rfl, fun _ => .inl, fun _ => .inl⟩

/-- Neither the queue nor what is to be queued has grown. -/
theorem of_queued {sc' : SafeConn} (haddr : sc'.selfAddr = sc.selfAddr)
    (hopen : sc'.closed = false → sc.closed = false) (hqueued : sc'.queued = sc.queued)
    (hsend : sc'.toSend ⊆ sc.toSend) (hlost : sc'.lost = sc.lost) :
    Evolves s sc sc' := by
  refine ⟨haddr, hopen, hqueued ▸ List.prefix_rfl, fun m hm => .inl ?_,
    fun x hx => .inl (hlost ▸ hx)⟩
  rw [hqueued] at hm
  exact hm.imp_right (@hsend m)

theorem close : Evolves s sc sc.close := of_queued rfl nofun rfl (List.Subset.refl _) rfl

theorem write : Evolves s sc sc.write := of_queued rfl id rfl (List.Subset.refl _) rfl

/-- The handler gives up. -/
theorem stop : Evolves s sc { sc.close with phase := .stopped } :=
  of_queued rfl nofun rfl (List.nil_subset _) rfl

/-- The mappings that were in the queue are where they were. -/
theorem getElem?_queued {sc' : SafeConn} (h : Evolves s sc sc') {k : ℕ} {m : Mapping}
    (hm : sc.queued[k]? = some m) : sc'.queued[k]? = some m := by
  obtain ⟨added, hadded⟩ := h.queued
  rw [← hadded, List.getElem?_append_left (List.getElem?_eq_some_iff.1 hm).1, hm]

theorem push {mappings : List Mapping} (h : ∀ m ∈ mappings, ∃ i, m ∈ s.message i) :
    Evolves s sc (sc.push mappings) := by
  rw [SafeConn.push]
  split_ifs
  · exact refl s sc
  · refine ⟨rfl, id, List.prefix_append _ _, fun m hm => ?_, fun _ => .inl⟩
    rcases hm with hm | hm
    · exact (List.mem_append.1 hm).imp .inl fun hm => .inl (h m hm)
    · exact .inl (.inr hm)
  · exact close

/-- If a connection is closed after a message, the message is not in its queue. -/
theorem push_of_closed {mappings : List Mapping} (h : (sc.push mappings).closed = true) :
    (sc.push mappings).selfAddr = sc.selfAddr ∧ (sc.push mappings).queued = sc.queued ∧
      (sc.push mappings).lost = sc.lost := by
  rw [SafeConn.push] at h ⊢
  split_ifs at h ⊢ with hclosed
  · exact ⟨rfl, rfl, rfl⟩
  · exact absurd h hclosed
  · exact ⟨rfl, rfl, rfl⟩

theorem sendNext : Evolves s sc sc.sendNext := by
  rw [SafeConn.sendNext]
  split
  case h_1 => exact of_queued rfl id rfl (List.nil_subset _) rfl
  case h_2 batch rest hphase =>
    have hsend : sc.toSend = batch ++ rest.flatten := by
      simp only [SafeConn.toSend, hphase, List.flatten_cons]
    cases hclosed : (sc.push batch).closed with
    | true =>
      obtain ⟨haddr, hqueued, hlost⟩ := push_of_closed hclosed
      exact of_queued haddr (fun h => absurd hclosed (by simpa using h)) hqueued
        (List.nil_subset _) hlost
    | false =>
      obtain ⟨hopen, heq⟩ := push_of_open hclosed
      rw [heq]
      refine ⟨rfl, fun _ => hopen, List.prefix_append _ _, fun m hm => .inl ?_, fun _ => .inl⟩
      rw [hsend, List.mem_append]
      rcases hm with hm | hm
      · exact (List.mem_append.1 hm).imp_right .inl
      · exact .inr (.inr hm)
  case h_3 => exact refl s sc

end Evolves

/-- A connection that has queued nothing and has nothing to queue. -/
structure Blank (sc : SafeConn) : Prop where
  queued : sc.queued = []
  toSend : sc.toSend = []
  lost : sc.lost = []

/-- The connections after a step: the old ones have evolved, and the new ones are blank. -/
structure LinksStep (s : Node) (links : List SafeConn) : Prop where
  old : ∀ {c : ℕ} {sc : SafeConn}, s.links[c]? = some sc →
    ∃ sc', links[c]? = some sc' ∧ Evolves s sc sc'
  new : ∀ {c : ℕ} {sc : SafeConn}, s.links[c]? = none → links[c]? = some sc → Blank sc

namespace LinksStep

variable {s : Node}

theorem refl (s : Node) : LinksStep s s.links :=
  ⟨fun {_ sc} h => ⟨sc, h, .refl s sc⟩, fun h h' => by rw [h] at h'; cases h'⟩

theorem modify {f : SafeConn → SafeConn} (hf : ∀ sc, Evolves s sc (f sc)) (c : ℕ) :
    LinksStep s (s.links.modify c f) := by
  constructor
  · intro c' sc hsc
    rw [List.getElem?_modify, hsc]
    refine ⟨_, rfl, ?_⟩
    split_ifs
    · exact hf sc
    · exact .refl s sc
  · intro c' sc hnone hsc
    rw [List.getElem?_modify, hnone] at hsc
    cases hsc

/-- The connection enters the table, perhaps after another was closed. -/
theorem enter {links : List SafeConn} (h : LinksStep s links) {c : ℕ} {sc : SafeConn}
    (hc : s.links[c]? = some sc) :
    LinksStep s (links.set c { sc with phase := .registered }) := by
  obtain ⟨sc₀, hsc₀, -⟩ := h.old hc
  have hlt := (List.getElem?_eq_some_iff.1 hsc₀).1
  constructor
  · intro c' sc' hsc'
    by_cases hcc : c = c'
    · subst hcc
      obtain rfl : sc = sc' := Option.some.inj (hc.symm.trans hsc')
      exact ⟨_, List.getElem?_set_self hlt, .of_queued rfl id rfl (List.nil_subset _) rfl⟩
    · rw [List.getElem?_set_ne hcc]
      exact h.old hsc'
  · intro c' sc' hnone hsc'
    have hcc : c ≠ c' := by
      rintro rfl
      rw [hc] at hnone
      cases hnone
    rw [List.getElem?_set_ne hcc] at hsc'
    exact h.new hnone hsc'

theorem register (s : Node) (c : ℕ) : LinksStep s (s.register c).links := by
  rw [Node.register]
  cases hlink : s.links[c]? with
  | none => exact refl s
  | some sc =>
    dsimp only
    split
    · split
      · exact (refl s).enter hlink
      · split_ifs
        · exact (modify (fun _ => .close) _).enter hlink
        · exact modify (fun _ => .stop) c
    · exact refl s

theorem snapshot (s : Node) (c : ℕ) (order : List IPKey) :
    LinksStep s (s.snapshot c order).links := by
  refine modify (fun sc => ?_) c
  split
  · refine ⟨rfl, id, List.prefix_rfl, fun m hm => ?_, fun x hx => ?_⟩
    · rcases hm with hm | hm
      · exact .inl (.inl hm)
      · simp only [SafeConn.toSend, flatten_batches, List.nil_append] at hm
        exact .inr (.inr ⟨order, hm⟩)
    · obtain ⟨hin, hnot⟩ := List.mem_filter.1 hx
      exact .inr ⟨hin, by simpa using hnot⟩
  · exact .refl s sc

theorem forward (s : Node) (b : ℕ) (addr : Bytes) : LinksStep s (s.forward b addr).links := by
  rw [Node.forward]
  split
  · next i rest hb =>
    split
    · exact modify (fun _ => .push fun m hm => ⟨i, hm⟩) _
    · exact refl s
  · exact refl s

end LinksStep

/-- **What a step puts in the queues.** -/
theorem links_step (s : Node) (e : Event) : LinksStep s (step s e).links := by
  cases e with
  | connect selfAddr localCanonical peerUUID isOutgoing =>
    constructor
    · intro c sc hsc
      have hlt := (List.getElem?_eq_some_iff.1 hsc).1
      exact ⟨sc, (List.getElem?_append_left hlt).trans hsc, .refl s sc⟩
    · intro c sc hnone hsc
      simp only [step, List.getElem?_append] at hsc
      split_ifs at hsc
      · rw [hnone] at hsc
        cases hsc
      · rw [List.getElem?_singleton] at hsc
        split_ifs at hsc
        rw [← Option.some.inj hsc]
        exact ⟨rfl, rfl, rfl⟩
  | register c =>
    simp only [step]
    split_ifs
    · exact .register s c
    · exact .refl s
  | snapshot c order =>
    simp only [step]
    split_ifs
    · exact .snapshot s c order
    · exact .refl s
  | send c => exact .modify (fun _ => .sendNext) c
  | beginBroadcast i =>
    simp only [step, Node.beginBroadcast]
    split_ifs <;> exact .refl s
  | forward b addr => exact .forward s b addr
  | endBroadcast b =>
    simp only [step, Node.endBroadcast]
    split
    · split_ifs <;> exact .refl s
    · exact .refl s
  | message c => exact .modify (fun _ => .push (by simp)) c
  | write c => exact .modify (fun _ => .write) c
  | close c => exact .modify (fun _ => .close) c
  | leave c =>
    simp only [step, Node.leave]
    split_ifs
    · split
      · split_ifs <;> exact .refl s
      · exact .refl s
    · exact .refl s
  | _ => exact .refl s

/-! ## The rest of a node -/

/-- What an event inserts in the pool of its node. -/
def inserts (s : Node) : Event → List Insertion
  | .advance i t _ => (s.proxy.requests[i]?.bind fun req => insertion req s.proxy.pool t).toList
  | _ => []

/-- The pool and the requests after an event. -/
def proxyStep (s : Node) : Event → Proxy.State
  | .query enableIPv6 resp now =>
    Proxy.step s.proxy (.start (Proxy.collect enableIPv6 resp) now)
  | .advance i t k => Proxy.step s.proxy (.advance i t k)
  | .receive m t t' => { s.proxy with pool := (receive s.nets s.proxy.pool m t t').1 }
  | .prune now order => { s.proxy with pool := s.proxy.pool.pruneExpired now order }
  | _ => s.proxy

/-- What happens to the connections does not concern the pool and the requests. -/
theorem core_step (s : Node) (e : Event) :
    (step s e).proxy = proxyStep s e ∧
      (step s e).inserted = s.inserted ++ inserts s e ∧ (step s e).nets = s.nets := by
  cases e with
  | advance i t k => exact ⟨rfl, rfl, rfl⟩
  | register c =>
    simp only [step, inserts, proxyStep, List.append_nil, Node.register]
    repeat' split
    all_goals exact ⟨rfl, rfl, rfl⟩
  | leave c =>
    simp only [step, inserts, proxyStep, List.append_nil, Node.leave]
    repeat' split
    all_goals exact ⟨rfl, rfl, rfl⟩
  | snapshot c order =>
    simp only [step, inserts, proxyStep, List.append_nil]
    split <;> exact ⟨rfl, rfl, rfl⟩
  | beginBroadcast i =>
    simp only [step, inserts, proxyStep, List.append_nil, Node.beginBroadcast]
    repeat' split
    all_goals exact ⟨rfl, rfl, rfl⟩
  | forward b addr =>
    simp only [step, inserts, proxyStep, List.append_nil, Node.forward]
    repeat' split
    all_goals exact ⟨rfl, rfl, rfl⟩
  | endBroadcast b =>
    simp only [step, inserts, proxyStep, List.append_nil, Node.endBroadcast]
    repeat' split
    all_goals exact ⟨rfl, rfl, rfl⟩
  | _ => exact ⟨rfl, (List.append_nil _).symm, rfl⟩

end Join

end NextPath.Sync
