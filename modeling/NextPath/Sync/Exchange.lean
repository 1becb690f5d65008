import NextPath.Sync.PeerAddress
import NextPath.Sync.Queues

/-!
# Introductions

A node tells its peers of each other. When the handler of a connection has sent the mappings, it
reads the table of connections and tells its own peer of all the others, and then, with the read
lock held, tells all the others of its own peer. Connections are registered and removed by other
handlers in between, messages are lost with the connections whose queue is full, and the first of
the two passes leaves out the hosts that are the node itself.

Of two connections that are in the table together, the one that was registered later finds the other
in both passes, so it makes the introduction in both directions, whatever the other does.

* `step`: a node (`Join.Node`) with the exchange of addresses;
* `Meets`: how far the handler of a connection is in introducing its peer to another;
* `introduced`: of two connections that are open when both handlers have done their exchange, each
  peer has been told of the other.
-/

namespace NextPath.Sync.Exchange

open Net Pool Manager Runs

/-! ## The exchange -/

/-- How far the handler of a connection is. -/
inductive Stage
  /-- The connection has not been registered. -/
  | before
  /-- It is registered, and the mappings are sent. -/
  | ready
  /-- The own peer is told of the others. -/
  | telling (otherPeers : List Bytes)
  /-- The read lock is held, and those of the table have still to be told of the own peer. -/
  | announcing (rest : Map Bytes ℕ)
  | done

/-- A node, with the stage of the handler of every connection, the addresses of the node as the
handler has read them, and the messages with addresses that are in the queue. -/
structure State where
  node : Join.Node
  stage : ℕ → Stage
  localIPs : ℕ → List Bytes
  told : ℕ → List SyncMessage

def Stage.isAnnouncing : Stage → Bool
  | .announcing _ => true
  | _ => false

/-- Some handler holds the read lock of the table. -/
def State.locked (s : State) : Bool :=
  (List.range s.node.links.length).any fun c => (s.stage c).isAnnouncing

def State.setStage (s : State) (c : ℕ) (x : Stage) : State :=
  { s with stage := Function.update s.stage c x }

/-- `sendPexMessage`. -/
def State.sendPexMessage (s : State) (c : ℕ) (peerAddr : Bytes) : State :=
  match pexMessage peerAddr with
  | none => s
  | some msg =>
    { s with
      node := Join.step s.node (.message c)
      told :=
        if s.node.links[c]?.any fun sc => !(sc.push []).closed then
          Function.update s.told c (s.told c ++ [msg])
        else s.told }

/-- The peers that the handler of a connection tells its own peer of. -/
def otherPeers (selfAddr : Bytes) (localIPs order : List Bytes) : List Bytes :=
  order.filter fun addr =>
    addr ≠ selfAddr &&
      match splitHostPort addr with
      | .ok (host, _) => !isLocal localIPs host
      | .error _ => false

/-- The handler has registered the connection. -/
def entered (s s' : Join.Node) (c : ℕ) : Bool :=
  match s.links[c]?.map SafeConn.phase, s'.links[c]?.map SafeConn.phase with
  | some .handshake, some .registered => true
  | _, _ => false

inductive Event
  /-- A connection is made. Its address is known when the handshake has been read. -/
  | connect (remoteIP : IP) (port : UInt16) (localCanonical : Bytes) (peerUUID : UInt64)
    (isOutgoing : Bool)
  | register (c : ℕ)
  | leave (c : ℕ)
  /-- Anything else that can happen at a node. -/
  | other (e : Join.Event)
  /-- The handler reads its addresses and the table, in some order. -/
  | scan (c : ℕ) (localIPs order : List Bytes)
  | tell (c : ℕ)
  | beginAnnounce (c : ℕ)
  | announce (c : ℕ) (addr : Bytes)
  | endAnnounce (c : ℕ)

/-- The events of a node that have no event of their own here. -/
def isOther : Join.Event → Bool
  | .connect .. => false
  | .register _ => false
  | .leave _ => false
  | _ => true

/-- The mappings have been sent, or the connection was closed meanwhile. -/
def sentAll (sc : SafeConn) : Bool :=
  match sc.phase with
  | .sent => true
  | .stopped => true
  | _ => false

def step (s : State) : Event → State
  | .connect remoteIP port localCanonical peerUUID isOutgoing =>
    { s with
      node := Join.step s.node
        (.connect (peerAddress remoteIP port) localCanonical peerUUID isOutgoing) }
  | .register c =>
    if s.locked then s
    else
      let node := Join.step s.node (.register c)
      { s with
        node
        stage := if entered s.node node c then Function.update s.stage c .ready else s.stage }
  | .leave c => if s.locked then s else { s with node := Join.step s.node (.leave c) }
  | .other e => if isOther e then { s with node := Join.step s.node e } else s
  | .scan c localIPs order =>
    match s.node.links[c]?, s.stage c with
    | some sc, .ready =>
      if sentAll sc ∧ order.Nodup ∧ order.toFinset = s.node.conns.keys then
        { s.setStage c (.telling (otherPeers sc.selfAddr localIPs order)) with
          localIPs := Function.update s.localIPs c localIPs }
      else s
    | _, _ => s
  | .tell c =>
    match s.stage c with
    | .telling (addr :: rest) => (s.sendPexMessage c addr).setStage c (.telling rest)
    | _ => s
  | .beginAnnounce c =>
    match s.stage c with
    | .telling [] => s.setStage c (.announcing s.node.conns)
    | _ => s
  | .announce c addr =>
    match s.node.links[c]?, s.stage c with
    | some sc, .announcing rest =>
      match rest.lookup addr with
      | some d =>
        (if addr ≠ sc.selfAddr then s.sendPexMessage d sc.selfAddr else s).setStage c
          (.announcing (rest.erase addr))
      | none => s
    | _, _ => s
  | .endAnnounce c =>
    match s.stage c with
    | .announcing rest => if rest = ∅ then s.setStage c .done else s
    | _ => s

/-- A node that starts. -/
def start (nodeUUID : UInt64) (nets : Subnets) (pool : IPPool) : State :=
  ⟨.start nodeUUID nets pool, fun _ => .before, fun _ => [], fun _ => []⟩

/-! ## The table -/

/-- The section that registers a connection leaves the table alone, or enters the connection. -/
theorem register_cases (s : Join.Node) (c : ℕ) :
    (s.register c).conns = s.conns ∨ entered s (s.register c) c = true ∧
      ∃ sc, s.links[c]? = some sc ∧ (s.register c).conns = s.conns.insert sc.selfAddr c := by
  cases hlink : s.links[c]? with
  | none =>
    left
    simp only [Join.Node.register, hlink]
  | some sc =>
    have hlt := (List.getElem?_eq_some_iff.1 hlink).1
    -- Whatever was closed before, the connection is entered into the same table.
    have henter (hphase : sc.phase = .handshake) {node : Join.Node} (hconns : node.conns = s.conns)
        (hlength : node.links.length = s.links.length) (heq : s.register c = node.enter c sc) :
        entered s (s.register c) c = true ∧
          ∃ sc', some sc = some sc' ∧ (s.register c).conns = s.conns.insert sc'.selfAddr c := by
      refine ⟨?_, sc, rfl, ?_⟩
      · have hlink' : (node.enter c sc).links[c]? = some { sc with phase := .registered } :=
          List.getElem?_set_self (hlength ▸ hlt)
        rw [heq, entered, hlink, hlink', Option.map_some, Option.map_some, hphase]
      · rw [heq, Join.Node.enter, hconns]
    cases hphase : sc.phase with
    | handshake =>
      cases hold : (s.conns.lookup sc.selfAddr).bind
          fun old => (s.links[old]?).map fun sc' => (old, sc') with
      | none =>
        refine .inr (henter hphase rfl rfl ?_)
        simp only [Join.Node.register, hlink, hphase, hold]
      | some x =>
        rcases x with ⟨old, oldConn⟩
        by_cases hkeep : shouldKeepNewConnection s.nodeUUID oldConn sc sc.selfAddr = true
        · have heq : s.register c = (s.modifyConn old SafeConn.close).enter c sc := by
            simp only [Join.Node.register, hlink, hphase, hold, hkeep, if_true]
          have hconns : (s.modifyConn old SafeConn.close).conns = s.conns := rfl
          exact .inr (henter hphase hconns (List.length_modify ..) heq)
        · left
          simp only [Join.Node.register, hlink, hphase, hold, hkeep]
          rfl
    | _ =>
      left
      simp only [Join.Node.register, hlink, hphase]

/-- A connection enters the table only when its handler registers it. -/
theorem lookup_conns_step {s : Join.Node} {e : Join.Event} {addr : Bytes} {d : ℕ}
    (h : (Join.step s e).conns.lookup addr = some d) :
    s.conns.lookup addr = some d ∨
      e = .register d ∧ entered s (Join.step s e) d = true ∧
        ∃ sc, s.links[d]? = some sc ∧ sc.selfAddr = addr := by
  cases e with
  | register c =>
    simp only [Join.step] at h ⊢
    split_ifs at h ⊢
    · rcases register_cases s c with heq | ⟨hentered, sc, hsc, heq⟩
      · exact .inl (heq ▸ h)
      · rw [heq, Map.lookup_insert_ite] at h
        split_ifs at h with haddr
        · obtain rfl := Option.some.inj h
          exact .inr ⟨rfl, hentered, sc, hsc, haddr.symm⟩
        · exact .inl h
    · exact .inl h
  | leave c =>
    simp only [Join.step, Join.Node.leave] at h
    split_ifs at h
    · split at h
      · split_ifs at h
        · rw [Map.lookup_erase_ite] at h
          split_ifs at h
          exact .inl h
        · exact .inl h
      · exact .inl h
    · exact .inl h
  | forward b addr' =>
    simp only [Join.step, Join.Node.forward] at h
    split at h
    · split at h <;> exact .inl h
    · exact .inl h
  | snapshot c order =>
    simp only [Join.step] at h
    split_ifs at h <;> exact .inl h
  | beginBroadcast i =>
    simp only [Join.step, Join.Node.beginBroadcast] at h
    split_ifs at h <;> exact .inl h
  | endBroadcast b =>
    simp only [Join.step, Join.Node.endBroadcast] at h
    split at h
    · split_ifs at h <;> exact .inl h
    · exact .inl h
  | _ => exact .inl h

theorem length_register (s : Join.Node) (c : ℕ) :
    (s.register c).links.length = s.links.length := by
  unfold Join.Node.register
  split
  · rfl
  · split
    · split
      · simp only [Join.Node.enter, List.length_set]
      · split_ifs
        · simp only [Join.Node.enter, Join.Node.modifyConn, List.length_set, List.length_modify]
        · simp only [Join.Node.modifyConn, List.length_modify]
    · rfl

/-- Connections are made by `connect` only. -/
theorem length_links_step (s : Join.Node) {e : Join.Event}
    (he : ∀ selfAddr localCanonical peerUUID isOutgoing,
      e ≠ .connect selfAddr localCanonical peerUUID isOutgoing) :
    (Join.step s e).links.length = s.links.length := by
  cases e with
  | connect selfAddr localCanonical peerUUID isOutgoing => exact absurd rfl (he _ _ _ _)
  | register c =>
    simp only [Join.step]
    split_ifs
    · exact length_register s c
    · rfl
  | leave c =>
    simp only [Join.step, Join.Node.leave]
    split_ifs
    · split
      · split_ifs <;> rfl
      · rfl
    · rfl
  | snapshot c order =>
    simp only [Join.step]
    split_ifs
    · exact List.length_modify ..
    · rfl
  | beginBroadcast i =>
    simp only [Join.step, Join.Node.beginBroadcast]
    split_ifs <;> rfl
  | forward b addr =>
    simp only [Join.step, Join.Node.forward]
    split
    · split
      · exact List.length_modify ..
      · rfl
    · rfl
  | endBroadcast b =>
    simp only [Join.step, Join.Node.endBroadcast]
    split
    · split_ifs <;> rfl
    · rfl
  | send c => exact List.length_modify ..
  | message c => exact List.length_modify ..
  | write c => exact List.length_modify ..
  | close c => exact List.length_modify ..
  | _ => rfl

/-- The connection is in the table and open. -/
def Live (s : State) (addr : Bytes) (c : ℕ) : Prop :=
  s.node.conns.lookup addr = some c ∧ ∃ sc, s.node.links[c]? = some sc ∧ sc.closed = false

/-- The peer of the connection has been told of an address. -/
def Told (s : State) (c : ℕ) (addr : Bytes) : Prop := ∃ msg ∈ s.told c, pexMessage addr = some msg

/-- The host of the address is the node itself, as the handler sees it. -/
def IsLocal (s : State) (c : ℕ) (addr : Bytes) : Prop :=
  ∃ host port, splitHostPort addr = .ok (host, port) ∧ isLocal (s.localIPs c) host = true

/-- How far the handler of the connection `b` is in introducing its peer and the peer of `a` to each
other. -/
def Meets (s : State) (a : ℕ) (addrA : Bytes) (b : ℕ) (addrB : Bytes) : Prop :=
  match s.stage b with
  | .before => False
  | .ready => True
  | .telling otherPeers => addrA ∈ otherPeers ∨ Told s b addrA ∨ IsLocal s b addrA
  | .announcing rest =>
    (Told s b addrA ∨ IsLocal s b addrA) ∧ (rest.lookup addrA = some a ∨ Told s a addrB)
  | .done => (Told s b addrA ∨ IsLocal s b addrA) ∧ Told s a addrB

section

variable {s : State} {a b : ℕ} {addrA addrB : Bytes}

theorem meets_of_telling {otherPeers : List Bytes} (h : s.stage b = .telling otherPeers) :
    Meets s a addrA b addrB ↔ addrA ∈ otherPeers ∨ Told s b addrA ∨ IsLocal s b addrA := by
  rw [Meets, h]

theorem meets_of_announcing {rest : Map Bytes ℕ} (h : s.stage b = .announcing rest) :
    Meets s a addrA b addrB ↔
      (Told s b addrA ∨ IsLocal s b addrA) ∧ (rest.lookup addrA = some a ∨ Told s a addrB) := by
  rw [Meets, h]

theorem meets_of_done (h : s.stage b = .done) :
    Meets s a addrA b addrB ↔ (Told s b addrA ∨ IsLocal s b addrA) ∧ Told s a addrB := by
  rw [Meets, h]

end

/-- Of two open connections of the table one introduces their peers. -/
structure Inv (s : State) : Prop where
  table : ∀ {addr : Bytes} {c : ℕ}, s.node.conns.lookup addr = some c →
    ∃ sc, s.node.links[c]? = some sc ∧ sc.selfAddr = addr
  addressed : ∀ {c : ℕ} {sc : SafeConn}, s.node.links[c]? = some sc →
    ∃ ip port, ip.WellFormed ∧ sc.selfAddr = peerAddress ip port
  meets : ∀ {addrA addrB : Bytes} {a b : ℕ}, Live s addrA a → Live s addrB b → addrA ≠ addrB →
    Meets s a addrA b addrB ∨ Meets s b addrB a addrA

/-! ## Steps that keep the introductions -/

/-- The messages with addresses stay in the queues. -/
theorem Told.mono {s s' : State} {c : ℕ} (h : s.told c ⊆ s'.told c) {addr : Bytes}
    (ht : Told s c addr) : Told s' c addr := by
  obtain ⟨msg, hmsg, haddr⟩ := ht
  exact ⟨msg, h hmsg, haddr⟩

theorem Meets.mono {s s' : State} {a b : ℕ} (hstage : s'.stage b = s.stage b)
    (hlocal : s'.localIPs b = s.localIPs b) (htold : ∀ c, s.told c ⊆ s'.told c)
    {addrA addrB : Bytes} (h : Meets s a addrA b addrB) : Meets s' a addrA b addrB := by
  have hknown : Told s b addrA ∨ IsLocal s b addrA → Told s' b addrA ∨ IsLocal s' b addrA :=
    Or.imp (Told.mono (htold b)) (by rw [IsLocal, IsLocal, hlocal]; exact id)
  cases hs : s.stage b with
  | before =>
    rw [Meets, hs] at h
    exact h.elim
  | ready =>
    rw [Meets, hstage, hs]
    trivial
  | telling otherPeers =>
    rw [meets_of_telling (hstage.trans hs)]
    exact ((meets_of_telling hs).1 h).imp_right hknown
  | announcing rest =>
    rw [meets_of_announcing (hstage.trans hs)]
    exact ((meets_of_announcing hs).1 h).imp hknown (Or.imp_right (Told.mono (htold a)))
  | done =>
    rw [meets_of_done (hstage.trans hs)]
    exact ((meets_of_done hs).1 h).imp hknown (Told.mono (htold a))

namespace Inv

variable {s s' : State}

/-- A connection of the table that is open was open before. -/
theorem live (h : Inv s) (hlinks : Join.LinksStep s.node s'.node.links) {addr : Bytes} {c : ℕ}
    (hconn : s.node.conns.lookup addr = some c) (hlive : Live s' addr c) : Live s addr c := by
  obtain ⟨-, sc', hsc', hopen⟩ := hlive
  obtain ⟨sc, hsc, -⟩ := h.table hconn
  obtain ⟨sc'', hsc'', hevolves⟩ := hlinks.old hsc
  obtain rfl := Option.some.inj (hsc'.symm.trans hsc'')
  exact ⟨hconn, sc, hsc, hevolves.opened hopen⟩

/-- The connections keep their addresses. -/
theorem addressed_of_links (h : Inv s) {links : List SafeConn}
    (hlinks : Join.LinksStep s.node links) (hnew : links.length = s.node.links.length) {c : ℕ}
    {sc' : SafeConn} (hsc' : links[c]? = some sc') :
    ∃ ip port, ip.WellFormed ∧ sc'.selfAddr = peerAddress ip port := by
  have hlt : c < s.node.links.length := hnew ▸ (List.getElem?_eq_some_iff.1 hsc').1
  have hsc : s.node.links[c]? = some s.node.links[c] := List.getElem?_eq_getElem hlt
  obtain ⟨sc'', hsc'', hevolves⟩ := hlinks.old hsc
  obtain rfl := Option.some.inj (hsc'.symm.trans hsc'')
  rw [hevolves.selfAddr]
  exact h.addressed hsc

/-- A step that enters no connection. -/
theorem of_table (h : Inv s) (hconns : ∀ {addr : Bytes} {c : ℕ},
      s'.node.conns.lookup addr = some c → s.node.conns.lookup addr = some c)
    (hlinks : Join.LinksStep s.node s'.node.links)
    (hnew : s'.node.links.length = s.node.links.length)
    (hmeets : ∀ {addrA addrB : Bytes} {a b : ℕ}, Live s' addrA a → Live s' addrB b →
      addrA ≠ addrB → Meets s a addrA b addrB → Meets s' a addrA b addrB) : Inv s' where
  table {addr c} hconn := by
    obtain ⟨sc, hsc, haddr⟩ := h.table (hconns hconn)
    obtain ⟨sc', hsc', hevolves⟩ := hlinks.old hsc
    exact ⟨sc', hsc', hevolves.selfAddr.trans haddr⟩
  addressed := h.addressed_of_links hlinks hnew
  meets {addrA addrB a b} hA hB hne :=
    (h.meets (h.live hlinks (hconns hA.1) hA) (h.live hlinks (hconns hB.1) hB) hne).imp
      (hmeets hA hB hne) (hmeets hB hA hne.symm)

/-- What else happens at the node. -/
theorem node (h : Inv s) {e : Join.Event} (hregister : ∀ c, e ≠ .register c)
    (hconnect : ∀ selfAddr localCanonical peerUUID isOutgoing,
      e ≠ .connect selfAddr localCanonical peerUUID isOutgoing) :
    Inv { s with node := Join.step s.node e } := by
  refine h.of_table (fun {addr c} hconn => ?_) (Join.links_step s.node e)
    (length_links_step s.node hconnect) fun _ _ _ hm => hm.mono rfl rfl fun _ => List.Subset.refl _
  rcases lookup_conns_step hconn with hconn | ⟨he, -⟩
  · exact hconn
  · exact absurd he (hregister c)

theorem connect (h : Inv s) {remoteIP : IP} (hip : remoteIP.WellFormed) (port : UInt16)
    (localCanonical : Bytes) (peerUUID : UInt64) (isOutgoing : Bool) :
    Inv (step s (.connect remoteIP port localCanonical peerUUID isOutgoing)) := by
  have hold {addr : Bytes} {c : ℕ} {sc : SafeConn} (hconn : s.node.conns.lookup addr = some c)
      (hsc : (step s (.connect remoteIP port localCanonical peerUUID isOutgoing)).node.links[c]? =
        some sc) : s.node.links[c]? = some sc := by
    obtain ⟨sc', hsc', -⟩ := h.table hconn
    simp only [step, Join.step, List.getElem?_append_left (List.getElem?_eq_some_iff.1 hsc').1]
      at hsc
    exact hsc
  constructor
  · intro addr c hconn
    obtain ⟨sc, hsc, haddr⟩ := h.table hconn
    refine ⟨sc, ?_, haddr⟩
    simp only [step, Join.step, List.getElem?_append_left (List.getElem?_eq_some_iff.1 hsc).1]
    exact hsc
  · intro c sc hsc
    simp only [step, Join.step, List.getElem?_append] at hsc
    split_ifs at hsc
    · exact h.addressed hsc
    · rw [List.getElem?_singleton] at hsc
      split_ifs at hsc
      rw [← Option.some.inj hsc]
      exact ⟨remoteIP, port, hip, rfl⟩
  · rintro addrA addrB a b ⟨hA, scA, hscA, hopenA⟩ ⟨hB, scB, hscB, hopenB⟩ hne
    refine (h.meets ⟨hA, scA, hold hA hscA, hopenA⟩ ⟨hB, scB, hold hB hscB, hopenB⟩ hne).imp ?_ ?_
    · exact fun hm => hm.mono rfl rfl fun _ => List.Subset.refl _
    · exact fun hm => hm.mono rfl rfl fun _ => List.Subset.refl _

/-- **A connection that is registered has everything before it**: its handler will meet those that
are in the table. -/
theorem register (h : Inv s) (c : ℕ) : Inv (step s (.register c)) := by
  by_cases hlock : s.locked = true
  · simp only [step, hlock, if_true]
    exact h
  simp only [step, hlock, if_false, Bool.false_eq_true]
  have hlinks := Join.links_step s.node (.register c)
  constructor
  · intro addr d hconn
    have hsc : ∃ sc, s.node.links[d]? = some sc ∧ sc.selfAddr = addr := by
      rcases lookup_conns_step hconn with hconn | ⟨-, -, hsc⟩
      · exact h.table hconn
      · exact hsc
    obtain ⟨sc, hsc, haddr⟩ := hsc
    obtain ⟨sc', hsc', hevolves⟩ := hlinks.old hsc
    exact ⟨sc', hsc', hevolves.selfAddr.trans haddr⟩
  · exact h.addressed_of_links hlinks (length_links_step s.node nofun)
  · intro addrA addrB a b hA hB hne
    by_cases hentered : entered s.node (Join.step s.node (.register c)) c = true
    · rw [if_pos hentered] at hA hB ⊢
      by_cases hb : b = c
      · left
        simp only [Meets, hb, Function.update_self]
      by_cases ha : a = c
      · right
        simp only [Meets, ha, Function.update_self]
      have hA' := (lookup_conns_step hA.1).resolve_right fun e =>
        ha (Join.Event.register.inj e.1).symm
      have hB' := (lookup_conns_step hB.1).resolve_right fun e =>
        hb (Join.Event.register.inj e.1).symm
      have hstage {d : ℕ} (hd : d ≠ c) : Function.update s.stage c .ready d = s.stage d :=
        Function.update_of_ne hd ..
      refine (h.meets (h.live hlinks hA' hA) (h.live hlinks hB' hB) hne).imp ?_ ?_
      · intro hm
        apply hm.mono
        exacts [hstage hb, rfl, fun _ => List.Subset.refl _]
      · intro hm
        apply hm.mono
        exacts [hstage ha, rfl, fun _ => List.Subset.refl _]
    · rw [if_neg hentered] at hA hB ⊢
      have hold {addr : Bytes} {d : ℕ}
          (hd : (Join.step s.node (.register c)).conns.lookup addr = some d) :
          s.node.conns.lookup addr = some d := by
        rcases lookup_conns_step hd with hd | ⟨he, hentered', -⟩
        · exact hd
        · rw [← Join.Event.register.inj he] at hentered'
          exact absurd hentered' hentered
      exact (h.meets (h.live hlinks (hold hA.1) hA) (h.live hlinks (hold hB.1) hB) hne).imp
        (fun hm => hm.mono rfl rfl fun _ => List.Subset.refl _)
        fun hm => hm.mono rfl rfl fun _ => List.Subset.refl _

end Inv

/-! ## Steps of the exchange -/

theorem told_subset_sendPexMessage (s : State) (d : ℕ) (peerAddr : Bytes) (c : ℕ) :
    s.told c ⊆ (s.sendPexMessage d peerAddr).told c := by
  unfold State.sendPexMessage
  split
  · exact List.Subset.refl _
  · dsimp only
    split_ifs
    · by_cases hcd : c = d
      · subst hcd
        rw [Function.update_self]
        exact List.subset_append_left _ _
      · rw [Function.update_of_ne hcd]
        exact List.Subset.refl _
    · exact List.Subset.refl _

/-- A message for a connection that stays open is in its queue. -/
theorem told_sendPexMessage {s : State} {d : ℕ} {ip : IP} (hip : ip.WellFormed) {port : UInt16}
    {sc : SafeConn}
    (hsc : (s.sendPexMessage d (peerAddress ip port)).node.links[d]? = some sc)
    (hopen : sc.closed = false) :
    Told (s.sendPexMessage d (peerAddress ip port)) d (peerAddress ip port) := by
  obtain ⟨msg, hmsg, -⟩ := dispatch_pexMessage hip port
  refine ⟨msg, ?_, hmsg⟩
  unfold State.sendPexMessage at hsc ⊢
  rw [hmsg] at hsc ⊢
  simp only [Join.step, Join.Node.modifyConn, List.getElem?_modify, if_true] at hsc ⊢
  obtain ⟨sc₀, hsc₀, rfl⟩ := Option.map_eq_some_iff.1 hsc
  rw [hsc₀, if_pos (by simp [hopen]), Function.update_self]
  exact List.mem_append_right _ List.mem_cons_self

@[simp] theorem stage_sendPexMessage (s : State) (d : ℕ) (peerAddr : Bytes) :
    (s.sendPexMessage d peerAddr).stage = s.stage := by
  unfold State.sendPexMessage
  split <;> rfl

@[simp] theorem localIPs_sendPexMessage (s : State) (d : ℕ) (peerAddr : Bytes) :
    (s.sendPexMessage d peerAddr).localIPs = s.localIPs := by
  unfold State.sendPexMessage
  split <;> rfl

@[simp] theorem conns_sendPexMessage (s : State) (d : ℕ) (peerAddr : Bytes) :
    (s.sendPexMessage d peerAddr).node.conns = s.node.conns := by
  unfold State.sendPexMessage
  split <;> rfl

theorem node_sendPexMessage (s : State) (d : ℕ) (peerAddr : Bytes) :
    (s.sendPexMessage d peerAddr).node = s.node ∨
      (s.sendPexMessage d peerAddr).node = Join.step s.node (.message d) := by
  unfold State.sendPexMessage
  split
  · exact .inl rfl
  · exact .inr rfl

namespace Inv

variable {s s' : State}

/-- A step of the exchange, by the handler of the connection `c`. -/
theorem of_own (h : Inv s) (c : ℕ)
    (hnode : s'.node = s.node ∨ ∃ d, s'.node = Join.step s.node (.message d))
    (hstage : ∀ b ≠ c, s'.stage b = s.stage b) (hlocal : ∀ b ≠ c, s'.localIPs b = s.localIPs b)
    (htold : ∀ b, s.told b ⊆ s'.told b)
    (hmeets : ∀ {addrA addrB : Bytes} {a : ℕ}, Live s' addrA a → Live s' addrB c →
      addrA ≠ addrB → Meets s a addrA c addrB → Meets s' a addrA c addrB) : Inv s' := by
  have hconns : s'.node.conns = s.node.conns := by
    rcases hnode with e | ⟨d, e⟩ <;> rw [e]
    rfl
  have hlinks : Join.LinksStep s.node s'.node.links := by
    rcases hnode with e | ⟨d, e⟩ <;> rw [e]
    · exact .refl s.node
    · exact Join.links_step s.node (.message d)
  have hlength : s'.node.links.length = s.node.links.length := by
    rcases hnode with e | ⟨d, e⟩ <;> rw [e]
    exact length_links_step s.node nofun
  refine h.of_table (fun hconn => hconns ▸ hconn) hlinks hlength ?_
  intro addrA addrB a b hA hB hne hm
  by_cases hb : b = c
  · subst hb
    exact hmeets hA hB hne hm
  · exact hm.mono (hstage b hb) (hlocal b hb) htold

/-- The key of a connection of the table can be taken apart, and told. -/
theorem exists_peerAddress (h : Inv s) {addr : Bytes} {c : ℕ}
    (hconn : s.node.conns.lookup addr = some c) :
    ∃ ip port, ip.WellFormed ∧ addr = peerAddress ip port := by
  obtain ⟨sc, hsc, rfl⟩ := h.table hconn
  exact h.addressed hsc

/-- The handler meets everyone in the table. -/
theorem scan (h : Inv s) (c : ℕ) (localIPs order : List Bytes) :
    Inv (step s (.scan c localIPs order)) := by
  simp only [step]
  split
  case h_1 sc hsc hready =>
    split_ifs with horder
    · refine h.of_own c (.inl rfl) (fun b hb => Function.update_of_ne hb ..)
        (fun b hb => Function.update_of_ne hb ..) (fun _ => List.Subset.refl _) ?_
      intro addrA addrB a hA hB hne _
      obtain ⟨ip, port, hip, haddr⟩ := h.exists_peerAddress hA.1
      have hsplit := splitHostPort_string hip port
      have hself : addrA ≠ sc.selfAddr := by
        obtain ⟨sc', hsc', rfl⟩ := h.table hB.1
        rwa [← Option.some.inj (hsc.symm.trans hsc')] at hne
      have hmem : addrA ∈ order := by
        rw [← List.mem_toFinset, horder.2.2, Finmap.mem_keys]
        exact Finmap.mem_of_lookup_eq_some hA.1
      refine (meets_of_telling (Function.update_self ..)).2 ?_
      cases hlocal : isLocal localIPs ip.string with
      | true =>
        refine .inr (.inr ⟨ip.string, _, haddr ▸ hsplit, ?_⟩)
        simpa using hlocal
      | false =>
        refine .inl (List.mem_filter.2 ⟨hmem, ?_⟩)
        rw [haddr] at hself ⊢
        simp [hself, hsplit, hlocal]
    · exact h
  case h_2 => exact h

theorem tell (h : Inv s) (c : ℕ) : Inv (step s (.tell c)) := by
  simp only [step]
  split
  case h_1 addr rest hstage =>
    refine h.of_own c ?_ (fun b hb => ?_) (fun b hb => ?_) (fun b => ?_) ?_
    · exact (node_sendPexMessage s c addr).imp_right fun e => ⟨c, e⟩
    · simp [State.setStage, hb]
    · simp [State.setStage]
    · exact told_subset_sendPexMessage s c addr b
    intro addrA addrB a hA hB hne hm
    refine (meets_of_telling (Function.update_self ..)).2 ?_
    rcases (meets_of_telling hstage).1 hm with hmem | htold | hlocal
    · rcases List.mem_cons.1 hmem with rfl | hmem
      · -- The connection is open after the message, so the message is in its queue.
        obtain ⟨ip, port, hip, rfl⟩ := h.exists_peerAddress (conns_sendPexMessage s c addrA ▸ hA.1)
        obtain ⟨-, sc, hsc, hopen⟩ := hB
        exact .inr (.inl (told_sendPexMessage hip hsc hopen))
      · exact .inl hmem
    · exact .inr (.inl (htold.mono (told_subset_sendPexMessage s c addr c)))
    · exact .inr (.inr (by simpa [IsLocal, State.setStage] using hlocal))
  case h_2 => exact h

theorem beginAnnounce (h : Inv s) (c : ℕ) : Inv (step s (.beginAnnounce c)) := by
  simp only [step]
  split
  case h_1 hstage =>
    refine h.of_own c (.inl rfl) (fun b hb => Function.update_of_ne hb ..) (fun _ _ => rfl)
      (fun _ => List.Subset.refl _) ?_
    intro addrA addrB a hA hB hne hm
    refine (meets_of_announcing (Function.update_self ..)).2 ⟨?_, .inl hA.1⟩
    exact ((meets_of_telling hstage).1 hm).resolve_left List.not_mem_nil
  case h_2 => exact h

theorem announce (h : Inv s) (c : ℕ) (addr : Bytes) : Inv (step s (.announce c addr)) := by
  simp only [step]
  split
  case h_1 sc rest hsc hstage =>
    split
    case h_1 d hd =>
      -- The handler tells another peer of its own, unless it has come upon itself.
      have hself {addrB : Bytes} (hB : s.node.conns.lookup addrB = some c) :
          sc.selfAddr = addrB := by
        obtain ⟨sc', hsc', haddr⟩ := h.table hB
        rwa [← Option.some.inj (hsc.symm.trans hsc')] at haddr
      split_ifs with haddr
      · refine h.of_own c ?_ (fun b hb => ?_) (fun b hb => ?_) (fun b => ?_) ?_
        · exact (node_sendPexMessage s d sc.selfAddr).imp_right fun e => ⟨d, e⟩
        · simp [State.setStage, hb]
        · simp [State.setStage]
        · exact told_subset_sendPexMessage s d sc.selfAddr b
        intro addrA addrB a hA hB hne hm
        obtain ⟨hknown, htold⟩ := (meets_of_announcing hstage).1 hm
        have hmono (b : ℕ) := told_subset_sendPexMessage s d sc.selfAddr b
        have hB' : s.node.conns.lookup addrB = some c :=
          conns_sendPexMessage s d sc.selfAddr ▸ hB.1
        refine (meets_of_announcing (Function.update_self ..)).2 ⟨?_, ?_⟩
        · exact hknown.imp (Told.mono (hmono c)) (by simp [IsLocal, State.setStage])
        rcases htold with hrest | htold
        · rw [Map.lookup_erase_ite]
          split_ifs with hAa
          · -- The connection is open after the message, so the message is in its queue.
            obtain rfl : d = a := Option.some.inj (hd.symm.trans (hAa ▸ hrest))
            obtain ⟨ip, port, hip, hpeer⟩ := h.exists_peerAddress hB'
            obtain ⟨-, scA, hscA, hopen⟩ := hA
            right
            rw [← hself hB'] at hpeer ⊢
            rw [hpeer] at hscA ⊢
            exact told_sendPexMessage hip hscA hopen
          · exact .inl hrest
        · exact .inr (htold.mono (hmono a))
      · refine h.of_own c (.inl rfl) (fun b hb => Function.update_of_ne hb ..) (fun _ _ => rfl)
          (fun _ => List.Subset.refl _) ?_
        intro addrA addrB a hA hB hne hm
        obtain ⟨hknown, htold⟩ := (meets_of_announcing hstage).1 hm
        refine (meets_of_announcing (Function.update_self ..)).2 ⟨hknown, htold.imp_left ?_⟩
        intro hrest
        rw [Map.lookup_erase_ite, if_neg]
        · exact hrest
        · rw [not_ne_iff.1 haddr, hself hB.1]
          exact hne
    case h_2 => exact h
  case h_2 => exact h

theorem endAnnounce (h : Inv s) (c : ℕ) : Inv (step s (.endAnnounce c)) := by
  simp only [step]
  split
  case h_1 rest hstage =>
    split_ifs with hrest
    · refine h.of_own c (.inl rfl) (fun b hb => Function.update_of_ne hb ..) (fun _ _ => rfl)
        (fun _ => List.Subset.refl _) ?_
      intro addrA addrB a hA hB hne hm
      obtain ⟨hknown, htold⟩ := (meets_of_announcing hstage).1 hm
      refine (meets_of_done (Function.update_self ..)).2 ⟨hknown, htold.resolve_left ?_⟩
      rw [hrest, Finmap.lookup_empty]
      exact nofun
    · exact h
  case h_2 => exact h

end Inv

/-! ## Introductions -/

/-- The remote side of a new connection has an address. -/
def WellAddressed : Event → Prop
  | .connect remoteIP .. => remoteIP.WellFormed
  | _ => True

instance (e : Event) : Decidable (WellAddressed e) :=
  match e with
  | .connect remoteIP .. => inferInstanceAs (Decidable remoteIP.WellFormed)
  | .register _ | .leave _ | .other _ | .scan .. | .tell _ | .beginAnnounce _ | .announce ..
  | .endAnnounce _ => inferInstanceAs (Decidable True)

theorem Inv.start (nodeUUID : UInt64) (nets : Subnets) (pool : IPPool) :
    Inv (start nodeUUID nets pool) where
  table h := by cases h
  addressed h := by cases h
  meets hA := by cases hA.1

/-- **Whatever happens at the node, the introductions go on.** -/
theorem Inv.step {s : State} (h : Inv s) {e : Event} (he : WellAddressed e) :
    Inv (step s e) := by
  cases e with
  | connect remoteIP port localCanonical peerUUID isOutgoing => exact h.connect he ..
  | register c => exact h.register c
  | leave c =>
    simp only [Exchange.step]
    split_ifs
    · exact h
    · exact h.node nofun nofun
  | other e =>
    simp only [Exchange.step]
    split_ifs with hother
    · refine h.node ?_ ?_
      · rintro c rfl
        cases hother
      · rintro selfAddr localCanonical peerUUID isOutgoing rfl
        cases hother
    · exact h
  | scan c localIPs order => exact h.scan c localIPs order
  | tell c => exact h.tell c
  | beginAnnounce c => exact h.beginAnnounce c
  | announce c addr => exact h.announce c addr
  | endAnnounce c => exact h.endAnnounce c

/-- The queue has a message that makes the peer dial the address, unless it is one that is not
dialled. -/
def Introduced (s : State) (c : ℕ) (ip : IP) (port : UInt16) : Prop :=
  ∃ msg ∈ s.told c, Handler.dispatch msg =
    if barred ip port then .running else .pex ip.string (peerAddress ip port)

theorem Told.introduces {s : State} {c : ℕ} {ip : IP} {port : UInt16} (hip : ip.WellFormed)
    (h : Told s c (peerAddress ip port)) : Introduced s c ip port := by
  obtain ⟨msg, hmem, hmsg⟩ := h
  obtain ⟨msg', hmsg', hdispatch⟩ := dispatch_pexMessage hip port
  obtain rfl := Option.some.inj (hmsg.symm.trans hmsg')
  exact ⟨msg, hmem, hdispatch⟩

/-- **A node introduces its peers to each other.** Take any run of a node, and two connections of
its table, with different peers, that are open when both handlers have done their exchange. One of
the peers has been told of the other in any case, and each has been told of the other unless the
handler of its connection takes the host of the other for the node itself. -/
theorem introduced (nodeUUID : UInt64) (nets : Subnets) (pool : IPPool) {es : List Event}
    (hes : ∀ e ∈ es, WellAddressed e) {a b : ℕ} {ipA ipB : IP} {portA portB : UInt16}
    (hipA : ipA.WellFormed) (hipB : ipB.WellFormed)
    (hA : Live (run step (start nodeUUID nets pool) es) (peerAddress ipA portA) a)
    (hB : Live (run step (start nodeUUID nets pool) es) (peerAddress ipB portB) b)
    (hne : peerAddress ipA portA ≠ peerAddress ipB portB)
    (hdoneA : (run step (start nodeUUID nets pool) es).stage a = .done)
    (hdoneB : (run step (start nodeUUID nets pool) es).stage b = .done) :
    let s := run step (start nodeUUID nets pool) es
    (Introduced s a ipB portB ∨ Introduced s b ipA portA) ∧
      (isLocal (s.localIPs a) ipB.string = false → Introduced s a ipB portB) ∧
      (isLocal (s.localIPs b) ipA.string = false → Introduced s b ipA portA) := by
  intro s
  have hinv : Inv s := invariant (C := fun _ e => WellAddressed e) (fun _ _ h he => h.step he)
    (Inv.start nodeUUID nets pool) fun x hx => hes x.2 (mem_of_mem_trace hx)
  -- What the handler of one connection has done for itself and another.
  have hdone {c : ℕ} {ip : IP} {port : UInt16} (hip : ip.WellFormed)
      (h : Told s c (peerAddress ip port) ∨ IsLocal s c (peerAddress ip port))
      (hlocal : isLocal (s.localIPs c) ip.string = false) : Introduced s c ip port := by
    refine (h.resolve_right ?_).introduces hip
    rintro ⟨host, port', hsplit, hhost⟩
    rw [splitHostPort_string hip port] at hsplit
    obtain ⟨rfl, -⟩ := Prod.mk.inj (Except.ok.inj hsplit)
    rw [hlocal] at hhost
    cases hhost
  rcases hinv.meets hA hB hne with hm | hm
  · obtain ⟨hown, hother⟩ := (meets_of_done hdoneB).1 hm
    exact ⟨.inl (hother.introduces hipB), fun _ => hother.introduces hipB, hdone hipA hown⟩
  · obtain ⟨hown, hother⟩ := (meets_of_done hdoneA).1 hm
    exact ⟨.inr (hother.introduces hipA), hdone hipB hown, fun _ => hother.introduces hipA⟩

/-- The peer 192.0.2.1 is connected when 192.0.2.2 calls. -/
def lateCall : List Event :=
  let addrA := peerAddress [192, 0, 2, 1] 8443
  let addrB := peerAddress [192, 0, 2, 2] 8443
  [.connect [192, 0, 2, 1] 8443 [] 1 true, .register 0, .other (.snapshot 0 []), .other (.send 0),
    .scan 0 [] [addrA], .connect [192, 0, 2, 2] 8443 [] 2 false, .beginAnnounce 0,
    .announce 0 addrA, .endAnnounce 0, .register 1, .other (.snapshot 1 []), .other (.send 1),
    .scan 1 [] [addrB, addrA], .tell 1, .beginAnnounce 1, .announce 1 addrA, .announce 1 addrB,
    .endAnnounce 1]

theorem introduced_lateCall :
    let s := run step (start 7 (.ofPool (newIPPoolWithConfig [] [] ⟨4, 4⟩).toPoolRange)
      (newIPPoolWithConfig [] [] ⟨4, 4⟩)) lateCall
    Introduced s 0 [192, 0, 2, 2] 8443 ∧ Introduced s 1 [192, 0, 2, 1] 8443 := by
  intro s
  have hA : Live s (peerAddress [192, 0, 2, 1] 8443) 0 := ⟨by decide +kernel, _, rfl, rfl⟩
  have hB : Live s (peerAddress [192, 0, 2, 2] 8443) 1 := ⟨by decide +kernel, _, rfl, rfl⟩
  have h := introduced 7 _ _ (by decide) (.inl rfl) (.inl rfl) hA hB (by decide +kernel) rfl rfl
  exact ⟨h.2.1 rfl, h.2.2 rfl⟩

end NextPath.Sync.Exchange
