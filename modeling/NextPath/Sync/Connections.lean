import NextPath.Sync.Insertions

/-!
# Connections and broadcasts

A node and its connections to peers, as far as the mappings it sends are concerned. Three things
happen independently: requests allocate mappings in the pool, and the goroutine that an answered
request leaves behind broadcasts them; a connection is registered, and its handler then takes all
the mappings of the pool and queues them in batches; and queues are drained, connections are closed
and replaced.

* A message is queued by a `select` that closes the connection when the queue is full (`push`).
  Whether the connection is closed is read just before; what is queued after a close in between is
  of no consequence, so the two are one step.
* `BroadcastMappings` holds the read lock of the table of connections while it serves them one by
  one, so connections are registered and removed only while no broadcast is going on.

Three fields are there for the statements only: `inserted` is what the requests of the node have put
in the pool so far, `queued` what has been put in the queue of a connection, and `lost` what had
been inserted but was no longer in the pool when the handler of the connection took its snapshot.
-/

namespace NextPath.Sync

open Net Pool

/-! ## Mappings as they are sent -/

/-- The pool has the pair, with the version. -/
def Holds (p : IPPool) (x : Insertion) : Bool :=
  p.realOf x.1 = some x.2.1 ∧ (p.versionOf x.1).getD 0 = x.2.2

/-- `GetAllMappings`. Go ranges over the fakes in no fixed order, which is an argument. -/
def getAllMappings (p : IPPool) (order : List IPKey) : List Mapping :=
  order.filterMap fun fakeKey =>
    (p.realOf fakeKey).map fun realKey =>
      ⟨fakeKey.toIP, realKey.toIP, (p.versionOf fakeKey).getD 0⟩

/-- An order in which the fakes of the pool can be met. -/
def Enumerates (p : IPPool) (order : List IPKey) : Prop :=
  order.Nodup ∧ order.toFinset = p.globalFakeToReal.keys

instance (p : IPPool) (order : List IPKey) : Decidable (Enumerates p order) :=
  inferInstanceAs (Decidable (_ ∧ _))

/-- The messages of `sendAllMappingsToConn`, after a batch that has been begun. -/
def batches (currentBatch : List Mapping) : List Mapping → List (List Mapping)
  | [] => if currentBatch = [] then [] else [currentBatch]
  | m :: rest =>
    if 1000 ≤ (currentBatch ++ [m]).length then (currentBatch ++ [m]) :: batches [] rest
    else batches (currentBatch ++ [m]) rest

/-! ## A connection -/

/-- How far the handler of a connection is. -/
inductive Phase
  | handshake
  | registered
  | sending (rest : List (List Mapping))
  | sent
  | stopped

/-- `SafeConn`, with its handler: the address it is registered under, and its own side of the
connection as the tie-break writes it. -/
structure SafeConn where
  selfAddr : Bytes
  localCanonical : Bytes
  peerUUID : UInt64
  isOutgoing : Bool
  closed : Bool
  /-- The number of messages in `writeChan`. -/
  pending : ℕ
  queued : List Mapping
  phase : Phase
  lost : List Insertion

namespace SafeConn

/-- A connection during its handshake. -/
def new (selfAddr localCanonical : Bytes) (peerUUID : UInt64) (isOutgoing : Bool) : SafeConn :=
  ⟨selfAddr, localCanonical, peerUUID, isOutgoing, false, 0, [], .handshake, []⟩

/-- `Close`. -/
def close (sc : SafeConn) : SafeConn := { sc with closed := true }

/-- A message is put in the queue, which has room for 1024. -/
def push (sc : SafeConn) (mappings : List Mapping) : SafeConn :=
  if sc.closed then sc
  else if sc.pending < 1024 then
    { sc with pending := sc.pending + 1, queued := sc.queued ++ mappings }
  else sc.close

/-- The writer takes a message from the queue. -/
def write (sc : SafeConn) : SafeConn := { sc with pending := sc.pending - 1 }

/-- One pass of `sendAllMappingsToConn`. -/
def sendNext (sc : SafeConn) : SafeConn :=
  match sc.phase with
  | .sending [] => { sc with phase := .sent }
  | .sending (batch :: rest) =>
    { sc.push batch with phase := if (sc.push batch).closed then .stopped else .sending rest }
  | _ => sc

end SafeConn

/-- `shouldKeepNewConnection`. -/
def shouldKeepNewConnection (nodeUUID : UInt64) (oldConn newConn : SafeConn)
    (remoteCanonical : Bytes) : Bool :=
  if newConn.peerUUID ≠ oldConn.peerUUID then true
  else if newConn.isOutgoing = oldConn.isOutgoing then true
  else if newConn.isOutgoing then
    if nodeUUID < newConn.peerUUID then true
    else if nodeUUID = newConn.peerUUID then newConn.localCanonical < remoteCanonical
    else false
  else
    if nodeUUID > newConn.peerUUID then true
    else if nodeUUID = newConn.peerUUID then newConn.localCanonical > remoteCanonical
    else false

namespace Join

/-! ## A node -/

/-- The pool and the requests, the table of connections, and all the connections there have been.
A broadcast that is going on is the number of its request and the part of the table it has still to
serve. -/
structure Node where
  nodeUUID : UInt64
  nets : Subnets
  proxy : Proxy.State
  inserted : List Insertion
  conns : Map Bytes ℕ
  links : List SafeConn
  broadcasting : List (ℕ × Map Bytes ℕ)
  done : List ℕ

namespace Node

/-- A node that starts with the pool it finds, without requests and connections. -/
def start (nodeUUID : UInt64) (nets : Subnets) (pool : IPPool) : Node :=
  ⟨nodeUUID, nets, ⟨pool, []⟩, [], ∅, [], [], []⟩

/-- What a request broadcasts. -/
def message (s : Node) (i : ℕ) : List Mapping := (s.proxy.requests[i]?.map toBroadcast).getD []

theorem mem_message {s : Node} {i : ℕ} {m : Mapping} :
    m ∈ s.message i ↔ ∃ req, s.proxy.requests[i]? = some req ∧ m ∈ toBroadcast req := by
  rw [message]
  cases s.proxy.requests[i]? <;> simp

/-- The node with another pool. -/
def setPool (s : Node) (p : IPPool) : Node := { s with proxy := { s.proxy with pool := p } }

/-- The node with a connection changed. -/
def modifyConn (s : Node) (c : ℕ) (f : SafeConn → SafeConn) : Node :=
  { s with links := s.links.modify c f }

/-- A request makes a step. -/
def advance (s : Node) (i : ℕ) (t : Time) (k : ℕ) : Node :=
  { s with
    proxy := Proxy.step s.proxy (.advance i t k)
    inserted := s.inserted ++
      (s.proxy.requests[i]?.bind fun req => insertion req s.proxy.pool t).toList }

/-- The connection is put in the table. -/
def enter (s : Node) (c : ℕ) (sc : SafeConn) : Node :=
  { s with
    conns := s.conns.insert sc.selfAddr c
    links := s.links.set c { sc with phase := .registered } }

/-- The section of `handleConnection` that registers the connection: in the place of an older one
for the same peer, which is closed, or not at all. -/
def register (s : Node) (c : ℕ) : Node :=
  match s.links[c]? with
  | none => s
  | some sc =>
    match sc.phase with
    | .handshake =>
      match (s.conns.lookup sc.selfAddr).bind
          fun old => (s.links[old]?).map fun sc' => (old, sc') with
      | none => s.enter c sc
      | some (old, oldConn) =>
        if shouldKeepNewConnection s.nodeUUID oldConn sc sc.selfAddr then
          (s.modifyConn old SafeConn.close).enter c sc
        else s.modifyConn c fun sc => { sc.close with phase := .stopped }
    | _ => s

/-- The end of `handleConnection`. -/
def leave (s : Node) (c : ℕ) : Node :=
  match s.links[c]? with
  | some sc =>
    if s.conns.lookup sc.selfAddr = some c then { s with conns := s.conns.erase sc.selfAddr } else s
  | none => s

/-- The handler of a registered connection takes the mappings of the pool. What had been inserted
and is not among them is lost. -/
def snapshot (s : Node) (c : ℕ) (order : List IPKey) : Node :=
  s.modifyConn c fun sc =>
    match sc.phase with
    | .registered =>
      { sc with
        phase := .sending (batches [] (getAllMappings s.proxy.pool order))
        lost := s.inserted.filter (!Holds s.proxy.pool ·) }
    | _ => sc

/-- The goroutine of an answered request enters `BroadcastMappings`. -/
def beginBroadcast (s : Node) (i : ℕ) : Node :=
  if i ∈ s.done ∨ (s.broadcasting.any fun x => x.1 == i) then s
  else if s.message i = [] then s
  else { s with broadcasting := s.broadcasting ++ [(i, s.conns)] }

/-- A broadcast serves one of the connections it has still to serve. -/
def forward (s : Node) (b : ℕ) (addr : Bytes) : Node :=
  match s.broadcasting[b]? with
  | some (i, rest) =>
    match rest.lookup addr with
    | some c =>
      { s.modifyConn c (·.push (s.message i)) with
        broadcasting := s.broadcasting.set b (i, rest.erase addr) }
    | none => s
  | none => s

/-- A broadcast that has served all the connections returns. -/
def endBroadcast (s : Node) (b : ℕ) : Node :=
  match s.broadcasting[b]? with
  | some (i, rest) =>
    if rest = ∅ then { s with broadcasting := s.broadcasting.eraseIdx b, done := i :: s.done }
    else s
  | none => s

end Node

/-- What can happen at a node. -/
inductive Event
  /-- A response comes from the upstream, and its addresses are collected. -/
  | query (enableIPv6 : Bool) (resp : Proxy.Msg) (now : Time)
  /-- A request makes a step. -/
  | advance (i : ℕ) (t : Time) (k : ℕ)
  /-- A mapping comes from a peer. -/
  | receive (m : Mapping) (t t' : Time)
  /-- The expired mappings are pruned. -/
  | prune (now : Time) (order : Fin 64 → List IPKey)
  /-- A connection is made, and its handshake begins. -/
  | connect (selfAddr localCanonical : Bytes) (peerUUID : UInt64) (isOutgoing : Bool)
  | register (c : ℕ)
  | snapshot (c : ℕ) (order : List IPKey)
  | send (c : ℕ)
  | beginBroadcast (i : ℕ)
  | forward (b : ℕ) (addr : Bytes)
  | endBroadcast (b : ℕ)
  /-- A message without mappings is queued: a handshake or the address of a peer. -/
  | message (c : ℕ)
  | write (c : ℕ)
  /-- A connection fails, or its handler returns. -/
  | close (c : ℕ)
  | leave (c : ℕ)

/-- One step of a node. -/
def step (s : Node) : Event → Node
  | .query enableIPv6 resp now =>
    { s with proxy := Proxy.step s.proxy (.start (Proxy.collect enableIPv6 resp) now) }
  | .advance i t k => s.advance i t k
  | .receive m t t' => s.setPool (receive s.nets s.proxy.pool m t t').1
  | .prune now order => s.setPool (s.proxy.pool.pruneExpired now order)
  | .connect selfAddr localCanonical peerUUID isOutgoing =>
    { s with links := s.links ++ [.new selfAddr localCanonical peerUUID isOutgoing] }
  | .register c => if s.broadcasting = [] then s.register c else s
  | .snapshot c order => if Enumerates s.proxy.pool order then s.snapshot c order else s
  | .send c => s.modifyConn c SafeConn.sendNext
  | .beginBroadcast i => s.beginBroadcast i
  | .forward b addr => s.forward b addr
  | .endBroadcast b => s.endBroadcast b
  | .message c => s.modifyConn c (·.push [])
  | .write c => s.modifyConn c SafeConn.write
  | .close c => s.modifyConn c SafeConn.close
  | .leave c => if s.broadcasting = [] then s.leave c else s

end Join

end NextPath.Sync
