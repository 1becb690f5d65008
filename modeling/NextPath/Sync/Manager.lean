import NextPath.Foundations.Goroutines
import NextPath.Foundations.Runs
import NextPath.Netlink.Batch
import NextPath.Sync.Connections

/-!
# The goroutines of the synchronisation

The `SyncManager` runs an accept loop, dial goroutines, a handler for every connection, and calls of
`tryConnect` from the discovery of peers, beside the goroutine that closes it. They share the table
of connections, the lock of it, the channel `done` and three wait groups.

A step is a section under the lock, a look at `done`, an operation on a wait group, the start of a
goroutine, or the end of something that was waited for (a message, a connection). Where `done` is
looked at inside a section, the channel may be closed before the section ends, so these sections are
two steps and the lock is held in between. A goroutine that waits for the lock or a wait group does
not move.

What a handler sends is left out, and so is what closing a connection does to the reads that wait on
it: a read may fail at any time.

* `Connect.next`, `Handler.next`, `Dial.next`, `Thread.next`: one step of a goroutine;
* `step`: one step of all.
-/

namespace NextPath.Sync.Manager

open Net Pool Goroutines
open Proxy (isUnspecified)

/-! ## Messages -/

/-- `SyncHandshake`, without the fingerprint of the lists, which is only logged. -/
structure SyncHandshake where
  uuid : UInt64
  port : UInt16
  poolNet : Bytes
  poolNet6 : Bytes
  authToken : Bytes
  deriving DecidableEq

/-- `SyncMessage`. -/
structure SyncMessage where
  type : ℤ
  handshake : Option SyncHandshake
  pexIP : IP
  pexPort : UInt16
  mappings : List Mapping
  deriving DecidableEq

def msgTypeHandshake : ℤ := 0

def msgTypePEX : ℤ := 1

def msgTypePing : ℤ := 2

def msgTypeMappings : ℤ := 3

/-- `readHandshake`, of a message that could be decoded. -/
def readHandshake (msg : SyncMessage) : Option SyncHandshake :=
  if msg.type = msgTypeHandshake then msg.handshake else none

/-- `IP.IsLoopback`. -/
def isLoopback (ip : IP) : Bool :=
  if ip.to4 ≠ [] then ip.to4.head? = some 127
  else ip = [0, 0, 0, 0, 0, 0, 0, 0, 0, 0, 0, 0, 0, 0, 0, 1]

/-- `IP.IsMulticast`. -/
def isMulticast (ip : IP) : Bool :=
  if ip.to4 ≠ [] then ip.to4.head?.any (· &&& 0xf0 == 0xe0)
  else ip.length = 16 && ip.head? = some 0xff

/-- `IP.IsLinkLocalUnicast`. -/
def isLinkLocalUnicast (ip : IP) : Bool :=
  if ip.to4 ≠ [] then ip.to4.take 2 = [169, 254]
  else ip.length = 16 && ip.head? = some 0xfe && (ip.drop 1).head?.any (· &&& 0xc0 == 0x80)

/-- `net.JoinHostPort`. -/
def joinHostPort (host port : Bytes) : Bytes :=
  if host.contains (chr ':') then str "[" ++ host ++ str "]:" ++ port
  else host ++ str ":" ++ port

/-- `localIPs[host]`. -/
def isLocal (localIPs : List Bytes) (host : Bytes) : Bool := localIPs.any (· == host)

/-! ## The shared state -/

/-- How far `Close` is. -/
inductive Closing
  | idle
  | closed
  | swept
  | acceptWaited
  | dialsWaited
  | returned
  deriving DecidableEq

/-- The fields of `SyncManager` that do not change. -/
structure Config where
  nodeUUID : UInt64
  authToken : Bytes
  poolNet : Bytes
  poolNet6 : Bytes
  nets : Subnets

/-- The fields of `SyncManager` that the goroutines change, the pool, and what has been given to the
kernel. A connection is known by the number of the goroutine that handles it. -/
structure Shared where
  conns : Map Bytes (ℕ × SafeConn)
  activeDials : Map Bytes Time
  /-- A section under the lock has begun and not ended. -/
  locked : Bool
  acceptWg : ℕ
  dialWg : ℕ
  handlersWg : ℕ
  closing : Closing
  pool : IPPool
  kernel : List Netlink.MappingOp

/-- The channel `done` is closed. -/
def Shared.done (s : Shared) : Bool := s.closing ≠ .idle

/-- `checkAuthToken`. -/
def Config.checkAuthToken (cfg : Config) (supplied : Bytes) : Bool :=
  if cfg.authToken = [] then true else supplied = cfg.authToken

/-- The next step of `Close`. -/
def Shared.close (s : Shared) : Shared :=
  match s.closing with
  | .idle => { s with closing := .closed }
  | .closed => if s.locked then s else { s with closing := .swept }
  | .swept => if s.acceptWg = 0 then { s with closing := .acceptWaited } else s
  | .acceptWaited => if s.dialWg = 0 then { s with closing := .dialsWaited } else s
  | .dialsWaited => if s.handlersWg = 0 then { s with closing := .returned } else s
  | .returned => s

/-! ## Dialling -/

/-- Where a call of `tryConnect` is: before its first section, before the second, between the look
at `done` and the end of the section, before the goroutine is started, and returned. -/
inductive ConnectPc
  | begun
  | claimed
  | adding
  | spawning
  | finished
  deriving DecidableEq

/-- A call of `tryConnect`. -/
structure Connect where
  peerAddr : Bytes
  host : Bytes
  localIPs : List Bytes
  pc : ConnectPc

namespace Connect

/-- A step of `tryConnect`; it has started the dial goroutine if the flag is set. -/
def next (s : Shared) (k : Connect) (now : Time) : Shared × Connect × Bool :=
  match k.pc with
  | .begun =>
    let claim := ({ s with activeDials := s.activeDials.insert k.peerAddr now },
      { k with pc := .claimed }, false)
    if s.locked then (s, k, false)
    else if (s.conns.lookup k.peerAddr).isSome then (s, { k with pc := .finished }, false)
    else
      match s.activeDials.lookup k.peerAddr with
      | some dialTime =>
        if now - dialTime < 10 * 10 ^ 9 then (s, { k with pc := .finished }, false) else claim
      | none => claim
  | .claimed =>
    let giveUp := ({ s with activeDials := s.activeDials.erase k.peerAddr },
      { k with pc := .finished }, false)
    if s.locked then (s, k, false)
    else if isLocal k.localIPs k.host then giveUp
    else if s.done then giveUp
    else ({ s with locked := true }, { k with pc := .adding }, false)
  | .adding =>
    ({ s with dialWg := s.dialWg + 1, locked := false }, { k with pc := .spawning }, false)
  | .spawning => (s, { k with pc := .finished }, true)
  | .finished => (s, k, false)

end Connect

/-- A new connection: the address of the remote side, if it is one of TCP, what the tie-break takes
for the own side, and the addresses of the node when the handler asks for them. -/
structure Link where
  remote : Option IP
  localCanonical : Bytes
  localIPs : List Bytes

/-- Where a dial goroutine is. -/
inductive DialPc
  | checking
  | dialling
  | dialled (link : Link)
  | ready (link : Link)
  | counted (link : Link)
  | finishing
  | leaving
  | ended

structure Dial where
  peerAddr : Bytes
  pc : DialPc

/-! ## Handlers -/

/-- Where a handler is: before its first message, before the section that registers it, between the
look at `done` and the end of that section, and then in its loop, until it returns. -/
inductive HandlerPc
  | waiting
  | checked
  | registering
  | running
  | pex (host peerAddr : Bytes)
  | connecting (k : Connect)
  | taking (mappings : List Mapping)
  | leaving
  | stopping
  | stopped

/-- `handleConnection`, with the messages it has received. -/
structure Handler where
  isOutgoing : Bool
  link : Link
  conn : SafeConn
  received : List SyncMessage
  pc : HandlerPc

/-- The goroutines. -/
inductive Thread
  /-- The accept loop, and the connection it has accepted. -/
  | accepting
  | accepted (link : Link)
  | counted (link : Link)
  | returning
  | returned
  /-- A call of `tryConnect` from `discoverAndConnect`. -/
  | discovery (k : Connect)
  | dial (d : Dial)
  | handler (h : Handler)

/-- What a goroutine is told from outside: a message or an error, a connection or an error, and two
readings of the clock. -/
structure Input where
  message : Option SyncMessage
  link : Option Link
  now : Time
  now' : Time

namespace Handler

variable (cfg : Config)

/-- A handler that has just been started. -/
def new (isOutgoing : Bool) (link : Link) : Handler :=
  ⟨isOutgoing, link, .new [] link.localCanonical 0 false, [], .waiting⟩

/-- The handshake that an outgoing connection is answered with. -/
def readOutgoing (h : Handler) (msg : SyncMessage) : Handler :=
  match readHandshake msg with
  | none => { h with pc := .stopping }
  | some handshake =>
    if !cfg.checkAuthToken handshake.authToken then { h with pc := .stopping }
    else if handshake.uuid = cfg.nodeUUID then { h with pc := .stopping }
    else
      match h.link.remote with
      | none => { h with pc := .stopping }
      | some remoteIP =>
        let selfAddr := joinHostPort remoteIP.string (numeral 10 handshake.port.toNat)
        { h with
          conn := { h.conn with selfAddr, peerUUID := handshake.uuid, isOutgoing := true }
          pc := .checked }

/-- The handshake that an incoming connection starts with. The queue of a new connection has room
for the answer. -/
def readIncoming (h : Handler) (msg : SyncMessage) : Handler :=
  match readHandshake msg with
  | none => { h with pc := .stopping }
  | some handshake =>
    if !cfg.checkAuthToken handshake.authToken then { h with pc := .stopping }
    else if handshake.uuid = cfg.nodeUUID then { h with pc := .stopping }
    else
      match h.link.remote with
      | none => { h with pc := .stopping }
      | some remoteIP =>
        let selfAddr := joinHostPort remoteIP.string (numeral 10 handshake.port.toNat)
        if handshake.poolNet ≠ cfg.poolNet ∨ handshake.poolNet6 ≠ cfg.poolNet6 then
          { h with pc := .stopping }
        else
          { h with
            conn := { h.conn with selfAddr, peerUUID := handshake.uuid, isOutgoing := false }
            pc := .checked }

/-- The first message of a connection. -/
def greet (h : Handler) (msg : SyncMessage) : Handler :=
  if h.isOutgoing then h.readOutgoing cfg msg else h.readIncoming cfg msg

/-- What the loop does next with a message. -/
def dispatch (msg : SyncMessage) : HandlerPc :=
  if msg.type = msgTypePEX then
    if msg.pexPort = 0 || isLoopback msg.pexIP || isMulticast msg.pexIP ||
        isUnspecified msg.pexIP || isLinkLocalUnicast msg.pexIP then .running
    else .pex msg.pexIP.string (joinHostPort msg.pexIP.string (numeral 10 msg.pexPort.toNat))
  else if msg.type = msgTypePing then .running
  else if msg.type = msgTypeMappings then .taking msg.mappings
  else .leaving

/-- The end of the section that registers the connection. -/
def register (i : ℕ) (s : Shared) (h : Handler) : Move Shared Thread :=
  let selfAddr := h.conn.selfAddr
  let keep := match s.conns.lookup selfAddr with
    | some (j, oldConn) => j = i || shouldKeepNewConnection cfg.nodeUUID oldConn h.conn selfAddr
    | none => true
  if keep then
    ⟨{ s with
        conns := s.conns.insert selfAddr (i, h.conn)
        activeDials := if h.isOutgoing then s.activeDials.erase selfAddr else s.activeDials
        locked := false },
      .handler { h with pc := .running }, none⟩
  else ⟨{ s with locked := false }, .handler { h with pc := .stopping }, none⟩

/-- The mapping of a message. -/
def take (s : Shared) (m : Mapping) (now now' : Time) : Shared :=
  let (pool, accepted) := receive cfg.nets s.pool m now now'
  { s with
    pool
    kernel := if accepted then s.kernel ++ [⟨m.fakeIP, m.realIP, mappingTTL⟩] else s.kernel }

/-- The section at the end of the handler. -/
def cleanup (i : ℕ) (s : Shared) (h : Handler) : Shared :=
  if (s.conns.lookup h.conn.selfAddr).any (·.1 = i) then
    { s with conns := s.conns.erase h.conn.selfAddr }
  else s

/-- A step of a handler. -/
def next (i : ℕ) (s : Shared) (h : Handler) (input : Input) : Move Shared Thread :=
  match h.pc with
  | .waiting =>
    match input.message with
    | none => ⟨s, .handler { h with pc := .stopping }, none⟩
    | some msg => ⟨s, .handler ({ h with received := h.received ++ [msg] }.greet cfg msg), none⟩
  | .checked =>
    if s.locked then ⟨s, .handler h, none⟩
    else if s.done then ⟨s, .handler { h with pc := .stopping }, none⟩
    else ⟨{ s with locked := true }, .handler { h with pc := .registering }, none⟩
  | .registering => h.register cfg i s
  | .running =>
    match input.message with
    | none => ⟨s, .handler { h with pc := .leaving }, none⟩
    | some msg =>
      ⟨s, .handler { h with received := h.received ++ [msg], pc := dispatch msg }, none⟩
  | .pex host peerAddr =>
    if s.locked then ⟨s, .handler h, none⟩
    else if 50 ≤ s.conns.keys.card then ⟨s, .handler { h with pc := .running }, none⟩
    else ⟨s, .handler { h with pc := .connecting ⟨peerAddr, host, h.link.localIPs, .begun⟩ }, none⟩
  | .connecting k =>
    let (s', k', started) := k.next s input.now
    ⟨s', .handler { h with pc := if k'.pc = .finished then .running else .connecting k' },
      if started then some (.dial ⟨k.peerAddr, .checking⟩) else none⟩
  | .taking [] => ⟨s, .handler { h with pc := .running }, none⟩
  | .taking (m :: rest) =>
    ⟨take cfg s m input.now input.now', .handler { h with pc := .taking rest }, none⟩
  | .leaving =>
    if s.locked then ⟨s, .handler h, none⟩
    else ⟨h.cleanup i s, .handler { h with pc := .stopping }, none⟩
  | .stopping =>
    ⟨{ s with handlersWg := s.handlersWg - 1 }, .handler { h with pc := .stopped }, none⟩
  | .stopped => ⟨s, .handler h, none⟩

end Handler

/-- A step of a dial goroutine. -/
def Dial.next (s : Shared) (d : Dial) (input : Input) : Move Shared Thread :=
  match d.pc with
  | .checking =>
    ⟨s, .dial { d with pc := if s.done then .finishing else .dialling }, none⟩
  | .dialling =>
    match input.link with
    | none => ⟨s, .dial { d with pc := .finishing }, none⟩
    | some link => ⟨s, .dial { d with pc := .dialled link }, none⟩
  | .dialled link =>
    ⟨s, .dial { d with pc := if s.done then .finishing else .ready link }, none⟩
  | .ready link =>
    ⟨{ s with handlersWg := s.handlersWg + 1 }, .dial { d with pc := .counted link }, none⟩
  | .counted link =>
    ⟨s, .dial { d with pc := .finishing }, some (.handler (.new true link))⟩
  | .finishing =>
    if s.locked then ⟨s, .dial d, none⟩
    else
      ⟨{ s with activeDials := s.activeDials.erase d.peerAddr }, .dial { d with pc := .leaving },
        none⟩
  | .leaving => ⟨{ s with dialWg := s.dialWg - 1 }, .dial { d with pc := .ended }, none⟩
  | .ended => ⟨s, .dial d, none⟩

/-- A step of a goroutine. -/
def Thread.next (cfg : Config) (i : ℕ) (s : Shared) (t : Thread) (input : Input) :
    Move Shared Thread :=
  match t with
  | .accepting =>
    match input.link with
    | none => ⟨s, if s.done then .returning else .accepting, none⟩
    | some link => ⟨s, .accepted link, none⟩
  | .accepted link => ⟨{ s with handlersWg := s.handlersWg + 1 }, .counted link, none⟩
  | .counted link => ⟨s, .accepting, some (.handler (.new false link))⟩
  | .returning => ⟨{ s with acceptWg := s.acceptWg - 1 }, .returned, none⟩
  | .returned => ⟨s, .returned, none⟩
  | .discovery k =>
    let (s', k', started) := k.next s input.now
    ⟨s', .discovery k', if started then some (.dial ⟨k.peerAddr, .checking⟩) else none⟩
  | .dial d => d.next s input
  | .handler h => h.next cfg i s input

/-! ## The manager -/

abbrev State := World Shared Thread

/-- What happens next. -/
inductive Event
  /-- A goroutine makes a step. -/
  | advance (i : ℕ) (input : Input)
  /-- `discoverAndConnect` calls `tryConnect`. -/
  | discover (peerAddr host : Bytes) (localIPs : List Bytes)
  /-- `Close` makes a step. -/
  | close
  /-- The requests of the node change the pool. -/
  | allocate (pool : IPPool)

def step (cfg : Config) (w : State) : Event → State
  | .advance i input => w.advance (Thread.next cfg) i input
  | .discover peerAddr host localIPs => w.start (.discovery ⟨peerAddr, host, localIPs, .begun⟩)
  | .close => { w with shared := w.shared.close }
  | .allocate pool => { w with shared := { w.shared with pool } }

/-- The manager when the accept loop has just been started. -/
def start (pool : IPPool) : State :=
  ⟨⟨∅, ∅, false, 1, 0, 0, .idle, pool, []⟩, [.accepting]⟩

end NextPath.Sync.Manager
