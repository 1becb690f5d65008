import NextPath.Net.HostPort
import NextPath.Sync.Manager

/-!
# The address of a peer

A peer is known by a text, the key of its connection in the table: the address of the remote side
and the port from the handshake, joined. The same text comes up in three other ways: a peer that is
configured is looked up and its addresses are joined with the port; a peer that is told of is taken
apart, sent as an address and a port, and joined again at the other end; and `tryConnect` looks it
up in the table. If the three did not agree with the first, a peer would be dialled again and again.

* `splitHostPort_joinHostPort`: what is joined can be taken apart;
* `dispatch_pexMessage`: an address that is told arrives;
* `discover_literal`: so does one that is configured;
* `not_redialled`: a peer that is connected is not dialled again.
-/

namespace NextPath.Sync

open Net Pool Strings Manager

/-! ## Host and port -/

/-- A host without brackets and a port without marks are read back from their joined form. -/
theorem splitHostPort_joinHostPort {host port : Bytes} (hopen : chr '[' ∉ host)
    (hclose : chr ']' ∉ host) (hcolon : chr ':' ∉ port) (hopen' : chr '[' ∉ port)
    (hclose' : chr ']' ∉ port) : splitHostPort (joinHostPort host port) = .ok (host, port) := by
  unfold joinHostPort
  split
  · -- The host is in brackets.
    have hshape : str "[" ++ host ++ str "]:" ++ port =
        (chr '[' :: host ++ [chr ']']) ++ chr ':' :: port := by
      simp [show str "[" = [chr '['] by decide, show str "]:" = [chr ']', chr ':'] by decide]
    have hne : ∀ c ∈ host, decide (c ≠ chr ']') = true := fun c hc =>
      decide_eq_true fun e => hclose (e ▸ hc)
    have hdrop : ((chr '[' :: host ++ [chr ']']) ++ chr ':' :: port).dropWhile (· ≠ chr ']') =
        chr ']' :: chr ':' :: port := by
      rw [List.append_assoc, List.cons_append, List.dropWhile_cons_of_pos (by decide),
        List.dropWhile_append_of_pos hne, List.singleton_append,
        List.dropWhile_cons_of_neg (by simp)]
    have htake : (host ++ [chr ']'] ++ chr ':' :: port).takeWhile (· ≠ chr ']') = host := by
      rw [List.append_assoc, List.takeWhile_append_of_pos hne, List.singleton_append,
        List.takeWhile_cons_of_neg (by simp), List.append_nil]
    have hin : chr '[' ∉ host ++ [chr ']'] ++ chr ':' :: port := by
      simp [hopen, hopen', show chr '[' ≠ chr ']' by decide, show chr '[' ≠ chr ':' by decide]
    have hrest : chr ']' ∉ chr ':' :: port := by
      simp [hclose', show chr ']' ≠ chr ':' by decide]
    have hhead : (chr '[' :: host ++ [chr ']'] ++ chr ':' :: port).head? = some (chr '[') := rfl
    rw [hshape, splitHostPort, cutLast_append _ hcolon]
    dsimp only
    rw [if_pos hhead, if_neg (by simp), hdrop]
    simp only [List.drop_one, List.tail_cons, List.cons_append]
    rw [if_neg (List.cons_ne_nil _ _), if_neg (by simp), if_neg (mt List.contains_iff_mem.1 hin),
      if_neg (mt List.contains_iff_mem.1 hrest), htake]
  · -- There is no colon in the host.
    case isFalse hmark =>
    have hhost : chr ':' ∉ host := fun h => hmark (by simp [h])
    have hshape : host ++ str ":" ++ port = host ++ chr ':' :: port := by
      simp [show str ":" = [chr ':'] by decide]
    have hhead : ¬ (host ++ chr ':' :: port).head? = some (chr '[') := by
      cases host with
      | nil =>
        simp only [List.nil_append, List.head?_cons, Option.some.injEq]
        decide
      | cons c host =>
        simp only [List.cons_append, List.head?_cons, Option.some.injEq]
        rintro rfl
        exact hopen List.mem_cons_self
    rw [hshape, splitHostPort, cutLast_append _ hcolon]
    have hin : chr '[' ∉ host ++ chr ':' :: port := by
      simp [hopen, hopen', show chr '[' ≠ chr ':' by decide]
    have hrest : chr ']' ∉ host ++ chr ':' :: port := by
      simp [hclose, hclose', show chr ']' ≠ chr ':' by decide]
    dsimp only
    rw [if_neg hhead, if_neg (mt List.contains_iff_mem.1 hhost),
      if_neg (mt List.contains_iff_mem.1 hin), if_neg (mt List.contains_iff_mem.1 hrest)]

/-! ## The key of a peer -/

/-- The key of the connection with a peer. -/
def peerAddress (ip : IP) (port : UInt16) : Bytes := joinHostPort ip.string (numeral 10 port.toNat)

theorem notMem_port {c : UInt8} (hc : isDigit c = false) (port : UInt16) :
    c ∉ numeral 10 port.toNat := fun h => by
  rw [isDigit_of_mem_numeral h] at hc
  cases hc

theorem splitHostPort_string {ip : IP} (h : ip.WellFormed) (port : UInt16) :
    splitHostPort (peerAddress ip port) = .ok (ip.string, numeral 10 port.toNat) :=
  splitHostPort_joinHostPort (notMem_string (by decide) h) (notMem_string (by decide) h)
    (notMem_port (by decide) port) (notMem_port (by decide) port) (notMem_port (by decide) port)

/-- The key of a connection that has been greeted. -/
theorem selfAddr_greet {cfg : Manager.Config} {h : Handler} {msg : SyncMessage}
    {handshake : SyncHandshake} (hmsg : readHandshake msg = some handshake) {ip : IP}
    (hremote : h.link.remote = some ip) (hpc : (h.greet cfg msg).pc = .checked) :
    (h.greet cfg msg).conn.selfAddr = peerAddress ip handshake.port := by
  unfold Handler.greet at hpc ⊢
  by_cases hout : h.isOutgoing = true
  · rw [if_pos hout] at hpc ⊢
    simp only [Handler.readOutgoing, hmsg, hremote] at hpc ⊢
    split_ifs at hpc ⊢
    rfl
  · rw [if_neg hout] at hpc ⊢
    simp only [Handler.readIncoming, hmsg, hremote] at hpc ⊢
    split_ifs at hpc ⊢
    rfl

/-! ## Telling a peer of another -/

/-- An address that is not dialled when a peer tells of it. -/
def barred (ip : IP) (port : UInt16) : Bool :=
  port = 0 || isLoopback ip || isMulticast ip || Proxy.isUnspecified ip || isLinkLocalUnicast ip

/-- The message of `sendPexMessage`. -/
def pexMessage (peerAddr : Bytes) : Option SyncMessage :=
  match splitHostPort peerAddr with
  | .error _ => none
  | .ok (host, portStr) =>
    if parseIP host = [] then none
    else (atoi portStr).map fun port =>
      ⟨msgTypePEX, none, parseIP host, UInt16.ofNat (port % 2 ^ 16).toNat, []⟩

/-- The form in which an address is sent does not matter to the receiver. -/
theorem barred_to16 {ip : IP} (h : ip.WellFormed) (port : UInt16) :
    barred ip.to16 port = barred ip port := by
  rcases h with h4 | h16
  · have hto4 : ip.to4 = ip := IP.to4_of_length h4
    have hne : ip ≠ [] := IP.WellFormed.ne_nil (.inl h4)
    have hto16 : ip.to16.to4 = ip := by rw [IP.to4_to16 ip (.inl h4), hto4]
    have hunspecified : Proxy.isUnspecified ip.to16 = Proxy.isUnspecified ip := by
      obtain ⟨a, b, c, d, rfl⟩ : ∃ a b c d, ip = [a, b, c, d] := by
        match ip, h4 with
        | [a, b, c, d], _ => exact ⟨a, b, c, d, rfl⟩
      simp [Proxy.isUnspecified, IP.equal, IP.to16, Proxy.ipv4zero, Proxy.ipv6unspecified,
        v4InV6Prefix]
    simp only [barred, hunspecified, isLoopback, isMulticast, isLinkLocalUnicast, hto16, hto4, hne,
      ne_eq, not_false_eq_true, if_true]
  · rw [IP.to16_of_length h16]

/-- **An address that is told arrives.** The message for the key of a peer makes the receiver dial
that key, unless the address is one that is not dialled. -/
theorem dispatch_pexMessage {ip : IP} (h : ip.WellFormed) (port : UInt16) :
    ∃ msg, pexMessage (peerAddress ip port) = some msg ∧
      Handler.dispatch msg =
        if barred ip port then .running else .pex ip.string (peerAddress ip port) := by
  have hparse : parseIP ip.string = ip.to16 := parseIP_string h
  have hne : ip.to16 ≠ [] := fun e => by
    have := IP.length_to16 h
    rw [e] at this
    cases this
  have hport : UInt16.ofNat (((port.toNat : ℤ) % 2 ^ 16).toNat) = port := by
    rw [Int.emod_eq_of_lt (by omega) (by have := port.toNat_lt; omega), Int.toNat_natCast]
    exact UInt16.ofNat_toNat
  refine ⟨⟨msgTypePEX, none, ip.to16, port, []⟩, ?_, ?_⟩
  · have hlt : port.toNat < 2 ^ 63 := port.toNat_lt.trans (by decide)
    simp only [pexMessage, splitHostPort_string h, hparse, hne, if_false, atoi_numeral hlt,
      Option.map_some, hport]
  · have hbarred := barred_to16 h port
    simp only [barred] at hbarred
    simp only [Handler.dispatch, if_true, hbarred, string_to16 h]
    rfl

/-! ## Peers that are configured -/

/-- What `NewSyncManager` makes of a peer of the configuration: it gets the port of the node, if no
port is seen in it. -/
def withPort (syncPort p : Bytes) : Bytes :=
  if p.contains (chr ':') then p else p ++ str ":" ++ syncPort

/-- The keys that a pass of `discoverAndConnect` tries for a peer, with the name for the
certificate. The addresses of a name are found by `lookupIP`. -/
def discover (syncPort : Bytes) (lookupIP : Bytes → Option (List IP)) (localIPs : List Bytes)
    (peerRaw : Bytes) : List (Bytes × Bytes) :=
  let (host, port) := match splitHostPort peerRaw with
    | .ok hostport => hostport
    | .error _ => (peerRaw, syncPort)
  match if parseIP host ≠ [] then some [parseIP host] else lookupIP host with
  | none => [(joinHostPort host port, host)]
  | some ips => ips.filterMap fun ip =>
    if isLocal localIPs ip.string then none else some (joinHostPort ip.string port, host)

/-- The text of an IPv4 address has no other mark than the dot. -/
theorem notMem_string4 {ip : IP} (h4 : ip.to4 ≠ []) {c : UInt8} (hc : isMark c = true)
    (hdot : c ≠ chr '.') : c ∉ ip.string := by
  have hwf := IP.wellFormed_of_to4_ne_nil h4
  have hlen : ¬(ip.length ≠ 4 ∧ ip.length ≠ 16) := fun e => hwf.elim e.1 e.2
  rw [IP.string, if_neg hwf.ne_nil, if_neg hlen, if_pos h4]
  intro hmem
  rcases mem_joinWith hmem with rfl | ⟨f, hf, hcf⟩
  · exact hdot rfl
  · obtain ⟨x, -, rfl⟩ := List.mem_map.1 hf
    exact notMem_numeral (by decide) (by decide) hc _ hcf

/-- Groups that are separated have a colon for each but the first. -/
theorem count_hexGroups (gs : List ℕ) :
    gs.length ≤ (hexGroups gs).count (chr ':') + 1 := by
  induction gs with
  | nil => exact Nat.zero_le _
  | cons g gs ih =>
    cases gs with
    | nil => exact Nat.le_add_left 1 _
    | cons g' gs =>
      have hcons : hexGroups (g :: g' :: gs) =
          numeral 16 g ++ chr ':' :: hexGroups (g' :: gs) := by
        simp only [hexGroups, List.map_cons, joinWith_cons_cons]
      rw [hcons, List.count_append, List.count_cons_self, List.length_cons]
      omega

/-- The text of an IPv6 address has more than one colon. -/
theorem two_le_count_string6 {gs : List ℕ} (h : gs.length = 8) :
    2 ≤ (string6 gs).count (chr ':') := by
  unfold string6
  dsimp only
  split_ifs
  · have := count_hexGroups gs
    omega
  · have hellipsis : (str "::").count (chr ':') = 2 := by decide
    rw [List.count_append, List.count_append, hellipsis]
    omega

/-- An IPv6 address without a port is not taken apart. -/
theorem splitHostPort_bare6 {ip : IP} (h : ip.length = 16) (h4 : ip.to4 = []) :
    splitHostPort ip.string = .error .tooManyColons := by
  have hstring : ip.string = string6 (groups ip) := by
    rw [IP.string, if_neg (IP.WellFormed.ne_nil (.inr h)), if_neg fun e => e.2 h,
      if_neg fun e => e h4]
  have hcount : 2 ≤ ip.string.count (chr ':') := by
    rw [hstring]
    exact two_le_count_string6 (length_groups h)
  obtain ⟨front, port, hcut, hs, hport⟩ :=
    exists_cutLast (List.count_pos_iff.1 (Nat.lt_of_lt_of_le Nat.zero_lt_two hcount))
  have hfront : chr ':' ∈ front := by
    rw [hs, List.count_append, List.count_cons_self, List.count_eq_zero_of_not_mem hport] at hcount
    exact List.count_pos_iff.1 (by omega)
  have hhead : ¬ ip.string.head? = some (chr '[') := fun e =>
    notMem_string (c := chr '[') (by decide) (.inr h) (List.mem_of_mem_head? (e ▸ rfl))
  rw [splitHostPort, hcut]
  dsimp only
  rw [if_neg hhead, if_pos (List.contains_iff_mem.2 hfront)]

/-- A peer that is an address is tried under its key, and not at all if it is the node itself. -/
theorem discover_of_split {ip : IP} (h : ip.WellFormed) {peerRaw syncPort port : Bytes}
    (hsplit : splitHostPort peerRaw = .ok (ip.string, port) ∨
      peerRaw = ip.string ∧ port = syncPort ∧ ∃ e, splitHostPort peerRaw = .error e)
    (lookupIP : Bytes → Option (List IP)) (localIPs : List Bytes) :
    discover syncPort lookupIP localIPs peerRaw =
      if isLocal localIPs ip.string then [] else [(joinHostPort ip.string port, ip.string)] := by
  have hne : parseIP ip.string ≠ [] := by
    rw [parseIP_string h]
    intro e
    have := IP.length_to16 h
    rw [e] at this
    cases this
  have hlist : [parseIP ip.string].filterMap (fun ip' =>
      if isLocal localIPs ip'.string then none
      else some (joinHostPort ip'.string port, ip.string)) =
      if isLocal localIPs ip.string then [] else [(joinHostPort ip.string port, ip.string)] := by
    rw [parseIP_string h]
    simp only [List.filterMap_cons, List.filterMap_nil, string_to16 h]
    split_ifs <;> rfl
  unfold discover
  rcases hsplit with hok | ⟨rfl, rfl, e, herr⟩
  · simp only [hok, hne, ne_eq, not_false_eq_true, if_true]
    exact hlist
  · simp only [herr, hne, ne_eq, not_false_eq_true, if_true]
    exact hlist

/-- **A peer that is configured by its address is tried under its key**, with the port or, if it has
the port of the node, without. -/
theorem discover_literal {ip : IP} (h : ip.WellFormed) (port : UInt16) {peer syncPort : Bytes}
    (hpeer : peer = peerAddress ip port ∨ peer = ip.string ∧ syncPort = numeral 10 port.toNat)
    (lookupIP : Bytes → Option (List IP)) (localIPs : List Bytes) :
    discover syncPort lookupIP localIPs (withPort syncPort peer) =
      if isLocal localIPs ip.string then [] else [(peerAddress ip port, ip.string)] := by
  suffices hsplit :
      splitHostPort (withPort syncPort peer) = .ok (ip.string, numeral 10 port.toNat) ∨
        withPort syncPort peer = ip.string ∧ numeral 10 port.toNat = syncPort ∧
          ∃ e, splitHostPort (withPort syncPort peer) = .error e from
    discover_of_split h hsplit lookupIP localIPs
  rcases hpeer with rfl | ⟨rfl, rfl⟩
  · have hcolon : (peerAddress ip port).contains (chr ':') = true := by
      rw [List.contains_iff_mem, peerAddress, joinHostPort]
      split <;> simp [show chr ':' ∈ str "]:" by decide, show chr ':' ∈ str ":" by decide]
    rw [withPort, if_pos hcolon]
    exact .inl (splitHostPort_string h port)
  · by_cases h4 : ip.to4 = []
    · -- An IPv6 address has colons, and no port is added.
      have herr := splitHostPort_bare6 (h.length_eq h4) h4
      have hcolon : ip.string.contains (chr ':') = true := by
        by_contra hno
        rw [List.contains_iff_mem] at hno
        rw [splitHostPort, cutLast, if_neg hno] at herr
        cases herr
      rw [withPort, if_pos hcolon]
      exact .inr ⟨rfl, rfl, _, herr⟩
    · -- An IPv4 address has none, and with the port it is the key.
      have hcolon : chr ':' ∉ ip.string := notMem_string4 h4 (by decide) (by decide)
      have hkey : ip.string ++ str ":" ++ numeral 10 port.toNat = peerAddress ip port := by
        rw [peerAddress, joinHostPort, if_neg (by simpa using hcolon)]
      rw [withPort, if_neg (by simpa using hcolon), hkey]
      exact .inl (splitHostPort_string h port)

/-! ## A peer that is connected -/

/-- **A peer that is connected is not dialled again.** Let a connection have been greeted by a peer
at the address `ip` and be registered. Then every call of `tryConnect` returns at once that is made
for this peer because its address is in the configuration, with or without the port, or because
another node that has the peer in its table tells of it. -/
theorem not_redialled {cfg : Manager.Config} {h : Handler} {msg : SyncMessage}
    {handshake : SyncHandshake} (hmsg : readHandshake msg = some handshake) {ip : IP}
    (hremote : h.link.remote = some ip) (hip : ip.WellFormed)
    (hpc : (h.greet cfg msg).pc = .checked) {s : Shared} (hlock : s.locked = false)
    (hconn : (s.conns.lookup (h.greet cfg msg).conn.selfAddr).isSome) (localIPs : List Bytes)
    (now : Time) :
    (∀ (peer syncPort : Bytes) (lookupIP : Bytes → Option (List IP)),
      (peer = peerAddress ip handshake.port ∨
        peer = ip.string ∧ syncPort = numeral 10 handshake.port.toNat) →
      ∀ x ∈ discover syncPort lookupIP localIPs (withPort syncPort peer), ∀ host,
        Connect.next s ⟨x.1, host, localIPs, .begun⟩ now =
          (s, ⟨x.1, host, localIPs, .finished⟩, false)) ∧
    ∀ told host peerAddr, pexMessage (peerAddress ip handshake.port) = some told →
      Handler.dispatch told = .pex host peerAddr →
        Connect.next s ⟨peerAddr, host, localIPs, .begun⟩ now =
          (s, ⟨peerAddr, host, localIPs, .finished⟩, false) := by
  rw [selfAddr_greet hmsg hremote hpc] at hconn
  have hdone (host : Bytes) :
      Connect.next s ⟨peerAddress ip handshake.port, host, localIPs, .begun⟩ now =
        (s, ⟨peerAddress ip handshake.port, host, localIPs, .finished⟩, false) := by
    simp only [Connect.next, hlock, hconn, Bool.false_eq_true, if_false, if_true]
  constructor
  · intro peer syncPort lookupIP hpeer x hx host
    rw [discover_literal hip handshake.port hpeer] at hx
    split_ifs at hx
    · cases hx
    · rw [List.mem_singleton.1 hx]
      exact hdone host
  · intro told host peerAddr htold hdispatch
    obtain ⟨told', htold', hdispatch'⟩ := dispatch_pexMessage hip handshake.port
    obtain rfl : told = told' := Option.some.inj (htold.symm.trans htold')
    rw [hdispatch] at hdispatch'
    split_ifs at hdispatch'
    obtain ⟨rfl, rfl⟩ := HandlerPc.pex.inj hdispatch'
    exact hdone _

/-- The peer 2001:db8::7 has called, and is in the configuration without a port. -/
theorem not_redialled_bare6 :
    let cfg : Manager.Config :=
      ⟨1, [], [], [], .ofPool (newIPPoolWithConfig [] [] ⟨4, 4⟩).toPoolRange⟩
    let ip : IP := [0x20, 0x01, 0x0d, 0xb8, 0, 0, 0, 0, 0, 0, 0, 0, 0, 0, 0, 7]
    let msg : SyncMessage := ⟨msgTypeHandshake, some ⟨2, 8443, [], [], []⟩, [], 0, []⟩
    let h := (Handler.new false ⟨some ip, [], []⟩).greet cfg msg
    let s : Shared := ⟨(∅ : Map Bytes (ℕ × SafeConn)).insert h.conn.selfAddr (0, h.conn), ∅, false,
      1, 0, 1, .idle, newIPPoolWithConfig [] [] ⟨4, 4⟩, []⟩
    ∀ x ∈ discover (str "8443") (fun _ => none) [] (withPort (str "8443") (str "2001:db8::7")),
      Connect.next s ⟨x.1, x.2, [], .begun⟩ 0 = (s, ⟨x.1, x.2, [], .finished⟩, false) := by
  intro cfg ip msg h s x hx
  have hstring : str "2001:db8::7" = IP.string ip := by decide +kernel
  have hport : str "8443" = numeral 10 (8443 : UInt16).toNat := by decide +kernel
  have hmsg : readHandshake msg = some ⟨2, 8443, [], [], []⟩ := rfl
  have hremote : (Handler.new false ⟨some ip, [], []⟩).link.remote = some ip := rfl
  have hpc : ((Handler.new false ⟨some ip, [], []⟩).greet cfg msg).pc = .checked := rfl
  have hconn : (s.conns.lookup h.conn.selfAddr).isSome := by
    rw [Map.lookup_insert_ite, if_pos rfl]
    rfl
  exact (not_redialled hmsg hremote (.inr rfl) hpc rfl hconn [] 0).1 (str "2001:db8::7")
    (str "8443") (fun _ => none) (.inr ⟨hstring, hport⟩) x hx x.2

end NextPath.Sync
