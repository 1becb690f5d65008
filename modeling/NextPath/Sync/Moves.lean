import NextPath.Sync.Manager

/-!
# What the goroutines of the synchronisation can do

The steps of `tryConnect`, of a handler and of a dial goroutine, each as the list of what it can
do, with the place it is made from and what was checked before it.

* `Connect.Step`, `Connect.step_next`: a step of `tryConnect`;
* `Handler.Step`, `Handler.step_next`: a step of a handler;
* `Handler.greet_cases`: what the first message of a connection leads to;
* `Dial.next_cases`: what a dial goroutine leaves as it is.
-/

namespace NextPath.Sync.Manager

open Net Pool Goroutines

namespace Connect

/-- What a step of `tryConnect` can do: note or forget the dial, take the lock while `done` is open,
count the dial and release the lock, and start the goroutine. -/
inductive Step (s : Shared) (k : Connect) : Shared → Connect → Bool → Prop
  | note (activeDials : Map Bytes Time) (pc : ConnectPc) (hadd : k.pc ≠ .adding ∧ pc ≠ .adding)
      (hspawn : k.pc ≠ .spawning ∧ pc ≠ .spawning) :
      Step s k { s with activeDials } { k with pc } false
  | lock (hpc : k.pc = .claimed) (hfree : s.locked = false) (hopen : s.done = false) :
      Step s k { s with locked := true } { k with pc := .adding } false
  | add (hpc : k.pc = .adding) :
      Step s k { s with dialWg := s.dialWg + 1, locked := false } { k with pc := .spawning } false
  | spawn (hpc : k.pc = .spawning) : Step s k s { k with pc := .finished } true

theorem step_next (s : Shared) (k : Connect) (now : Time) :
    Step s k (k.next s now).1 (k.next s now).2.1 (k.next s now).2.2 := by
  have hstay (ha : k.pc ≠ .adding) (hs : k.pc ≠ .spawning) : Step s k s k false :=
    .note s.activeDials k.pc ⟨ha, ha⟩ ⟨hs, hs⟩
  have hnote (dials : Map Bytes Time) {pc : ConnectPc} (ha : k.pc ≠ .adding ∧ pc ≠ .adding)
      (hs : k.pc ≠ .spawning ∧ pc ≠ .spawning) :
      Step s k { s with activeDials := dials } { k with pc } false := .note dials pc ha hs
  cases hpc : k.pc with
  | begun =>
    simp only [next, hpc]
    split_ifs
    · exact hstay (by simp [hpc]) (by simp [hpc])
    · exact hnote s.activeDials (by simp [hpc]) (by simp [hpc])
    · split
      · split_ifs
        · exact hnote s.activeDials (by simp [hpc]) (by simp [hpc])
        · exact hnote _ (by simp [hpc]) (by simp [hpc])
      · exact hnote _ (by simp [hpc]) (by simp [hpc])
  | claimed =>
    simp only [next, hpc]
    split_ifs with hlocked _ hdone
    · exact hstay (by simp [hpc]) (by simp [hpc])
    · exact hnote _ (by simp [hpc]) (by simp [hpc])
    · exact hnote _ (by simp [hpc]) (by simp [hpc])
    · exact .lock hpc (by simpa using hlocked) (by simpa using hdone)
  | adding =>
    simp only [next, hpc]
    exact .add hpc
  | spawning =>
    simp only [next, hpc]
    exact .spawn hpc
  | finished =>
    simp only [next, hpc]
    exact hstay (by simp [hpc]) (by simp [hpc])

end Connect

namespace Handler

variable (cfg : Config)

/-- **What a first message leads to**: the handler stops, or the message is a handshake that has
passed the checks of its direction. -/
theorem greet_cases (h : Handler) (msg : SyncMessage) :
    h.greet cfg msg = { h with pc := .stopping } ∨
      ∃ handshake conn, readHandshake msg = some handshake ∧
        cfg.checkAuthToken handshake.authToken = true ∧ handshake.uuid ≠ cfg.nodeUUID ∧
        (h.isOutgoing = false →
          handshake.poolNet = cfg.poolNet ∧ handshake.poolNet6 = cfg.poolNet6) ∧
        h.greet cfg msg = { h with conn, pc := .checked } := by
  unfold greet
  split_ifs with hout
  · simp only [readOutgoing]
    split
    · exact .inl rfl
    · rename_i handshake hread
      split_ifs with htoken huuid
      · exact .inl rfl
      · exact .inl rfl
      · split
        · exact .inl rfl
        · exact .inr ⟨handshake, _, hread, by simpa using htoken, huuid, by simp [hout], rfl⟩
  · simp only [readIncoming]
    split
    · exact .inl rfl
    · rename_i handshake hread
      split_ifs with htoken huuid hnets
      · exact .inl rfl
      · exact .inl rfl
      · split <;> exact .inl rfl
      · rw [not_or, not_not, not_not] at hnets
        split
        · exact .inl rfl
        · exact .inr ⟨handshake, _, hread, by simpa using htoken, huuid, fun _ => hnets, rfl⟩

/-- What a step of a handler can do. -/
inductive Step (i : ℕ) (s : Shared) (h : Handler) (input : Input) : Move Shared Thread → Prop
  | stay : Step i s h input ⟨s, .handler h, none⟩
  | greet (msg : SyncMessage) (hpc : h.pc = .waiting) (hmsg : input.message = some msg) :
      Step i s h input
        ⟨s, .handler ({ h with received := h.received ++ [msg] }.greet cfg msg), none⟩
  | refuse (hpc : h.pc = .waiting ∨ h.pc = .checked) :
      Step i s h input ⟨s, .handler { h with pc := .stopping }, none⟩
  | lock (hpc : h.pc = .checked) (hfree : s.locked = false) (hopen : s.done = false) :
      Step i s h input ⟨{ s with locked := true }, .handler { h with pc := .registering }, none⟩
  | enter (activeDials : Map Bytes Time) (hpc : h.pc = .registering) :
      Step i s h input
        ⟨{ s with
            conns := s.conns.insert h.conn.selfAddr (i, h.conn), activeDials, locked := false },
          .handler { h with pc := .running }, none⟩
  | lose (hpc : h.pc = .registering) :
      Step i s h input ⟨{ s with locked := false }, .handler { h with pc := .stopping }, none⟩
  | read (msg : SyncMessage) (hpc : h.pc = .running) (hmsg : input.message = some msg) :
      Step i s h input
        ⟨s, .handler { h with received := h.received ++ [msg], pc := dispatch msg }, none⟩
  | hangUp (hpc : h.pc = .running) : Step i s h input ⟨s, .handler { h with pc := .leaving }, none⟩
  | skip (hpc : (∃ host peerAddr, h.pc = .pex host peerAddr) ∨ h.pc = .taking []) :
      Step i s h input ⟨s, .handler { h with pc := .running }, none⟩
  | exchange (host peerAddr : Bytes) (hpc : h.pc = .pex host peerAddr) :
      Step i s h input ⟨s, .handler
        { h with pc := .connecting ⟨peerAddr, host, h.link.localIPs, .begun⟩ }, none⟩
  | connect (k : Connect) {s' : Shared} {k' : Connect} {started : Bool}
      (hpc : h.pc = .connecting k) (hk : k.Step s s' k' started) :
      Step i s h input
        ⟨s', .handler { h with pc := if k'.pc = .finished then .running else .connecting k' },
          if started then some (.dial ⟨k.peerAddr, .checking⟩) else none⟩
  | take (m : Mapping) (rest : List Mapping) (hpc : h.pc = .taking (m :: rest)) :
      Step i s h input
        ⟨Handler.take cfg s m input.now input.now', .handler { h with pc := .taking rest }, none⟩
  | leave (hpc : h.pc = .leaving) :
      Step i s h input ⟨h.cleanup i s, .handler { h with pc := .stopping }, none⟩
  | finish (hpc : h.pc = .stopping) :
      Step i s h input
        ⟨{ s with handlersWg := s.handlersWg - 1 }, .handler { h with pc := .stopped }, none⟩

theorem step_next (i : ℕ) (s : Shared) (h : Handler) (input : Input) :
    h.Step cfg i s input (h.next cfg i s input) := by
  cases hpc : h.pc with
  | waiting =>
    simp only [next, hpc]
    split
    · exact .refuse (.inl hpc)
    · exact .greet _ hpc ‹_›
  | checked =>
    simp only [next, hpc]
    split_ifs with hlocked hdone
    · exact .stay
    · exact .refuse (.inr hpc)
    · exact .lock hpc (by simpa using hlocked) (by simpa using hdone)
  | registering =>
    simp only [next, hpc, register]
    -- an outgoing connection is taken out of the active dials, an incoming one is not
    split_ifs
    · exact .enter _ hpc
    · exact .enter _ hpc
    · exact .lose hpc
  | running =>
    simp only [next, hpc]
    split
    · exact .hangUp hpc
    · exact .read _ hpc ‹_›
  | pex host peerAddr =>
    simp only [next, hpc]
    split_ifs
    · exact .stay
    · exact .skip (.inl ⟨host, peerAddr, hpc⟩)
    · exact .exchange host peerAddr hpc
  | connecting k =>
    simp only [next, hpc]
    exact .connect k hpc (k.step_next s input.now)
  | taking mappings =>
    cases mappings with
    | nil =>
      simp only [next, hpc]
      exact .skip (.inr hpc)
    | cons m rest =>
      simp only [next, hpc]
      exact .take m rest hpc
  | leaving =>
    simp only [next, hpc]
    split_ifs
    · exact .stay
    · exact .leave hpc
  | stopping =>
    simp only [next, hpc]
    exact .finish hpc
  | stopped =>
    simp only [next, hpc]
    exact .stay

end Handler

/-- A dial goroutine leaves the table as it is and starts at most the handler of its connection. -/
theorem Dial.next_cases (s : Shared) (d : Dial) (input : Input) :
    (∃ d', (d.next s input).self = .dial d') ∧ (d.next s input).shared.conns = s.conns ∧
      ((d.next s input).started = none ∨
        ∃ link, (d.next s input).started = some (.handler (.new true link))) := by
  obtain ⟨peerAddr, pc⟩ := d
  cases pc with
  | counted link => exact ⟨⟨_, rfl⟩, rfl, .inr ⟨link, rfl⟩⟩
  | dialling =>
    obtain ⟨message, link, now, now'⟩ := input
    cases link <;> exact ⟨⟨_, rfl⟩, rfl, .inl rfl⟩
  | finishing =>
    unfold next
    split_ifs <;> exact ⟨⟨_, rfl⟩, rfl, .inl rfl⟩
  | _ => exact ⟨⟨_, rfl⟩, rfl, .inl rfl⟩

end NextPath.Sync.Manager
