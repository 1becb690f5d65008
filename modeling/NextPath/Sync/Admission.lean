import NextPath.Sync.Shutdown

/-!
# Admission of peers

A connection begins with a handshake. The node checks its token and its UUID in both directions; the
networks of the pool are compared on incoming connections only, so an outgoing connection may be
answered by a node of other networks, whose mappings are then taken over.

* `Welcome`: a handshake of a node that may be admitted;
* `Handler.Vetted`: the invariant of a handler;
* `admitted_only`: a connection whose networks match, if it is an outgoing one, is in the table, and
  moves the pool, the kernel or a dial, only after a first message that is such a handshake;
* `foreign_admitted`: an outgoing connection to a node of another network.
-/

namespace NextPath.Sync.Manager

open Net Pool Goroutines Runs

/-! ## First messages -/

/-- The networks of the handshake are those of the node. -/
def Config.Compatible (cfg : Config) (handshake : SyncHandshake) : Prop :=
  handshake.poolNet = cfg.poolNet ∧ handshake.poolNet6 = cfg.poolNet6

/-- The handshake passes the checks that both directions make. -/
def Config.Authentic (cfg : Config) (handshake : SyncHandshake) : Prop :=
  cfg.checkAuthToken handshake.authToken = true ∧ handshake.uuid ≠ cfg.nodeUUID

/-- The message is a handshake of an authentic and compatible node. -/
def Welcome (cfg : Config) (msg : SyncMessage) : Prop :=
  ∃ handshake ∈ readHandshake msg, cfg.Authentic handshake ∧ cfg.Compatible handshake

/-- The handler of a connection. -/
def handlerAt (w : State) (c : ℕ) : Option Handler :=
  match w.threads[c]? with
  | some (.handler h) => some h
  | _ => none

@[simp] theorem mem_handlerAt {w : State} {c : ℕ} {h : Handler} :
    h ∈ handlerAt w c ↔ w.threads[c]? = some (.handler h) := by
  unfold handlerAt
  split <;> simp_all

/-- The first message that has come on a connection. -/
def firstMessage (w : State) (c : ℕ) : Option SyncMessage := (handlerAt w c).bind (·.received.head?)

/-- The first message on the connection was welcome. -/
def Admitted (cfg : Config) (w : State) (c : ℕ) : Prop := ∃ msg ∈ firstMessage w c, Welcome cfg msg

/-- A first message on the connection, if that is an outgoing one and its handshake authentic, comes
from a node of the same networks. -/
def Matched (cfg : Config) (c : ℕ) (w : State) : Event → Prop
  | .advance i input => i = c → ∀ h ∈ handlerAt w c, h.isOutgoing = true → h.received = [] →
      ∀ msg ∈ input.message, ∀ handshake ∈ readHandshake msg,
        cfg.Authentic handshake → cfg.Compatible handshake
  | _ => True

section Decidability

variable (cfg : Config) (c : ℕ) (w : State)

instance (handshake : SyncHandshake) : Decidable (cfg.Compatible handshake) :=
  inferInstanceAs (Decidable (_ ∧ _))

instance (handshake : SyncHandshake) : Decidable (cfg.Authentic handshake) :=
  inferInstanceAs (Decidable (_ ∧ _))

instance (msg : SyncMessage) : Decidable (Welcome cfg msg) :=
  inferInstanceAs (Decidable (∃ handshake ∈ readHandshake msg, _ ∧ _))

instance : Decidable (Admitted cfg w c) :=
  inferInstanceAs (Decidable (∃ msg ∈ firstMessage w c, Welcome cfg msg))

instance (e : Event) : Decidable (Matched cfg c w e) :=
  match e with
  | .advance i input => inferInstanceAs (Decidable (i = c → ∀ h ∈ handlerAt w c,
      h.isOutgoing = true → h.received = [] → ∀ msg ∈ input.message,
        ∀ handshake ∈ readHandshake msg, cfg.Authentic handshake → cfg.Compatible handshake))
  | .discover .. | .close | .allocate _ => inferInstanceAs (Decidable True)

end Decidability

/-! ## Handlers -/

/-- The handler has accepted its first message and not begun to stop. -/
def HandlerPc.greeted : HandlerPc → Bool
  | waiting | stopping | stopped => false
  | _ => true

theorem HandlerPc.greeted_of_registered {pc : HandlerPc} (h : pc.registered = true) :
    pc.greeted = true := by
  cases pc with
  | waiting | checked | registering | stopping | stopped => cases h
  | _ => rfl

namespace Handler

/-- The first message of the handler was welcome. -/
def Admitted (cfg : Config) (h : Handler) : Prop := ∃ msg ∈ h.received.head?, Welcome cfg msg

/-- A handler that waits for its first message has received none, and one that has accepted it was
right to do so. -/
structure Vetted (cfg : Config) (h : Handler) : Prop where
  fresh : h.pc = .waiting → h.received = []
  admitted : h.pc.greeted = true → h.Admitted cfg

variable {cfg : Config} {i : ℕ} {s : Shared} {h : Handler} {input : Input} {m : Move Shared Thread}

theorem vetted_new (isOutgoing : Bool) (link : Link) : (new isOutgoing link).Vetted cfg :=
  ⟨fun _ => rfl, nofun⟩

/-- A handler that stops. -/
theorem vetted_of_not_greeted (hpc : h.pc = .stopping ∨ h.pc = .stopped) : h.Vetted cfg := by
  rcases hpc with hpc | hpc <;> exact ⟨by simp [hpc], by simp [hpc, HandlerPc.greeted]⟩

/-- What has been received first stays the first. -/
theorem Admitted.append (ha : h.Admitted cfg) (msgs : List SyncMessage) (pc : HandlerPc) :
    Admitted cfg { h with received := h.received ++ msgs, pc } := by
  obtain ⟨msg, hmsg, hwelcome⟩ := ha
  refine ⟨msg, ?_, hwelcome⟩
  simp only [Option.mem_def] at hmsg ⊢
  rw [List.head?_append, hmsg, Option.some_or]

/-- The first message of a handler. -/
theorem vetted_greet (hfresh : h.received = []) (msg : SyncMessage)
    (hmatch : h.isOutgoing = true → ∀ handshake ∈ readHandshake msg,
      cfg.Authentic handshake → cfg.Compatible handshake) :
    Vetted cfg ({ h with received := h.received ++ [msg] }.greet cfg msg) := by
  rcases greet_cases cfg { h with received := h.received ++ [msg] } msg with
    hstop | ⟨handshake, conn, hread, htoken, huuid, hnets, hchecked⟩
  · rw [hstop]
    exact vetted_of_not_greeted (.inl rfl)
  · rw [hchecked]
    have hcompatible : cfg.Compatible handshake := by
      cases hout : h.isOutgoing with
      | false => exact hnets hout
      | true => exact hmatch hout handshake hread ⟨htoken, huuid⟩
    refine ⟨nofun, fun _ => ⟨msg, ?_, handshake, hread, ⟨htoken, huuid⟩, hcompatible⟩⟩
    simp [hfresh]

/-- **A step of a handler keeps it vetted.** -/
theorem Step.vetted (hm : h.Step cfg i s input m) (hv : h.Vetted cfg)
    (hmatch : h.isOutgoing = true → h.received = [] → ∀ msg ∈ input.message,
      ∀ handshake ∈ readHandshake msg, cfg.Authentic handshake → cfg.Compatible handshake) :
    ∃ h', m.self = .handler h' ∧ h'.Vetted cfg := by
  -- a step to a place past the first message, from one that is past it too
  have hgo (hpc : h.pc.greeted = true) (msgs : List SyncMessage) (pc : HandlerPc)
      (hpc' : pc ≠ .waiting) : Vetted cfg { h with received := h.received ++ msgs, pc } :=
    ⟨fun hw => absurd hw hpc', fun _ => (hv.admitted hpc).append msgs pc⟩
  have hgo' (hpc : h.pc.greeted = true) (pc : HandlerPc) (hpc' : pc ≠ .waiting) :
      Vetted cfg { h with pc } := by simpa using hgo hpc [] pc hpc'
  cases hm with
  | stay => exact ⟨h, rfl, hv⟩
  | greet msg hpc hmsg =>
    have hfresh := hv.fresh hpc
    exact ⟨_, rfl, vetted_greet hfresh msg fun hout => hmatch hout hfresh msg hmsg⟩
  | refuse => exact ⟨_, rfl, vetted_of_not_greeted (.inl rfl)⟩
  | lock hpc => exact ⟨_, rfl, hgo' (by rw [hpc]; rfl) _ nofun⟩
  | enter _ hpc => exact ⟨_, rfl, hgo' (by rw [hpc]; rfl) _ nofun⟩
  | lose => exact ⟨_, rfl, vetted_of_not_greeted (.inl rfl)⟩
  | read msg hpc _ =>
    refine ⟨_, rfl, hgo (by rw [hpc]; rfl) [msg] _ fun hw => ?_⟩
    have hreg := HandlerPc.registered_dispatch msg
    rw [hw] at hreg
    cases hreg
  | hangUp hpc => exact ⟨_, rfl, hgo' (by rw [hpc]; rfl) _ nofun⟩
  | skip hpc =>
    refine ⟨_, rfl, hgo' ?_ _ nofun⟩
    rcases hpc with ⟨host, peerAddr, hpc⟩ | hpc <;> rw [hpc] <;> rfl
  | exchange host peerAddr hpc => exact ⟨_, rfl, hgo' (by rw [hpc]; rfl) _ nofun⟩
  | connect k hpc hk =>
    refine ⟨_, rfl, hgo' (by rw [hpc]; rfl) _ ?_⟩
    split_ifs <;> exact nofun
  | take m rest hpc => exact ⟨_, rfl, hgo' (by rw [hpc]; rfl) _ nofun⟩
  | leave => exact ⟨_, rfl, vetted_of_not_greeted (.inl rfl)⟩
  | finish => exact ⟨_, rfl, vetted_of_not_greeted (.inr rfl)⟩

/-- **What a handler does before it has accepted its first message, and when it stops**: nothing to
the table, the pool, the kernel and the dials. -/
theorem Step.idle (hm : h.Step cfg i s input m) (hpc : h.pc.greeted = false) :
    m.shared.conns = s.conns ∧ m.shared.pool = s.pool ∧ m.shared.kernel = s.kernel ∧
      m.shared.activeDials = s.activeDials ∧ m.shared.dialWg = s.dialWg ∧ m.started = none := by
  -- the other steps are made in other places
  have hnot {pc : HandlerPc} (hat : h.pc = pc) (hgreeted : pc.greeted = true) : False := by
    rw [hat, hgreeted] at hpc
    cases hpc
  cases hm with
  | stay | greet | refuse | finish => exact ⟨rfl, rfl, rfl, rfl, rfl, rfl⟩
  | lock hat => exact (hnot hat rfl).elim
  | enter _ hat => exact (hnot hat rfl).elim
  | lose hat => exact (hnot hat rfl).elim
  | read _ hat => exact (hnot hat rfl).elim
  | hangUp hat => exact (hnot hat rfl).elim
  | skip hat =>
    rcases hat with ⟨host, peerAddr, hat⟩ | hat
    · exact (hnot hat rfl).elim
    · exact (hnot hat rfl).elim
  | exchange _ _ hat => exact (hnot hat rfl).elim
  | connect _ hat => exact (hnot hat rfl).elim
  | take _ _ hat => exact (hnot hat rfl).elim
  | leave hat => exact (hnot hat rfl).elim

end Handler

/-! ## The manager -/

/-- A handler stays a handler. -/
theorem Thread.handler_of_self {cfg : Config} {i : ℕ} {s : Shared} {t : Thread} {input : Input}
    {h : Handler} (hself : (t.next cfg i s input).self = .handler h) : ∃ h', t = .handler h' := by
  cases t with
  | accepting =>
    simp only [next] at hself
    split at hself
    · split_ifs at hself
    · cases hself
  | dial d =>
    obtain ⟨d', hd⟩ := (d.next_cases s input).1
    cases hd.symm.trans hself
  | handler h' => exact ⟨h', rfl⟩
  | _ => cases hself

/-- A handler that is started is a new one. -/
theorem Thread.vetted_started {cfg : Config} {i : ℕ} {s : Shared} {t : Thread} {input : Input}
    {h : Handler} (hstarted : (t.next cfg i s input).started = some (.handler h)) :
    h.Vetted cfg := by
  cases t with
  | accepting =>
    simp only [next] at hstarted
    split at hstarted <;> cases hstarted
  | counted link =>
    obtain rfl := Thread.handler.inj (Option.some.inj hstarted)
    exact Handler.vetted_new false link
  | discovery k =>
    simp only [next] at hstarted
    split_ifs at hstarted
    cases hstarted
  | dial d =>
    rcases (d.next_cases s input).2.2 with hnone | ⟨link, hnew⟩
    · cases hnone.symm.trans hstarted
    · cases hnew.symm.trans hstarted
      exact Handler.vetted_new true link
  | handler h' =>
    have hm := h'.step_next cfg i s input
    simp only [next] at hstarted
    generalize h'.next cfg i s input = m at hm hstarted
    cases hm with
    | connect k hpc hk =>
      simp only at hstarted
      split_ifs at hstarted
      cases hstarted
    | _ => cases hstarted
  | _ => cases hstarted

/-- The handler of the connection, if there is one, is vetted. -/
def VettedAt (cfg : Config) (c : ℕ) (w : State) : Prop :=
  ∀ h ∈ handlerAt w c, h.Vetted cfg

namespace VettedAt

variable {cfg : Config} {c : ℕ} {w : State}

/-- **One step keeps the handler vetted.** -/
theorem step (hv : VettedAt cfg c w) {e : Event} (hmatch : Matched cfg c w e) :
    VettedAt cfg c (step cfg w e) := by
  intro h hmem
  have hthread := mem_handlerAt.1 hmem
  cases e with
  | advance i input =>
    rcases World.getElem?_advance hthread with ⟨-, hin⟩ | ⟨t, ht, ⟨rfl, hself⟩ | ⟨-, hstarted⟩⟩
    · exact hv h (mem_handlerAt.2 hin)
    · -- the handler itself has made the step
      obtain ⟨h', rfl⟩ := Thread.handler_of_self hself.symm
      have hbefore := mem_handlerAt.2 ht
      obtain ⟨h'', hmoved, hvetted⟩ :=
        (h'.step_next cfg c w.shared input).vetted (hv h' hbefore) (hmatch rfl h' hbefore)
      obtain rfl : h = h'' := Thread.handler.inj (hself.trans hmoved)
      exact hvetted
    · exact Thread.vetted_started hstarted
  | discover peerAddr host localIPs =>
    rcases World.getElem?_start hthread with hin | ⟨-, hnew⟩
    · exact hv h (mem_handlerAt.2 hin)
    · cases hnew
  | close => exact hv h hmem
  | allocate pool => exact hv h hmem

end VettedAt

/-- After the step the connection is in the table, or the step is one of its handler and changes the
pool, the kernel or the dials. -/
def Acts (cfg : Config) (c : ℕ) (w : State) (e : Event) : Prop :=
  let w' := step cfg w e
  (∃ addr sc, w'.shared.conns.lookup addr = some (c, sc)) ∨
    ∃ input, ∃ h ∈ handlerAt w c, e = .advance c input ∧
      (w'.shared.pool ≠ w.shared.pool ∨ w'.shared.kernel ≠ w.shared.kernel ∨
        w'.shared.activeDials ≠ w.shared.activeDials ∨ w'.shared.dialWg ≠ w.shared.dialWg ∨
        w'.threads.length ≠ w.threads.length)

/-- A handler that acts has accepted its first message. -/
theorem Acts.greeted {cfg : Config} {c : ℕ} {w : State} {e : Event} (hw : Sound w)
    (ha : Acts cfg c w e) : ∃ h ∈ handlerAt w c, h.pc.greeted = true := by
  rcases ha with ⟨addr, sc, hin⟩ | ⟨input, h, hmem, rfl, hchanged⟩
  · rcases lookup_conns_step hin with hbefore | ⟨input, h, -, ht, hpc⟩
    · obtain ⟨h, ht, -, hreg⟩ := hw.entry addr c sc hbefore
      exact ⟨h, mem_handlerAt.2 ht, HandlerPc.greeted_of_registered hreg⟩
    · exact ⟨h, mem_handlerAt.2 ht, by rw [hpc]; rfl⟩
  · refine ⟨h, hmem, ?_⟩
    have ht := mem_handlerAt.1 hmem
    by_contra hnot
    obtain ⟨-, hpool, hkernel, hdials, hcount, hstarted⟩ :=
      (h.step_next cfg c w.shared input).idle (by simpa using hnot)
    simp only [step, World.advance_of_some ht, Thread.next] at hchanged
    simp [hpool, hkernel, hdials, hcount, hstarted] at hchanged

/-- **Only authentic and compatible peers are admitted, if the outgoing connections lead to
compatible ones.** In every run in which the first message on the connection, if that is an outgoing
one and its handshake authentic, comes from a node of the same networks: at every step after which
the connection is in the table, and at every step of its handler that changes the pool, the kernel
or the dials, its first message was a welcome one. -/
theorem admitted_only (cfg : Config) (pool : IPPool) (c : ℕ) (events : List Event)
    (hmatch : Along (step cfg) (Matched cfg c) (start pool) events) :
    Along (step cfg) (fun w e => Acts cfg c w e → Admitted cfg w c) (start pool) events := by
  have hkept (w : State) (e : Event) (hw : Sound w ∧ VettedAt cfg c w) (he : Matched cfg c w e) :
      Sound (step cfg w e) ∧ VettedAt cfg c (step cfg w e) :=
    ⟨hw.1.step cfg e, hw.2.step he⟩
  have hstart : VettedAt cfg c (start pool) := by
    intro h hmem
    have hthread := List.mem_of_getElem? (mem_handlerAt.1 hmem)
    simp [start] at hthread
  intro x hx hacts
  obtain ⟨hsound, hvetted⟩ := invariant_along hkept ⟨Sound.start pool, hstart⟩ hmatch x hx
  obtain ⟨h, ht, hgreeted⟩ := hacts.greeted hsound
  obtain ⟨msg, hmsg, hwelcome⟩ := (hvetted h ht).admitted hgreeted
  exact ⟨msg, Option.mem_bind_iff.2 ⟨h, ht, hmsg⟩, hwelcome⟩

/-! ## An outgoing connection -/

/-- A pool of sixteen addresses of each family. -/
def smallPool : IPPool := newIPPoolWithConfig [] [] ⟨16, 16⟩

/-- The node of that pool. -/
def smallConfig : Config :=
  ⟨1, str "secret", smallPool.getPoolNet, smallPool.getPoolNet6, .ofPool smallPool.toPoolRange⟩

/-- The node dials a peer, which answers with a handshake and sends a mapping. Goroutine 0 is the
accept loop, 1 the call of `tryConnect`, 2 the dial and 3 the handler. -/
def outgoingRun (answer : SyncHandshake) : List Event :=
  let quiet : Input := ⟨none, none, 0, 0⟩
  let hear (msg : SyncMessage) : Input := ⟨some msg, none, 0, 0⟩
  [.discover (str "10.0.0.2:4443") (str "10.0.0.2") [],
    .advance 1 quiet, .advance 1 quiet, .advance 1 quiet, .advance 1 quiet,
    .advance 2 quiet, .advance 2 ⟨none, some ⟨some [10, 0, 0, 2], [], []⟩, 0, 0⟩, .advance 2 quiet,
    .advance 2 quiet, .advance 2 quiet,
    .advance 3 (hear ⟨msgTypeHandshake, some answer, [], 0, []⟩), .advance 3 quiet,
    .advance 3 quiet,
    .advance 3 (hear ⟨msgTypeMappings, none, [], 0, [⟨[198, 18, 0, 2], [9, 9, 9, 9], 7⟩]⟩),
    .advance 3 quiet]

/-- The peer has the networks of the node: it is admitted, and its mapping is taken over. -/
theorem admitted_only_friend :
    let friend : SyncHandshake :=
      ⟨2, 4443, smallPool.getPoolNet, smallPool.getPoolNet6, str "secret"⟩
    (run (step smallConfig) (start smallPool) (outgoingRun friend)).shared.kernel =
        [⟨[198, 18, 0, 2], [9, 9, 9, 9], mappingTTL⟩] ∧
      Along (step smallConfig) (fun w e => Acts smallConfig 3 w e → Admitted smallConfig w 3)
        (start smallPool) (outgoingRun friend) :=
  ⟨by decide +kernel, admitted_only smallConfig smallPool 3 _ (by decide +kernel)⟩

/-- **A node of another network is admitted on an outgoing connection**: its handshake names other
networks, and yet the connection is in the table, and its mapping is in the pool and has been given
to the kernel. -/
theorem foreign_admitted :
    let foreign : SyncHandshake := ⟨2, 4443, str "10.64.0.0/28", str "fd00:99::/124", str "secret"⟩
    let w := run (step smallConfig) (start smallPool) (outgoingRun foreign)
    firstMessage w 3 = some ⟨msgTypeHandshake, some foreign, [], 0, []⟩ ∧
      ¬ Admitted smallConfig w 3 ∧
      (w.shared.conns.lookup (str "10.0.0.2:4443")).map Prod.fst = some 3 ∧
      w.shared.pool.globalFakeToReal.lookup (toIPKey [198, 18, 0, 2]) =
        some (toIPKey [9, 9, 9, 9]) ∧
      w.shared.kernel = [⟨[198, 18, 0, 2], [9, 9, 9, 9], mappingTTL⟩] := by
  decide +kernel

end NextPath.Sync.Manager
