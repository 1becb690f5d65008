import NextPath.Foundations.Runs
import NextPath.Netlink.Batch
import NextPath.Sync.Receive

/-!
# The pool and the kernel map

A node binds fakes to reals twice: in the pool, and in the kernel map that rewrites the packets.
Only additions are passed on to the kernel; each side forgets an entry by a timer of its own, and
traffic keeps the kernel's entry alive, or makes it anew. An addition that the kernel refuses
because the fake is bound to another real ("file exists") counts as done.

The events of a node are the sections of its calls and the steps of the kernel. It remembers which
pairs its calls have handed out, which may be written, and for which of them the write has been
answered without an error.

* `realOf_step`: what an event can bind in the pool.
* `find_step`: what an event can bind in the kernel.
* `mem_answered_step`: which writes an event answers.
* `Agrees.step`: agreement is kept where a write finds neither side at odds with it.
-/

namespace NextPath.Netlink

open Net Pool Sync Runs

/-! ## The node -/

/-- A fake and the real it stands for. -/
abbrev Pair := IPKey × IPKey

/-- The pair of an operation. -/
def MappingOp.pair (op : MappingOp) : Pair := (toIPKey op.fakeIP, toIPKey op.realIP)

/-- What is fixed while the node runs. -/
structure Config where
  nets : Subnets
  enableIPv6 : Bool

structure Node where
  pool : IPPool
  kernel : Kernel
  /-- The channel to the worker. -/
  batchCh : List MappingOp
  /-- The pairs that calls of the pool have handed out. -/
  handed : List Pair
  /-- The pairs whose write was answered without an error. -/
  answered : List Pair

/-- A node that starts with the pool and the kernel map it finds. -/
def Node.start (pool : IPPool) (kernel : Kernel) : Node := ⟨pool, kernel, [], [], []⟩

/-- A packet of a connection that the map has translated: the fake, which was a key of the map, and
the address that the packet goes to. -/
structure Translated where
  fake : Bytes
  dest : Bytes
  wellFormed : IP.WellFormed fake
  normal : normalizeIP fake = fake
  family : dest.length = fake.length

inductive Event
  /-- A look at a real under the read lock, in `GetFakeIPsForReals`. -/
  | peek (realIP : IP) (now : Time)
  /-- The section under the locks: an allocation, or the extension of a lease. -/
  | secure (realIP : IP) (isIPv6 : Bool) (now clk : Time)
  /-- A removal of a roll-back. -/
  | remove (realIP fakeIP : IP)
  | prune (now : Time) (order : Fin 64 → List IPKey)
  /-- A mapping of a peer. -/
  | receive (m : Mapping) (t t' : Time)
  /-- A call of `NFTClient.AddMapping` puts its operation in the channel. -/
  | push (op : MappingOp)
  /-- The worker takes `size` operations from the channel and flushes them. -/
  | flush (size : ℕ) (now : Time) (link link' : Link) (reconnected : Bool)
  /-- The timer of a kernel entry. -/
  | timeout (key : Bytes) (now : Time)
  /-- Traffic through a fake: a packet passes the rules with `update`. -/
  | passes (packet : Translated) (now : Time)

variable (cfg : Config)

/-- The pair an event binds in the pool. -/
def Event.binds (n : Node) : Event → Option Pair
  | .secure realIP isIPv6 now clk =>
    match (n.pool.secure realIP isIPv6 now clk).2 with
    | .allocated info => some (toIPKey info.ip, toIPKey realIP)
    | _ => none
  | .receive m t t' =>
    if (Sync.receive cfg.nets n.pool m t t').2 then some (toIPKey m.fakeIP, toIPKey m.realIP)
    else none
  | _ => none

/-- The pair an event hands out. -/
def Event.hands (n : Node) : Event → Option Pair
  | .peek realIP now => (n.pool.peek now realIP).map fun fake => (fake, toIPKey realIP)
  | .secure realIP isIPv6 now clk =>
    match (n.pool.secure realIP isIPv6 now clk).2 with
    | .existing fake => some (fake, toIPKey realIP)
    | .allocated info => some (toIPKey info.ip, toIPKey realIP)
    | .exhausted => none
  | .receive m t t' => (Event.receive m t t').binds cfg n
  | _ => none

/-- The operations an event flushes. -/
def Event.batch (n : Node) : Event → List MappingOp
  | .flush size _ _ _ _ => n.batchCh.take size
  | _ => []

/-- The entries an event can make in the kernel map. -/
def Event.writes (n : Node) (e : Event) : List (Bytes × Bytes) :=
  match e with
  | .flush .. => (elements cfg.enableIPv6 (e.batch n)).map fun el => (el.key, el.val)
  | .passes packet now =>
    if n.kernel.look now packet.fake = none then [(packet.fake, packet.dest)] else []
  | _ => []

/-- The pairs whose write an event answers without an error: those of a batch that is flushed, and,
where IPv6 is off, that of an IPv6 fake at once. -/
def Event.answers (n : Node) (e : Event) : List Pair :=
  match e with
  | .push op =>
    if op.fakeIP ≠ [] ∧ op.realIP ≠ [] ∧ cfg.enableIPv6 = false ∧ op.fakeIP.to4 = [] then [op.pair]
    else []
  | .flush _ now link link' reconnected =>
    if (Netlink.flush cfg.enableIPv6 now n.kernel (e.batch n) link link' reconnected).2 = none then
      (e.batch n).map MappingOp.pair
    else []
  | _ => []

/-- `NFTClient.AddMapping` until it waits for its answer. An IPv6 fake is answered at once where
IPv6 is off; a call with no address, or with the channel full, is answered with an error. -/
def push (n : Node) (op : MappingOp) : Node :=
  if op.fakeIP = [] ∨ op.realIP = [] then n
  else if !cfg.enableIPv6 ∧ op.fakeIP.to4 = [] then { n with answered := op.pair :: n.answered }
  else if n.batchCh.length < batchChanSize then { n with batchCh := n.batchCh ++ [op] }
  else n

def step (n : Node) (e : Event) : Node :=
  match e with
  | .peek _ _ => { n with handed := (e.hands cfg n).toList ++ n.handed }
  | .secure realIP isIPv6 now clk =>
    { n with
      pool := (n.pool.secure realIP isIPv6 now clk).1
      handed := (e.hands cfg n).toList ++ n.handed }
  | .remove realIP fakeIP => { n with pool := n.pool.removeMapping realIP fakeIP }
  | .prune now order => { n with pool := n.pool.pruneExpired now order }
  | .receive m t t' =>
    { n with
      pool := (Sync.receive cfg.nets n.pool m t t').1
      handed := (e.hands cfg n).toList ++ n.handed }
  | .push op => push cfg n op
  | .flush size now link link' reconnected =>
    let out := flush cfg.enableIPv6 now n.kernel (e.batch n) link link' reconnected
    { n with
      kernel := out.1
      batchCh := n.batchCh.drop size
      answered :=
        if out.2 = none then (e.batch n).map MappingOp.pair ++ n.answered else n.answered }
  | .timeout key now => { n with kernel := n.kernel.timeout key now }
  | .passes packet now => { n with kernel := n.kernel.update now packet.fake packet.dest }

/-- A pair is written after it has been handed out; a batch has up to 256 operations. -/
def Allowed (n : Node) : Event → Prop
  | .push op => op.pair ∈ n.handed
  | .flush size _ _ _ _ => size ≤ batchMaxSize
  | _ => True

instance (n : Node) : (e : Event) → Decidable (Allowed n e)
  | .push op => inferInstanceAs (Decidable (op.pair ∈ n.handed))
  | .flush size _ _ _ _ => inferInstanceAs (Decidable (size ≤ batchMaxSize))
  | .peek .. | .secure .. | .remove .. | .prune .. | .receive .. | .timeout .. | .passes .. =>
    inferInstanceAs (Decidable True)

/-! ## Agreement -/

/-- The kernel does not bind the fake of the pair to another real. -/
def KernelFits (k : Kernel) (pair : Pair) : Prop :=
  ∀ val ∈ k.find (normalizeIP pair.1.toIP), toIPKey val = pair.2

instance (k : Kernel) (pair : Pair) : Decidable (KernelFits k pair) :=
  inferInstanceAs (Decidable (∀ val ∈ k.find _, _))

/-- The kernel does not contradict the pool about a pair whose write has been answered. -/
def Agrees (n : Node) : Prop :=
  ∀ pair ∈ n.answered, n.pool.realOf pair.1 = some pair.2 → KernelFits n.kernel pair

/-- Neither side is at odds with what is written. No entry is made in the kernel, by a batch or by a
packet, for a fake that the pool binds to another real; when the write of a pair that the pool has
is answered, and when the pool binds a pair whose write has been answered before, the kernel does
not bind the fake to another real. -/
def Clean (n : Node) (e : Event) : Prop :=
  (∀ w ∈ e.writes cfg n, ∀ r ∈ n.pool.realOf (toIPKey w.1), r = toIPKey w.2) ∧
  (∀ pair ∈ e.answers cfg n, n.pool.realOf pair.1 = some pair.2 → KernelFits n.kernel pair) ∧
  ∀ pair ∈ n.answered, e.binds cfg n = some pair → KernelFits n.kernel pair

instance (n : Node) (e : Event) : Decidable (Clean cfg n e) :=
  inferInstanceAs (Decidable ((∀ w ∈ e.writes cfg n, _) ∧ (∀ pair ∈ e.answers cfg n, _ → _) ∧
    ∀ pair ∈ n.answered, _ → _))

/-! ## The two maps -/

/-- A key of the kernel map is that of one fake. -/
theorem toIPKey_normalizeIP_toIP (f : IPKey) : toIPKey (normalizeIP f.toIP) = f := by
  rw [toIPKey_normalizeIP f.wellFormed_toIP, toIPKey_toIP]

theorem length_normalizeIP_toIP {f : IPKey} (h : f.isIPv6 = true) :
    (normalizeIP f.toIP).length = 16 := by
  have h4 : f.toIP.to4 = [] := by
    rw [← toIPKey_toIP f, isIPv6_toIPKey] at h
    exact of_decide_eq_true h
  rw [normalizeIP, if_neg (not_not.2 h4), f.to16_toIP, f.length_toIP]

/-- What is bound in the pool after an event was bound before or is what the event binds. -/
theorem realOf_step {n : Node} {e : Event} {f r : IPKey}
    (h : (step cfg n e).pool.realOf f = some r) :
    n.pool.realOf f = some r ∨ e.binds cfg n = some (f, r) := by
  cases e with
  | secure realIP isIPv6 now clk =>
    rcases secure_effect n.pool realIP isIPv6 now clk with ⟨-, hfewer⟩ | ⟨info, hout, -, -, hbinds⟩
    · exact .inl (hfewer.realOf f r h)
    · rcases hbinds.realOf f r h with ⟨rfl, rfl⟩ | h
      · exact .inr (by simp only [Event.binds, hout])
      · exact .inl h
  | remove realIP fakeIP => exact .inl ((Fewer.removeMapping ..).realOf f r h)
  | prune now order => exact .inl ((Fewer.pruneExpired ..).realOf f r h)
  | receive m t t' =>
    rcases receive_effect cfg.nets n.pool m t t' with heq | heq | ⟨hok, hbinds⟩
    · rw [step, heq] at h
      exact .inl h
    · rw [step, heq] at h
      exact .inl h
    · rcases hbinds.realOf f r h with ⟨rfl, rfl⟩ | h
      · exact .inr (by simp only [Event.binds, hok, if_true])
      · exact .inl h
  | push op =>
    simp only [step, push] at h
    split_ifs at h <;> exact .inl h
  | _ => exact .inl h

/-- An event that writes or answers leaves the pool alone. -/
theorem pool_step {n : Node} {e : Event} (h : e.writes cfg n ≠ [] ∨ e.answers cfg n ≠ []) :
    (step cfg n e).pool = n.pool := by
  cases e with
  | flush size now link link' reconnected => rfl
  | passes packet now => rfl
  | push op =>
    simp only [step, push]
    split_ifs <;> rfl
  | _ => rcases h with h | h <;> exact absurd rfl h

/-- What is bound in the kernel after an event was bound before or is written by it. -/
theorem find_step {n : Node} {e : Event} {key val : Bytes}
    (h : (step cfg n e).kernel.find key = some val) :
    n.kernel.find key = some val ∨ (key, val) ∈ e.writes cfg n := by
  cases e with
  | flush size now link link' reconnected =>
    refine (find_flush h).imp_right ?_
    rintro ⟨op, hop, el, hel, rfl, rfl⟩
    exact List.mem_map.2 ⟨el, mem_elements.2 ⟨op, hop, hel⟩, rfl⟩
  | timeout key' now => exact .inl (Kernel.find_timeout h)
  | passes packet now =>
    refine (Kernel.find_update h).imp_right ?_
    rintro ⟨hgone, rfl, rfl⟩
    simp [Event.writes, hgone]
  | push op =>
    simp only [step, push] at h
    split_ifs at h <;> exact .inl h
  | _ => exact .inl h

/-- What has been answered after an event was answered before or is answered by it. -/
theorem mem_answered_step {n : Node} {e : Event} {pair : Pair}
    (h : pair ∈ (step cfg n e).answered) : pair ∈ n.answered ∨ pair ∈ e.answers cfg n := by
  cases e with
  | flush size now link link' reconnected =>
    simp only [step] at h
    split_ifs at h with hnone
    · refine (List.mem_append.1 h).symm.imp_right fun h => ?_
      rwa [Event.answers, if_pos hnone]
    · exact .inl h
  | push op =>
    simp only [step, push] at h
    split_ifs at h with hnil hoff hfull
    · exact .inl h
    · rcases List.mem_cons.1 h with rfl | h
      · rw [not_or] at hnil
        refine .inr ?_
        rw [Event.answers, if_pos ⟨hnil.1, hnil.2, by simpa using hoff.1, hoff.2⟩]
        exact List.mem_singleton.2 rfl
      · exact .inl h
    · exact .inl h
    · exact .inl h
  | _ => exact .inl h

/-- **One clean event keeps the agreement.** -/
theorem Agrees.step {n : Node} (hn : Agrees n) {e : Event} (hclean : Clean cfg n e) :
    Agrees (step cfg n e) := by
  obtain ⟨hwrites, hanswers, hbinds⟩ := hclean
  intro pair hans hreal val hfind
  rcases find_step cfg hfind with hold | hwritten
  · -- the entry was there before: was the pair answered, or bound, only now?
    rcases mem_answered_step cfg hans with hbefore | hnow
    · rcases realOf_step cfg hreal with hreal | hbind
      · exact hn pair hbefore hreal val hold
      · exact hbinds pair hbefore hbind val hold
    · rw [pool_step cfg (.inr (List.ne_nil_of_mem hnow))] at hreal
      exact hanswers pair hnow hreal val hold
  · -- the entry is made now, and the pool does not bind its fake to another real
    rw [pool_step cfg (.inl (List.ne_nil_of_mem hwritten))] at hreal
    refine (hwrites _ hwritten pair.2 ?_).symm
    rw [toIPKey_normalizeIP_toIP]
    exact hreal

/-- A packet to 198.18.0.1 on its way to 1.1.1.3. -/
def samplePacket : Translated where
  fake := [198, 18, 0, 1]
  dest := [1, 1, 1, 3]
  wellFormed := .inl rfl
  normal := by decide
  family := rfl

end NextPath.Netlink
