import NextPath.Sync.Tokens

/-!
# Shutdown

`Close` closes the channel `done`, goes over the table of connections under the lock, and waits for
the accept loop, for the dial goroutines and for the handlers, in this order. What makes the order
right is what a goroutine must hold to take up a token of each counter: after the sweep no goroutine
holds the lock, so no dial is counted any more; and when the accept loop and the dials are over, no
handler is.

* `Sound`: the invariant;
* `Sound.step`: every step keeps it;
* `shutdown_complete`: nothing is registered after the sweep, and when `Close` has returned, no dial
  goroutine and no handler is running and the table is empty.
-/

namespace NextPath.Sync.Manager

open Net Pool Goroutines Runs

/-! ## The steps of `Close` -/

/-- How far `Close` is, as a number. -/
def Closing.rank : Closing → ℕ
  | idle => 0
  | closed => 1
  | swept => 2
  | acceptWaited => 3
  | dialsWaited => 4
  | returned => 5

theorem Shared.done_of_rank {s : Shared} (h : 2 ≤ s.closing.rank) : s.done = true := by
  simp only [done, decide_eq_true_eq]
  rintro hidle
  rw [hidle] at h
  exact absurd h (by decide)

/-- **`Close` goes on only when what it waits for is over.** -/
theorem Shared.close_cases (s : Shared) :
    s.close = s ∨ ∃ c, s.close = { s with closing := c } ∧ c.rank = s.closing.rank + 1 ∧
      (c.rank = 2 → s.locked = false) ∧ (c.rank = 3 → s.acceptWg = 0) ∧
      (c.rank = 4 → s.dialWg = 0) ∧ (c.rank = 5 → s.handlersWg = 0) := by
  unfold close
  cases s.closing with
  | idle => exact .inr ⟨.closed, rfl, rfl, by simp [Closing.rank]⟩
  | closed =>
    by_cases hlocked : s.locked = true
    · exact .inl (if_pos hlocked)
    · exact .inr ⟨.swept, if_neg hlocked, rfl, by simpa [Closing.rank] using hlocked⟩
  | swept =>
    by_cases hzero : s.acceptWg = 0
    · exact .inr ⟨.acceptWaited, if_pos hzero, rfl, by simpa [Closing.rank] using hzero⟩
    · exact .inl (if_neg hzero)
  | acceptWaited =>
    by_cases hzero : s.dialWg = 0
    · exact .inr ⟨.dialsWaited, if_pos hzero, rfl, by simpa [Closing.rank] using hzero⟩
    · exact .inl (if_neg hzero)
  | dialsWaited =>
    by_cases hzero : s.handlersWg = 0
    · exact .inr ⟨.returned, if_pos hzero, rfl, by simpa [Closing.rank] using hzero⟩
    · exact .inl (if_neg hzero)
  | returned => exact .inl rfl

/-! ## The table of connections -/

/-- Only handlers change the table. -/
theorem conns_next_of_not_handler {cfg : Config} {i : ℕ} {s : Shared} {t : Thread} (input : Input)
    (h : ∀ h, t ≠ .handler h) : (t.next cfg i s input).shared.conns = s.conns := by
  cases t with
  | accepting =>
    simp only [Thread.next]
    split <;> rfl
  | accepted link => rfl
  | counted link => rfl
  | returning => rfl
  | returned => rfl
  | discovery k =>
    have hk := k.step_next s input.now
    simp only [Thread.next]
    generalize k.next s input.now = out at hk ⊢
    obtain ⟨s', k', started⟩ := out
    cases hk <;> rfl
  | dial d => exact (d.next_cases s input).2.1
  | handler h' => exact absurd rfl (h h')

/-- **The entries after a step of a handler**: those of other handlers, as they were, and its own,
if it is registered. -/
theorem Handler.Step.entry {cfg : Config} {i : ℕ} {s : Shared} {h : Handler}
    {input : Input} {m : Move Shared Thread} (hm : h.Step cfg i s input m)
    (hown : ∀ addr sc, s.conns.lookup addr = some (i, sc) →
      h.conn.selfAddr = addr ∧ h.pc.registered = true)
    {addr : Bytes} {c : ℕ} {sc : SafeConn} (hc : m.shared.conns.lookup addr = some (c, sc)) :
    (c ≠ i ∧ s.conns.lookup addr = some (c, sc)) ∨
      c = i ∧ ∃ h', m.self = .handler h' ∧ h'.conn.selfAddr = addr ∧ h'.pc.registered = true := by
  -- a handler that is not registered has no entry of its own
  have hother (hnot : h.pc.registered = false) (hc : s.conns.lookup addr = some (c, sc)) :
      c ≠ i := by
    rintro rfl
    have hreg := (hown addr sc hc).2
    rw [hnot] at hreg
    cases hreg
  -- a step that keeps the table, and keeps the handler registered if it was
  have hkept {s' : Shared} {h' : Handler} {u : Option Thread} (hs : s'.conns = s.conns)
      (hc : s'.conns.lookup addr = some (c, sc)) (hconn : h'.conn.selfAddr = h.conn.selfAddr)
      (hreg : h.pc.registered = true → h'.pc.registered = true) :
      (c ≠ i ∧ s.conns.lookup addr = some (c, sc)) ∨ c = i ∧ ∃ h'', Move.self ⟨s', .handler h', u⟩ =
        .handler h'' ∧ h''.conn.selfAddr = addr ∧ h''.pc.registered = true := by
    rw [hs] at hc
    by_cases hci : c = i
    · subst hci
      obtain ⟨haddr, hin⟩ := hown addr sc hc
      exact .inr ⟨rfl, h', rfl, hconn.trans haddr, hreg hin⟩
    · exact .inl ⟨hci, hc⟩
  cases hm with
  | stay => exact hkept rfl hc rfl id
  | greet msg hpc _ => exact .inl ⟨hother (by rw [hpc]; rfl) hc, hc⟩
  | refuse hpc => exact .inl ⟨hother (by rcases hpc with hpc | hpc <;> rw [hpc] <;> rfl) hc, hc⟩
  | lock hpc hfree hopen => exact .inl ⟨hother (by rw [hpc]; rfl) hc, hc⟩
  | enter activeDials hpc =>
    simp only [Map.lookup_insert_ite] at hc
    split_ifs at hc with haddr
    · obtain ⟨rfl, rfl⟩ := Prod.mk.injEq .. ▸ Option.some.inj hc
      exact .inr ⟨rfl, _, rfl, haddr.symm, rfl⟩
    · exact .inl ⟨hother (by rw [hpc]; rfl) hc, hc⟩
  | lose hpc => exact .inl ⟨hother (by rw [hpc]; rfl) hc, hc⟩
  | read msg hpc _ => exact hkept rfl hc rfl fun _ => HandlerPc.registered_dispatch msg
  | hangUp hpc => exact hkept rfl hc rfl fun _ => rfl
  | skip hpc => exact hkept rfl hc rfl fun _ => rfl
  | exchange host peerAddr hpc => exact hkept rfl hc rfl fun _ => rfl
  | connect k hpc hk =>
    refine hkept (by cases hk <;> rfl) hc rfl fun _ => ?_
    split_ifs <;> rfl
  | take m rest hpc => exact hkept rfl hc rfl fun _ => rfl
  | leave hpc =>
    simp only [cleanup] at hc
    split_ifs at hc with hmine
    · simp only [Map.lookup_erase_ite] at hc
      split_ifs at hc with haddr
      refine .inl ⟨?_, hc⟩
      rintro rfl
      exact haddr (hown addr sc hc).1.symm
    · refine .inl ⟨?_, hc⟩
      rintro rfl
      rw [(hown addr sc hc).1, hc] at hmine
      simp at hmine
  | finish hpc => exact .inl ⟨hother (by rw [hpc]; rfl) hc, hc⟩

/-- A handler adds no entry but its own, and that while it holds the lock. -/
theorem Handler.Step.lookup_conns {cfg : Config} {i : ℕ} {s : Shared} {h : Handler}
    {input : Input} {m : Move Shared Thread} (hm : h.Step cfg i s input m) {addr : Bytes}
    {x : ℕ × SafeConn} (hx : m.shared.conns.lookup addr = some x) :
    s.conns.lookup addr = some x ∨ h.pc = .registering ∧ x.1 = i := by
  cases hm with
  | enter activeDials hpc =>
    rw [Map.lookup_insert_ite] at hx
    split_ifs at hx
    · exact .inr ⟨hpc, congrArg Prod.fst (Option.some.inj hx).symm⟩
    · exact .inl hx
  | connect k _ hk => cases hk <;> exact .inl hx
  | leave =>
    simp only [cleanup] at hx
    split_ifs at hx
    · rw [Map.lookup_erase_ite] at hx
      split_ifs at hx
      exact .inl hx
    · exact .inl hx
  | _ => exact .inl hx

/-- **The entries after a step**: those that were there, and that of a handler which has the lock.
-/
theorem lookup_conns_step {cfg : Config} {w : State} {e : Event} {addr : Bytes} {x : ℕ × SafeConn}
    (hx : (step cfg w e).shared.conns.lookup addr = some x) :
    w.shared.conns.lookup addr = some x ∨ ∃ input h, e = .advance x.1 input ∧
      w.threads[x.1]? = some (.handler h) ∧ h.pc = .registering := by
  cases e with
  | advance i input =>
    simp only [step] at hx
    cases ht : w.threads[i]? with
    | none =>
      rw [World.advance_of_none ht] at hx
      exact .inl hx
    | some t =>
      rw [World.advance_of_some ht] at hx
      by_cases hhandler : ∃ h, t = .handler h
      · obtain ⟨h, rfl⟩ := hhandler
        refine ((h.step_next cfg i w.shared input).lookup_conns hx).imp_right ?_
        rintro ⟨hpc, rfl⟩
        exact ⟨input, h, rfl, ht, hpc⟩
      · rw [conns_next_of_not_handler input (not_exists.1 hhandler)] at hx
        exact .inl hx
  | discover peerAddr host localIPs => exact .inl hx
  | close =>
    rcases w.shared.close_cases with hstay | ⟨c, hmoved, -⟩
    · rw [step, hstay] at hx
      exact .inl hx
    · rw [step, hmoved] at hx
      exact .inl hx
  | allocate pool => exact .inl hx

/-! ## The invariant -/

/-- The counters are the tokens that are held, an entry of the table is that of a registered
handler, and what `Close` has waited for is over. -/
structure Sound (w : State) : Prop where
  lock : w.shared.locked.toNat = w.tokens Thread.lockTokens
  accept : w.shared.acceptWg = w.tokens Thread.acceptTokens
  dial : w.shared.dialWg = w.tokens Thread.dialTokens
  handlers : w.shared.handlersWg = w.tokens Thread.handlerTokens
  entry : ∀ addr c sc, w.shared.conns.lookup addr = some (c, sc) →
    ∃ h, w.threads[c]? = some (.handler h) ∧ h.conn.selfAddr = addr ∧ h.pc.registered = true
  unlocked : 2 ≤ w.shared.closing.rank → w.shared.locked = false
  acceptWaited : 3 ≤ w.shared.closing.rank → w.shared.acceptWg = 0
  dialsWaited : 4 ≤ w.shared.closing.rank → w.shared.dialWg = 0
  returned : 5 ≤ w.shared.closing.rank → w.shared.handlersWg = 0

namespace Sound

theorem start (pool : IPPool) : Sound (start pool) where
  lock := rfl
  accept := rfl
  dial := rfl
  handlers := rfl
  entry addr c sc h := by simp [Manager.start] at h
  unlocked _ := rfl
  acceptWaited h := absurd h (Nat.not_succ_le_zero 2)
  dialsWaited h := absurd h (Nat.not_succ_le_zero 3)
  returned _ := rfl

variable {w : State} (h : Sound w)

include h

/-- After the sweep no goroutine is in a section that looks at `done`. -/
theorem lockTokens_eq_zero (hrank : 2 ≤ w.shared.closing.rank) {i : ℕ} {t : Thread}
    (ht : w.threads[i]? = some t) : t.lockTokens = 0 := by
  have hle := World.le_tokens Thread.lockTokens ht
  rw [← h.lock, h.unlocked hrank] at hle
  exact Nat.le_zero.1 hle

/-- The entries of the table after a step of a goroutine. -/
theorem entry_advance (cfg : Config) (i : ℕ) (input : Input) {addr : Bytes} {c : ℕ} {sc : SafeConn}
    (hc : (w.advance (Thread.next cfg) i input).shared.conns.lookup addr = some (c, sc)) :
    ∃ h, (w.advance (Thread.next cfg) i input).threads[c]? = some (.handler h) ∧
      h.conn.selfAddr = addr ∧ h.pc.registered = true := by
  cases ht : w.threads[i]? with
  | none =>
    rw [World.advance_of_none ht] at hc ⊢
    exact h.entry addr c sc hc
  | some t =>
    -- an entry of another handler is not touched by the step
    have hother (hne : c ≠ i) (hc : w.shared.conns.lookup addr = some (c, sc)) :
        ∃ h, (w.advance (Thread.next cfg) i input).threads[c]? = some (.handler h) ∧
          h.conn.selfAddr = addr ∧ h.pc.registered = true := by
      obtain ⟨h', hthread, hrest⟩ := h.entry addr c sc hc
      exact ⟨h', World.getElem?_advance_of_ne hne hthread, hrest⟩
    have hshared : (w.advance (Thread.next cfg) i input).shared =
        (t.next cfg i w.shared input).shared := by rw [World.advance_of_some ht]
    rw [hshared] at hc
    by_cases hhandler : ∃ h', t = .handler h'
    · obtain ⟨h', rfl⟩ := hhandler
      have hown (addr : Bytes) (sc : SafeConn)
          (hin : w.shared.conns.lookup addr = some (i, sc)) :
          h'.conn.selfAddr = addr ∧ h'.pc.registered = true := by
        obtain ⟨h'', hthread, hrest⟩ := h.entry addr i sc hin
        rw [ht, Option.some.injEq, Thread.handler.injEq] at hthread
        exact hthread ▸ hrest
      rcases (h'.step_next cfg i w.shared input).entry hown hc with
        ⟨hne, hin⟩ | ⟨rfl, h'', hself, hrest⟩
      · exact hother hne hin
      · exact ⟨h'', (World.getElem?_advance_self ht).trans (congrArg some hself), hrest⟩
    · rw [conns_next_of_not_handler input (not_exists.1 hhandler)] at hc
      refine hother ?_ hc
      rintro rfl
      obtain ⟨h', hthread, -⟩ := h.entry addr c sc hc
      rw [ht, Option.some.injEq] at hthread
      exact hhandler ⟨h', hthread⟩

/-- **One step of a goroutine keeps the invariant.** -/
theorem advance (cfg : Config) (i : ℕ) (input : Input) :
    Sound (w.advance (Thread.next cfg) i input) := by
  have hbal (t : Thread) := t.balanced_next cfg i w.shared input
  cases ht : w.threads[i]? with
  | none => rwa [World.advance_of_none ht]
  | some t =>
    have hshared : (w.advance (Thread.next cfg) i input).shared =
        (t.next cfg i w.shared input).shared := by rw [World.advance_of_some ht]
    have hrank : (w.advance (Thread.next cfg) i input).shared.closing = w.shared.closing := by
      rw [hshared, (hbal t).closing]
    refine ⟨World.tokens_advance (fun s : Shared => s.locked.toNat) h.lock fun t => (hbal t).lock,
      World.tokens_advance Shared.acceptWg h.accept fun t => (hbal t).accept,
      World.tokens_advance Shared.dialWg h.dial fun t => (hbal t).dial,
      World.tokens_advance Shared.handlersWg h.handlers fun t => (hbal t).handlers,
      fun _ _ _ => h.entry_advance cfg i input, ?_, ?_, ?_, ?_⟩ <;> rw [hrank, hshared] <;> intro hr
    · exact (hbal t).unlocked (Shared.done_of_rank hr) (h.unlocked hr)
    · exact Nat.le_zero.1 ((hbal t).acceptWg_le.trans (h.acceptWaited hr).le)
    · rcases (hbal t).dialWg_le with hle | hheld
      · exact Nat.le_zero.1 (hle.trans (h.dialsWaited hr).le)
      · -- a dial is counted under the lock
        exact absurd (h.lockTokens_eq_zero (by omega) ht) hheld.ne'
    · rcases (hbal t).handlersWg_le with hle | hheld | hheld
      · exact Nat.le_zero.1 (hle.trans (h.returned hr).le)
      · -- a handler is counted by the accept loop or by a dial, and both are over
        have hle := World.le_tokens Thread.acceptTokens ht
        rw [← h.accept, h.acceptWaited (by omega)] at hle
        omega
      · have hle := World.le_tokens Thread.dialTokens ht
        rw [← h.dial, h.dialsWaited (by omega)] at hle
        omega

theorem close : Sound { w with shared := w.shared.close } := by
  rcases w.shared.close_cases with hstay | ⟨c, hmoved, hrank, hguard⟩
  · rwa [hstay]
  · rw [hmoved]
    -- what has been waited for before, and what is waited for now
    have hbefore {k : ℕ} (hk : k ≤ c.rank) : k ≤ w.shared.closing.rank ∨ c.rank = k := by omega
    exact { h with
      unlocked := fun hk => (hbefore hk).elim h.unlocked hguard.1
      acceptWaited := fun hk => (hbefore hk).elim h.acceptWaited hguard.2.1
      dialsWaited := fun hk => (hbefore hk).elim h.dialsWaited hguard.2.2.1
      returned := fun hk => (hbefore hk).elim h.returned hguard.2.2.2 }

/-- **One step keeps the invariant.** -/
theorem step (cfg : Config) (e : Event) : Sound (step cfg w e) := by
  cases e with
  | advance i input => exact h.advance cfg i input
  | discover peerAddr host localIPs =>
    have htokens {f : Thread → ℕ} (hf : f (.discovery ⟨peerAddr, host, localIPs, .begun⟩) = 0) :
        (Manager.step cfg w (.discover peerAddr host localIPs)).tokens f = w.tokens f := by
      rw [Manager.step, World.tokens_start, hf, Nat.add_zero]
    exact { h with
      lock := h.lock.trans (htokens rfl).symm
      accept := h.accept.trans (htokens rfl).symm
      dial := h.dial.trans (htokens rfl).symm
      handlers := h.handlers.trans (htokens rfl).symm
      entry := fun addr c sc hc => by
        obtain ⟨h', hthread, hrest⟩ := h.entry addr c sc hc
        exact ⟨h', World.getElem?_start_of_some hthread, hrest⟩ }
  | close => exact h.close
  | allocate pool => exact { h with }

end Sound

/-! ## Runs -/

/-- The goroutine is a dial goroutine that has not ended. -/
def Thread.dialRunning : Thread → Bool
  | dial ⟨_, .ended⟩ => false
  | dial _ => true
  | _ => false

/-- The goroutine is a handler that has not ended. -/
def Thread.handlerRunning : Thread → Bool
  | handler ⟨_, _, _, _, .stopped⟩ => false
  | handler _ => true
  | _ => false

theorem Thread.one_le_dialTokens {t : Thread} (h : t.dialRunning = true) : 1 ≤ t.dialTokens := by
  cases t with
  | dial d =>
    obtain ⟨peerAddr, pc⟩ := d
    cases pc with
    | ended => cases h
    | _ => exact le_rfl
  | _ => cases h

theorem Thread.one_le_handlerTokens {t : Thread} (h : t.handlerRunning = true) :
    1 ≤ t.handlerTokens := by
  cases t with
  | handler h' =>
    obtain ⟨isOutgoing, link, conn, received, pc⟩ := h'
    cases pc with
    | stopped => cases h
    | _ => exact le_rfl
  | _ => cases h

namespace Sound

variable {w : State} (h : Sound w)

include h

theorem dials_le : w.threads.countP Thread.dialRunning ≤ w.shared.dialWg := by
  rw [h.dial]
  exact World.countP_le_tokens fun _ => Thread.one_le_dialTokens

theorem handlers_le : w.threads.countP Thread.handlerRunning ≤ w.shared.handlersWg := by
  rw [h.handlers]
  exact World.countP_le_tokens fun _ => Thread.one_le_handlerTokens

/-- A connection is registered by a handler that has the lock, so not after the sweep. -/
theorem lookup_step (cfg : Config) (e : Event) (hswept : 2 ≤ w.shared.closing.rank) {addr : Bytes}
    {x : ℕ × SafeConn} (hx : (Manager.step cfg w e).shared.conns.lookup addr = some x) :
    w.shared.conns.lookup addr = some x := by
  rcases lookup_conns_step hx with hin | ⟨input, h', -, ht, hpc⟩
  · exact hin
  · have hheld := h.lockTokens_eq_zero hswept ht
    rw [Thread.lockTokens_handler, hpc] at hheld
    cases hheld

/-- When `Close` has returned no handler is registered, so the table is empty. -/
theorem conns_eq_empty (hreturned : w.shared.closing = .returned) : w.shared.conns = ∅ := by
  have hzero : w.tokens Thread.handlerTokens = 0 := by
    rw [← h.handlers]
    exact h.returned (by rw [hreturned]; rfl)
  refine Finmap.ext_lookup fun addr => ?_
  rw [Finmap.lookup_empty]
  by_contra hentry
  obtain ⟨⟨c, sc⟩, hc⟩ := Option.ne_none_iff_exists'.1 hentry
  obtain ⟨h', hthread, -, hreg⟩ := h.entry addr c sc hc
  have hheld := World.tokens_eq_zero_iff.1 hzero _ (List.mem_of_getElem? hthread)
  rw [Thread.handlerTokens_handler, HandlerPc.handlerTokens_of_registered hreg] at hheld
  cases hheld

end Sound

/-- **Shutdown leaves nothing running.** In every interleaving of `Close` with the accept loop, the
calls of `tryConnect`, the dial goroutines and the handlers:

* a step after the sweep registers no connection;
* the wait groups are at no time below the numbers of the dial goroutines and of the handlers that
  run, and once `Close` has waited for one of them, it is zero;
* when `Close` has returned, no dial goroutine and no handler runs, and the table is empty. -/
theorem shutdown_complete (cfg : Config) (pool : IPPool) (events : List Event) :
    Along (step cfg)
      (fun w e => Closing.swept.rank ≤ w.shared.closing.rank →
        ∀ addr x, (step cfg w e).shared.conns.lookup addr = some x →
          w.shared.conns.lookup addr = some x)
      (start pool) events ∧
    let w := run (step cfg) (start pool) events
    w.threads.countP Thread.dialRunning ≤ w.shared.dialWg ∧
    w.threads.countP Thread.handlerRunning ≤ w.shared.handlersWg ∧
    (Closing.dialsWaited.rank ≤ w.shared.closing.rank → w.shared.dialWg = 0) ∧
    (w.shared.closing = .returned →
      w.shared.handlersWg = 0 ∧
      (∀ t ∈ w.threads, t.dialRunning = false ∧ t.handlerRunning = false) ∧
      w.shared.conns = ∅) := by
  have hkept (w : State) (e : Event) (h : Sound w) (_ : True) : Sound (step cfg w e) :=
    h.step cfg e
  have hall : Along (step cfg) (fun _ _ => True) (start pool) events := fun _ _ => trivial
  have hway := invariant_along hkept (Sound.start pool) hall
  have hend := invariant hkept (Sound.start pool) hall
  refine ⟨fun x hx hswept addr entry => (hway x hx).lookup_step cfg x.2 hswept, hend.dials_le,
    hend.handlers_le, hend.dialsWaited, fun hreturned => ?_⟩
  have hdials := hend.dialsWaited (by rw [hreturned]; decide)
  have hhandlers := hend.returned (by rw [hreturned]; rfl)
  refine ⟨hhandlers, fun t ht => ⟨?_, ?_⟩, hend.conns_eq_empty hreturned⟩
  · have hnone := Nat.le_zero.1 (hdials ▸ hend.dials_le)
    exact Bool.eq_false_iff.2 (List.countP_eq_zero.1 hnone t ht)
  · have hnone := Nat.le_zero.1 (hhandlers ▸ hend.handlers_le)
    exact Bool.eq_false_iff.2 (List.countP_eq_zero.1 hnone t ht)

/-- `Close` begins while a connection is being accepted, and returns when its handler has ended. -/
example :
    let failed : Input := ⟨none, none, 0, 0⟩
    (run (step ⟨1, [], [], [], ⟨none, none⟩⟩) (start (newIPPoolWithConfig [] [] ⟨16, 16⟩))
      [.advance 0 ⟨none, some ⟨none, [], []⟩, 0, 0⟩, .advance 0 failed, .close, .close,
        .advance 0 failed, .advance 0 failed, .advance 0 failed, .close, .close, .advance 1 failed,
        .advance 1 failed, .close]).shared.closing = .returned := by
  decide +kernel

end NextPath.Sync.Manager
