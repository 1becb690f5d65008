import NextPath.Sync.Moves

/-!
# The counters of the manager

The counter of a wait group is the number of the tokens that the goroutines hold. A dial goroutine
holds a token of `dialWg` until it ends, and `tryConnect` holds it between counting the goroutine
and starting it; likewise for handlers, which the accept loop and the dial goroutines start. The
lock is a counter too, for the sections that look at `done`.

To take up a token of `dialWg` a goroutine must hold the lock, and for one of `handlersWg` it must
be the accept loop or a dial goroutine; and the lock is taken only while `done` is open.

* `Balanced`: what a step may do to the counters and the tokens;
* `Handler.Step.balanced`, `Dial.balanced_next`, `Thread.balanced_next`: every step is balanced.
-/

namespace NextPath.Sync.Manager

open Net Pool Goroutines

/-! ## Tokens -/

/-- The call holds the lock. -/
def Connect.lockTokens (k : Connect) : ℕ := if k.pc = .adding then 1 else 0

/-- The call has counted a dial goroutine that it has not started yet. -/
def Connect.dialTokens (k : Connect) : ℕ := if k.pc = .spawning then 1 else 0

namespace DialPc

def dialTokens : DialPc → ℕ
  | ended => 0
  | _ => 1

def handlerTokens : DialPc → ℕ
  | counted _ => 1
  | _ => 0

end DialPc

namespace HandlerPc

def lockTokens : HandlerPc → ℕ
  | registering => 1
  | connecting k => k.lockTokens
  | _ => 0

def dialTokens : HandlerPc → ℕ
  | connecting k => k.dialTokens
  | _ => 0

def handlerTokens : HandlerPc → ℕ
  | stopped => 0
  | _ => 1

/-- The handler has registered its connection and not left its loop. -/
def registered : HandlerPc → Bool
  | running | pex _ _ | connecting _ | taking _ | leaving => true
  | _ => false

theorem handlerTokens_of_registered {pc : HandlerPc} (h : pc.registered = true) :
    pc.handlerTokens = 1 := by
  cases pc with
  | stopped => cases h
  | _ => rfl

theorem registered_dispatch (msg : SyncMessage) : (Handler.dispatch msg).registered = true := by
  unfold Handler.dispatch
  split_ifs <;> rfl

end HandlerPc

namespace Thread

/-- The goroutine is in a section that looks at `done`. -/
def lockTokens : Thread → ℕ
  | discovery k => k.lockTokens
  | handler h => h.pc.lockTokens
  | _ => 0

/-- The goroutine is the accept loop, which has not returned. -/
def acceptTokens : Thread → ℕ
  | accepting | accepted _ | counted _ | returning => 1
  | _ => 0

/-- The goroutine is a dial goroutine that has not ended, or is about to start one. -/
def dialTokens : Thread → ℕ
  | discovery k => k.dialTokens
  | dial d => d.pc.dialTokens
  | handler h => h.pc.dialTokens
  | _ => 0

/-- The goroutine is a handler that has not ended, or is about to start one. -/
def handlerTokens : Thread → ℕ
  | counted _ => 1
  | dial d => d.pc.handlerTokens
  | handler h => h.pc.handlerTokens
  | _ => 0

section Simp

variable (k : Connect) (d : Dial) (h : Handler)

@[simp] theorem lockTokens_discovery : (discovery k).lockTokens = k.lockTokens := rfl

@[simp] theorem lockTokens_dial : (dial d).lockTokens = 0 := rfl

@[simp] theorem lockTokens_handler : (handler h).lockTokens = h.pc.lockTokens := rfl

@[simp] theorem acceptTokens_discovery : (discovery k).acceptTokens = 0 := rfl

@[simp] theorem acceptTokens_dial : (dial d).acceptTokens = 0 := rfl

@[simp] theorem acceptTokens_handler : (handler h).acceptTokens = 0 := rfl

@[simp] theorem dialTokens_discovery : (discovery k).dialTokens = k.dialTokens := rfl

@[simp] theorem dialTokens_dial : (dial d).dialTokens = d.pc.dialTokens := rfl

@[simp] theorem dialTokens_handler : (handler h).dialTokens = h.pc.dialTokens := rfl

@[simp] theorem handlerTokens_discovery : (discovery k).handlerTokens = 0 := rfl

@[simp] theorem handlerTokens_dial : (dial d).handlerTokens = d.pc.handlerTokens := rfl

@[simp] theorem handlerTokens_handler : (handler h).handlerTokens = h.pc.handlerTokens := rfl

end Simp

end Thread

/-! ## One step -/

/-- What every step does to the counters, and what a goroutine holds that makes one grow. -/
structure Balanced (s : Shared) (t : Thread) (m : Move Shared Thread) : Prop where
  lock : m.Conserves (·.locked.toNat) Thread.lockTokens s t
  accept : m.Conserves (·.acceptWg) Thread.acceptTokens s t
  dial : m.Conserves (·.dialWg) Thread.dialTokens s t
  handlers : m.Conserves (·.handlersWg) Thread.handlerTokens s t
  closing : m.shared.closing = s.closing
  unlocked : s.done = true → s.locked = false → m.shared.locked = false
  acceptWg_le : m.shared.acceptWg ≤ s.acceptWg
  dialWg_le : m.shared.dialWg ≤ s.dialWg ∨ 0 < t.lockTokens
  handlersWg_le : m.shared.handlersWg ≤ s.handlersWg ∨ 0 < t.acceptTokens ∨ 0 < t.dialTokens

/-- The counters and `Close` are the same in both states. -/
structure SameCounters (s s' : Shared) : Prop where
  locked : s'.locked = s.locked
  acceptWg : s'.acceptWg = s.acceptWg
  dialWg : s'.dialWg = s.dialWg
  handlersWg : s'.handlersWg = s.handlersWg
  closing : s'.closing = s.closing

theorem SameCounters.refl (s : Shared) : SameCounters s s := ⟨rfl, rfl, rfl, rfl, rfl⟩

/-- A step that leaves the counters and the tokens as they are. -/
theorem SameCounters.balanced {s s' : Shared} (h : SameCounters s s') {t t' : Thread}
    (hlock : t'.lockTokens = t.lockTokens) (haccept : t'.acceptTokens = t.acceptTokens)
    (hdial : t'.dialTokens = t.dialTokens) (hhandlers : t'.handlerTokens = t.handlerTokens) :
    Balanced s t ⟨s', t', none⟩ := by
  obtain ⟨hl, ha, hd, hh, hc⟩ := h
  refine ⟨?_, ?_, ?_, ?_, hc, ?_, ha.le, .inl hd.le, .inl hh.le⟩
  · simp [Move.Conserves, hl, hlock]
  · simp [Move.Conserves, ha, haccept]
  · simp [Move.Conserves, hd, hdial]
  · simp [Move.Conserves, hh, hhandlers]
  · simp [hl]

/-- A step that takes the lock while `done` is open. -/
theorem balanced_lock {s : Shared} {t t' : Thread} (hfree : s.locked = false)
    (hopen : s.done = false) (hlock : t.lockTokens = 0) (hlock' : t'.lockTokens = 1)
    (haccept : t'.acceptTokens = t.acceptTokens) (hdial : t'.dialTokens = t.dialTokens)
    (hhandlers : t'.handlerTokens = t.handlerTokens) :
    Balanced s t ⟨{ s with locked := true }, t', none⟩ := by
  refine ⟨?_, ?_, ?_, ?_, rfl, ?_, le_rfl, .inl le_rfl, .inl le_rfl⟩
  · simp [Move.Conserves, hlock, hlock', hfree]
  · simp [Move.Conserves, haccept]
  · simp [Move.Conserves, hdial]
  · simp [Move.Conserves, hhandlers]
  · simp [hopen]

/-- A counter that counts the lock goes from one to zero. -/
theorem conserves_unlock {s s' : Shared} (hs : s'.locked = false) {t t' : Thread}
    (hlock : t.lockTokens = 1) (hlock' : t'.lockTokens = 0) :
    Move.Conserves (fun s : Shared => s.locked.toNat) Thread.lockTokens s t ⟨s', t', none⟩ := by
  intro hheld
  have hle := Bool.toNat_le s.locked
  simp only [hs, hlock, hlock', Bool.toNat_false, Option.map_none, Option.getD_none] at hheld ⊢
  omega

/-- A step that releases the lock. -/
theorem SameCounters.unlock {s s' : Shared} (h : SameCounters { s with locked := false } s')
    {t t' : Thread} (hlock : t.lockTokens = 1) (hlock' : t'.lockTokens = 0)
    (haccept : t'.acceptTokens = t.acceptTokens) (hdial : t'.dialTokens = t.dialTokens)
    (hhandlers : t'.handlerTokens = t.handlerTokens) : Balanced s t ⟨s', t', none⟩ := by
  obtain ⟨hl, ha, hd, hh, hc⟩ := h
  refine ⟨conserves_unlock hl hlock hlock', ?_, ?_, ?_, hc, fun _ _ => hl, ha.le, .inl hd.le,
    .inl hh.le⟩
  · simp [Move.Conserves, ha, haccept]
  · simp [Move.Conserves, hd, hdial]
  · simp [Move.Conserves, hh, hhandlers]

/-- A step of `tryConnect`, made by a goroutine that holds what the call holds. -/
theorem Connect.Step.balanced {s s' : Shared} {k k' : Connect} {started : Bool}
    (h : k.Step s s' k' started) {t t' : Thread} (hlock : t.lockTokens = k.lockTokens)
    (hlock' : t'.lockTokens = k'.lockTokens) (haccept : t'.acceptTokens = t.acceptTokens)
    (hdial : t.dialTokens = k.dialTokens) (hdial' : t'.dialTokens = k'.dialTokens)
    (hhandlers : t'.handlerTokens = t.handlerTokens) :
    Balanced s t ⟨s', t', if started then some (.dial ⟨k.peerAddr, .checking⟩) else none⟩ := by
  cases h with
  | note activeDials pc hadd hspawn =>
    rw [if_neg Bool.false_ne_true]
    have hsame : SameCounters s { s with activeDials } := ⟨rfl, rfl, rfl, rfl, rfl⟩
    refine hsame.balanced ?_ haccept ?_ hhandlers
    · simp [hlock, hlock', lockTokens, hadd]
    · simp [hdial, hdial', dialTokens, hspawn]
  | lock hpc hfree hopen =>
    simp only [lockTokens, dialTokens, hpc] at hlock hlock' hdial hdial'
    exact balanced_lock hfree hopen hlock hlock' haccept (hdial'.trans hdial.symm) hhandlers
  | add hpc =>
    simp only [lockTokens, dialTokens, hpc] at hlock hlock' hdial hdial'
    refine ⟨conserves_unlock rfl hlock hlock', ?_, ?_, ?_, rfl, fun _ _ => rfl, le_rfl, .inr ?_,
      .inl le_rfl⟩
    · simp [Move.Conserves, haccept]
    · simp [Move.Conserves, hdial, hdial']
    · simp [Move.Conserves, hhandlers]
    · simp [hlock]
  | spawn hpc =>
    simp only [lockTokens, dialTokens, hpc] at hlock hlock' hdial hdial'
    refine ⟨?_, ?_, ?_, ?_, rfl, fun _ h => h, le_rfl, .inl le_rfl, .inl le_rfl⟩
    · simp [Move.Conserves, hlock, hlock']
    · simp [Move.Conserves, haccept]
    · simp [Move.Conserves, hdial, hdial', DialPc.dialTokens]
    · simp [Move.Conserves, hhandlers, DialPc.handlerTokens]

theorem sameCounters_take (cfg : Config) (s : Shared) (m : Mapping) (now now' : Time) :
    SameCounters s (Handler.take cfg s m now now') := ⟨rfl, rfl, rfl, rfl, rfl⟩

theorem sameCounters_cleanup (i : ℕ) (s : Shared) (h : Handler) :
    SameCounters s (h.cleanup i s) := by
  unfold Handler.cleanup
  split_ifs
  · exact ⟨rfl, rfl, rfl, rfl, rfl⟩
  · exact .refl s

/-- A handler that runs and holds nothing else. -/
structure HandlerPc.Plain (pc : HandlerPc) : Prop where
  lockTokens : pc.lockTokens = 0
  dialTokens : pc.dialTokens = 0
  handlerTokens : pc.handlerTokens = 1

/-- A handler goes from one such place to another. -/
theorem SameCounters.plain {s s' : Shared} (hs : SameCounters s s') {h h' : Handler}
    (hp : h.pc.Plain) (hp' : h'.pc.Plain) : Balanced s (.handler h) ⟨s', .handler h', none⟩ :=
  hs.balanced (hp'.lockTokens.trans hp.lockTokens.symm) rfl
    (hp'.dialTokens.trans hp.dialTokens.symm) (hp'.handlerTokens.trans hp.handlerTokens.symm)

theorem plain_greet (cfg : Config) (h : Handler) (msg : SyncMessage) :
    (h.greet cfg msg).pc.Plain := by
  rcases h.greet_cases cfg msg with hstop | ⟨_, _, _, _, _, _, hchecked⟩
  · rw [hstop]
    exact ⟨rfl, rfl, rfl⟩
  · rw [hchecked]
    exact ⟨rfl, rfl, rfl⟩

theorem plain_dispatch (msg : SyncMessage) : (Handler.dispatch msg).Plain := by
  unfold Handler.dispatch
  split_ifs <;> exact ⟨rfl, rfl, rfl⟩

/-- **A step of a handler.** -/
theorem Handler.Step.balanced {cfg : Config} {i : ℕ} {s : Shared} {h : Handler}
    {input : Input} {m : Move Shared Thread} (hm : h.Step cfg i s input m) :
    Balanced s (.handler h) m := by
  have hsame := SameCounters.refl s
  cases hm with
  | stay => exact hsame.balanced rfl rfl rfl rfl
  | greet msg hpc _ =>
    exact hsame.plain (by rw [hpc]; exact ⟨rfl, rfl, rfl⟩) (plain_greet cfg _ msg)
  | refuse hpc =>
    refine hsame.plain ?_ ⟨rfl, rfl, rfl⟩
    rcases hpc with hpc | hpc <;> rw [hpc] <;> exact ⟨rfl, rfl, rfl⟩
  | lock hpc hfree hopen =>
    exact balanced_lock hfree hopen (by simp [hpc, HandlerPc.lockTokens]) rfl rfl
      (by simp [hpc, HandlerPc.dialTokens]) (by simp [hpc, HandlerPc.handlerTokens])
  | enter activeDials hpc =>
    have hreleased : SameCounters { s with locked := false } { s with
        conns := s.conns.insert h.conn.selfAddr (i, h.conn), activeDials, locked := false } :=
      ⟨rfl, rfl, rfl, rfl, rfl⟩
    exact hreleased.unlock (by simp [hpc, HandlerPc.lockTokens]) rfl rfl
      (by simp [hpc, HandlerPc.dialTokens]) (by simp [hpc, HandlerPc.handlerTokens])
  | lose hpc =>
    exact (SameCounters.refl _).unlock (by simp [hpc, HandlerPc.lockTokens]) rfl rfl
      (by simp [hpc, HandlerPc.dialTokens]) (by simp [hpc, HandlerPc.handlerTokens])
  | read msg hpc _ => exact hsame.plain (by rw [hpc]; exact ⟨rfl, rfl, rfl⟩) (plain_dispatch msg)
  | hangUp hpc => exact hsame.plain (by rw [hpc]; exact ⟨rfl, rfl, rfl⟩) ⟨rfl, rfl, rfl⟩
  | skip hpc =>
    refine hsame.plain ?_ ⟨rfl, rfl, rfl⟩
    rcases hpc with ⟨host, peerAddr, hpc⟩ | hpc <;> rw [hpc] <;> exact ⟨rfl, rfl, rfl⟩
  | exchange host peerAddr hpc =>
    exact hsame.plain (by rw [hpc]; exact ⟨rfl, rfl, rfl⟩) ⟨rfl, rfl, rfl⟩
  | connect k hpc hk =>
    refine hk.balanced ?_ ?_ rfl ?_ ?_ ?_
    · simp [hpc, HandlerPc.lockTokens]
    · simp only [Thread.lockTokens_handler]
      split_ifs with hfinished
      · simp [HandlerPc.lockTokens, Connect.lockTokens, hfinished]
      · rfl
    · simp [hpc, HandlerPc.dialTokens]
    · simp only [Thread.dialTokens_handler]
      split_ifs with hfinished
      · simp [HandlerPc.dialTokens, Connect.dialTokens, hfinished]
      · rfl
    · simp only [Thread.handlerTokens_handler, hpc]
      split_ifs <;> rfl
  | take m rest hpc =>
    exact (sameCounters_take cfg s m input.now input.now').plain
      (by rw [hpc]; exact ⟨rfl, rfl, rfl⟩) ⟨rfl, rfl, rfl⟩
  | leave hpc =>
    exact (sameCounters_cleanup i s h).plain (by rw [hpc]; exact ⟨rfl, rfl, rfl⟩) ⟨rfl, rfl, rfl⟩
  | finish hpc =>
    refine ⟨?_, ?_, ?_, ?_, rfl, fun _ h => h, le_rfl, .inl le_rfl, .inl (Nat.sub_le _ _)⟩
    · simp [Move.Conserves, hpc, HandlerPc.lockTokens]
    · simp [Move.Conserves]
    · simp [Move.Conserves, hpc, HandlerPc.dialTokens]
    · intro hheld
      simp [hpc, HandlerPc.handlerTokens] at hheld ⊢
      omega

/-- **A step of a dial goroutine.** -/
theorem Dial.balanced_next (s : Shared) (d : Dial) (input : Input) :
    Balanced s (.dial d) (d.next s input) := by
  have hsame := SameCounters.refl s
  cases hpc : d.pc with
  | checking =>
    simp only [next, hpc]
    refine hsame.balanced rfl rfl ?_ ?_ <;>
      split_ifs <;> simp [hpc, DialPc.dialTokens, DialPc.handlerTokens]
  | dialling =>
    simp only [next, hpc]
    split <;>
      exact hsame.balanced rfl rfl (by simp [hpc, DialPc.dialTokens])
        (by simp [hpc, DialPc.handlerTokens])
  | dialled link =>
    simp only [next, hpc]
    refine hsame.balanced rfl rfl ?_ ?_ <;>
      split_ifs <;> simp [hpc, DialPc.dialTokens, DialPc.handlerTokens]
  | ready link =>
    simp only [next, hpc]
    refine ⟨?_, ?_, ?_, ?_, rfl, fun _ h => h, le_rfl, .inl le_rfl, .inr (.inr ?_)⟩
    · simp [Move.Conserves]
    · simp [Move.Conserves]
    · simp [Move.Conserves, hpc, DialPc.dialTokens]
    · simp [Move.Conserves, hpc, DialPc.handlerTokens]
    · simp [hpc, DialPc.dialTokens]
  | counted link =>
    simp only [next, hpc]
    refine ⟨?_, ?_, ?_, ?_, rfl, fun _ h => h, le_rfl, .inl le_rfl, .inl le_rfl⟩
    · simp [Move.Conserves, Handler.new, HandlerPc.lockTokens]
    · simp [Move.Conserves]
    · simp [Move.Conserves, hpc, DialPc.dialTokens, Handler.new, HandlerPc.dialTokens]
    · simp [Move.Conserves, hpc, DialPc.handlerTokens, Handler.new, HandlerPc.handlerTokens]
  | finishing =>
    simp only [next, hpc]
    split_ifs
    · exact hsame.balanced rfl rfl rfl rfl
    · have hsame' : SameCounters s { s with activeDials := s.activeDials.erase d.peerAddr } :=
        ⟨rfl, rfl, rfl, rfl, rfl⟩
      exact hsame'.balanced rfl rfl (by simp [hpc, DialPc.dialTokens])
        (by simp [hpc, DialPc.handlerTokens])
  | leaving =>
    simp only [next, hpc]
    refine ⟨?_, ?_, ?_, ?_, rfl, fun _ h => h, le_rfl, .inl (Nat.sub_le _ _), .inl le_rfl⟩
    · simp [Move.Conserves]
    · simp [Move.Conserves]
    · intro hheld
      simp [hpc, DialPc.dialTokens] at hheld ⊢
      omega
    · simp [Move.Conserves, hpc, DialPc.handlerTokens]
  | ended =>
    simp only [next, hpc]
    exact hsame.balanced rfl rfl rfl rfl

/-- **What one step does to the counters and the tokens.** -/
theorem Thread.balanced_next (cfg : Config) (i : ℕ) (s : Shared) (t : Thread) (input : Input) :
    Balanced s t (t.next cfg i s input) := by
  have hsame := SameCounters.refl s
  cases t with
  | accepting =>
    simp only [next]
    split
    · refine hsame.balanced ?_ ?_ ?_ ?_ <;> split_ifs <;> rfl
    · exact hsame.balanced rfl rfl rfl rfl
  | accepted link =>
    simp only [next]
    refine ⟨?_, ?_, ?_, ?_, rfl, fun _ h => h, le_rfl, .inl le_rfl, .inr (.inl one_pos)⟩ <;>
      simp [Move.Conserves, lockTokens, acceptTokens, dialTokens, handlerTokens]
  | counted link =>
    simp only [next]
    refine ⟨?_, ?_, ?_, ?_, rfl, fun _ h => h, le_rfl, .inl le_rfl, .inl le_rfl⟩ <;>
      simp [Move.Conserves, lockTokens, acceptTokens, dialTokens, handlerTokens, Handler.new,
        HandlerPc.lockTokens, HandlerPc.dialTokens, HandlerPc.handlerTokens]
  | returning =>
    simp only [next]
    refine ⟨?_, ?_, ?_, ?_, rfl, fun _ h => h, Nat.sub_le _ _, .inl le_rfl, .inl le_rfl⟩
    · simp [Move.Conserves, lockTokens]
    · intro hheld
      simp [acceptTokens] at hheld ⊢
      omega
    · simp [Move.Conserves, dialTokens]
    · simp [Move.Conserves, handlerTokens]
  | returned => exact hsame.balanced rfl rfl rfl rfl
  | discovery k => exact (k.step_next s input.now).balanced rfl rfl rfl rfl rfl rfl
  | dial d => exact d.balanced_next s input
  | handler h => exact (h.step_next cfg i s input).balanced

end NextPath.Sync.Manager
