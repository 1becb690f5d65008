import NextPath.Foundations.Runs
import NextPath.Pool.Effects

/-!
# The logical clock

Versions come into a pool from the local clock (`GetNextVersion`, in the section that allocates),
from peers (`ObserveVersion`, then `AddMapping`) and from recovery, with version 0. The events of a
node are these, one for each section under a lock, so that a handler that has observed a version
and not yet added its mapping can be overtaken by others. The node remembers the versions it has
drawn and observed.

The counter is a `uint64` and `GetNextVersion` increments it without a test, so it dominates as
long as no version is drawn at its last value.

* `getNextVersion_gt`: a version drawn below the last value is above the clock.
* `Dominated`: the invariant, all versions drawn, observed and stored are at most the clock.
-/

namespace NextPath.Pool

open Net Runs

/-- The last value of the counter. -/
def lastVersion : UInt64 := 0xffffffffffffffff

/-! ## What the operations do to the versions -/

namespace IPPool

variable (p : IPPool)

/-- Below its last value the clock moves up. -/
theorem getNextVersion_gt (t : Time) (h : p.hlc ≠ lastVersion) :
    p.hlc < (p.getNextVersion t).2 := by
  simp only [getNextVersion]
  split_ifs with hnow
  · exact hnow
  · have hlt : p.hlc.toNat + 1 < 2 ^ 64 := by
      have h1 := p.hlc.toNat_lt
      have h2 : p.hlc.toNat ≠ 2 ^ 64 - 1 := fun h2 => h (UInt64.toNat_inj.1 h2)
      omega
    rw [UInt64.lt_iff_toNat_lt, UInt64.toNat_add, UInt64.toNat_one, Nat.mod_eq_of_lt hlt]
    omega

/-- At its last value it goes to zero. -/
theorem getNextVersion_lastVersion (t : Time) (h : p.hlc = lastVersion) :
    (p.getNextVersion t).2 = 0 := by
  have hmax : ¬ lastVersion < unixNano t := by
    have := (unixNano t).toNat_lt
    rw [UInt64.lt_iff_toNat_lt]
    simp only [lastVersion, UInt64.reduceToNat]
    omega
  simp only [getNextVersion, h, if_neg hmax]
  decide

theorem hlc_observeVersion (v : UInt64) (t : Time) :
    p.hlc ≤ (p.observeVersion v t).hlc ∧ v ≤ (p.observeVersion v t).hlc := by
  simp only [observeVersion]
  split_ifs with h1 h2 h2
  · exact ⟨(h1.trans h2).le, le_refl v⟩
  · exact ⟨h1.le, not_lt.1 h2⟩
  · exact ⟨h2.le, le_refl v⟩
  · exact ⟨le_refl _, not_lt.1 h2⟩

end IPPool

/-! ## The node -/

namespace Clock

/-- The pool, and the versions drawn and observed so far. -/
structure Node where
  pool : IPPool
  drawn : List UInt64
  observed : List UInt64

/-- A node that starts. -/
def Node.start (base4 base6 : Bytes) (cfg : IPPoolConfig) : Node :=
  ⟨newIPPoolWithConfig base4 base6 cfg, [], []⟩

/-- The sections under a lock, with the readings of the clock in them. -/
inductive Event
  /-- A real in `GetFakeIPsForReals`; a version is drawn when a fake is allocated. -/
  | secure (realIP : IP) (isIPv6 : Bool) (now clk : Time)
  /-- A removal of a roll-back. -/
  | remove (realIP fakeIP : IP)
  | prune (now : Time) (order : Fin 64 → List IPKey)
  /-- `ObserveVersion` for a message of a peer. -/
  | observe (version : UInt64) (t : Time)
  /-- `AddMapping` for a message of a peer. -/
  | add (realIP fakeIP : IP) (version : UInt64) (expiresAt : Time)
  /-- `AddMapping` for an entry found at startup. -/
  | recover (realIP fakeIP : IP) (expiresAt : Time)

/-- The version an event draws from the clock. -/
def Event.draws (n : Node) : Event → Option UInt64
  | .secure realIP isIPv6 now clk =>
    match (n.pool.secure realIP isIPv6 now clk).2 with
    | .allocated info => some info.version
    | _ => none
  | _ => none

def step (n : Node) (e : Event) : Node :=
  match e with
  | .secure realIP isIPv6 now clk =>
    { n with
      pool := (n.pool.secure realIP isIPv6 now clk).1
      drawn := (e.draws n).toList ++ n.drawn }
  | .remove realIP fakeIP => { n with pool := n.pool.removeMapping realIP fakeIP }
  | .prune now order => { n with pool := n.pool.pruneExpired now order }
  | .observe version t =>
    { n with pool := n.pool.observeVersion version t, observed := version :: n.observed }
  | .add realIP fakeIP version expiresAt =>
    { n with pool := (n.pool.addMapping realIP fakeIP version expiresAt).1 }
  | .recover realIP fakeIP expiresAt =>
    { n with pool := (n.pool.addMapping realIP fakeIP 0 expiresAt).1 }

/-- A handler adds a mapping after it has observed its version. -/
def Allowed (n : Node) : Event → Prop
  | .add _ _ version _ => version ∈ n.observed
  | _ => True

instance (n : Node) : (e : Event) → Decidable (Allowed n e)
  | .add _ _ version _ => inferInstanceAs (Decidable (version ∈ n.observed))
  | .secure .. | .remove .. | .prune .. | .observe .. | .recover .. =>
    inferInstanceAs (Decidable True)

/-- The clock is at least every stored version. -/
def ClockAbove (n : Node) : Prop := ∀ f w, n.pool.versionOf f = some w → w ≤ n.pool.hlc

/-- A version that is drawn is above all that were drawn or observed before and all that are
stored. -/
def DrawsAbove (n : Node) (e : Event) : Prop :=
  ∀ v, e.draws n = some v →
    (∀ w ∈ n.drawn ++ n.observed, w < v) ∧ ∀ f w, n.pool.versionOf f = some w → w < v

/-- No version is drawn when the counter is at its last value. -/
def NoOverflow (n : Node) (e : Event) : Prop :=
  (e.draws n).isSome → n.pool.hlc ≠ lastVersion

instance (n : Node) (e : Event) : Decidable (NoOverflow n e) :=
  inferInstanceAs (Decidable (_ → _))

/-- The clock is at least every version drawn, observed or stored. -/
structure Dominated (n : Node) : Prop where
  above : ClockAbove n
  seen : ∀ w ∈ n.drawn ++ n.observed, w ≤ n.pool.hlc

/-- The clock has moved only if a version was drawn or observed. -/
def Seen (n : Node) : Prop := n.pool.hlc ≠ 0 → n.drawn ++ n.observed ≠ []

/-! ## Runs -/

/-- A drawn version is the next one of the clock. -/
theorem draws_eq {n : Node} {e : Event} {v : UInt64} (h : e.draws n = some v) :
    ∃ clk, v = (n.pool.getNextVersion clk).2 := by
  cases e with
  | secure realIP isIPv6 now clk =>
    simp only [Event.draws] at h
    rcases secure_effect n.pool realIP isIPv6 now clk with ⟨hno, -⟩ | ⟨info, hout, hv, -⟩
    · split at h
      · next info hinfo => exact absurd hinfo (hno info)
      · cases h
    · rw [hout] at h
      exact ⟨clk, (Option.some.inj h).symm.trans hv⟩
  | _ => cases h

/-- A version drawn below the last value of the counter is above the others. -/
theorem Dominated.drawsAbove {n : Node} (hn : Dominated n) {e : Event} (h : NoOverflow n e) :
    DrawsAbove n e := by
  intro v hv
  obtain ⟨clk, rfl⟩ := draws_eq hv
  have hgt := n.pool.getNextVersion_gt clk (h (by rw [hv]; rfl))
  exact ⟨fun w hw => (hn.seen w hw).trans_lt hgt, fun f w hw => (hn.above f w hw).trans_lt hgt⟩

/-- The clock stays above when it does not move down and every version that is new is at most the
clock. -/
theorem Dominated.of_le {n n' : Node} (hn : Dominated n) (hlc : n.pool.hlc ≤ n'.pool.hlc)
    (hstored : ∀ f w, n'.pool.versionOf f = some w → w ≤ n'.pool.hlc ∨ n.pool.versionOf f = some w)
    (hseen : ∀ w ∈ n'.drawn ++ n'.observed, w ≤ n'.pool.hlc ∨ w ∈ n.drawn ++ n.observed) :
    Dominated n' where
  above f w hw := (hstored f w hw).elim id fun h => (hn.above f w h).trans hlc
  seen w hw := (hseen w hw).elim id fun h => (hn.seen w h).trans hlc

theorem Dominated.of_fewer {n n' : Node} (hn : Dominated n) (h : Fewer n.pool n'.pool)
    (hdrawn : n'.drawn = n.drawn) (hobserved : n'.observed = n.observed) : Dominated n' :=
  hn.of_le h.hlc.ge (fun f w hw => .inr (h.versionOf f w hw))
    fun w hw => .inr (by rwa [← hdrawn, ← hobserved])

theorem Dominated.add {n : Node} (hn : Dominated n) {v : UInt64} (hv : v ≤ n.pool.hlc)
    (realIP fakeIP : IP) (t : Time) :
    Dominated { n with pool := (n.pool.addMapping realIP fakeIP v t).1 } := by
  rcases addMapping_effect n.pool realIP fakeIP v t with heq | ⟨-, hlc, hbinds⟩
  · rw [heq]
    exact hn
  · refine hn.of_le hlc.ge (fun f w hw => ?_) fun w hw => .inr hw
    exact (hbinds.versionOf f w hw).imp_left fun hw => (hw.trans_le hv).trans hlc.ge

/-- **One event keeps the clock above**, when no version is drawn at the last value. -/
theorem Dominated.step {n : Node} (hn : Dominated n) {e : Event} (hallowed : Allowed n e)
    (h : NoOverflow n e) : Dominated (step n e) := by
  cases e with
  | secure realIP isIPv6 now clk =>
    rcases secure_effect n.pool realIP isIPv6 now clk with
      ⟨hno, hfewer⟩ | ⟨info, hout, hv, hlc, hbinds⟩
    · refine hn.of_fewer hfewer ?_ rfl
      simp only [Clock.step, Event.draws]
      rfl
    · have hdraws : (Event.secure realIP isIPv6 now clk).draws n = some info.version := by
        simp only [Event.draws, hout]
      have hgt := n.pool.getNextVersion_gt clk (h (by rw [hdraws]; rfl))
      rw [← hv, ← hlc] at hgt
      refine hn.of_le hgt.le (fun f w hw => ?_) fun w hw => ?_
      · exact (hbinds.versionOf f w hw).imp_left fun hw => hw.trans hlc.symm |>.le
      · simp only [Clock.step, hdraws, Option.toList_some, List.cons_append, List.mem_cons] at hw
        exact hw.imp_left fun hw => hw.trans hlc.symm |>.le
  | remove realIP fakeIP => exact hn.of_fewer (.removeMapping ..) rfl rfl
  | prune now order => exact hn.of_fewer (.pruneExpired ..) rfl rfl
  | observe v t =>
    obtain ⟨hle, hv⟩ := n.pool.hlc_observeVersion v t
    refine hn.of_le hle (fun f w hw => .inr hw) fun w hw => ?_
    simp only [Clock.step, List.mem_append, List.mem_cons] at hw ⊢
    rcases hw with hw | rfl | hw
    · exact .inr (.inl hw)
    · exact .inl hv
    · exact .inr (.inr hw)
  | add realIP fakeIP v t => exact hn.add (hn.seen v (List.mem_append_right _ hallowed)) ..
  | recover realIP fakeIP t => exact hn.add (UInt64.zero_le) ..

theorem Dominated.start (base4 base6 : Bytes) (cfg : IPPoolConfig) :
    Dominated (Node.start base4 base6 cfg) where
  above f w hw := by simp [Node.start, newIPPoolWithConfig, IPPool.versionOf] at hw
  seen w hw := by simp [Node.start] at hw

theorem Seen.start (base4 base6 : Bytes) (cfg : IPPoolConfig) :
    Seen (Node.start base4 base6 cfg) :=
  fun h => absurd rfl h

theorem Seen.step {n : Node} (hn : Seen n) (e : Event) : Seen (step n e) := by
  cases e with
  | secure realIP isIPv6 now clk =>
    rcases secure_effect n.pool realIP isIPv6 now clk with
      ⟨-, hfewer⟩ | ⟨info, hout, -⟩
    · intro hne
      have := hn (hfewer.hlc ▸ hne)
      simp only [Clock.step, ne_eq, List.append_eq_nil_iff, not_and] at this ⊢
      exact fun h => this h.2
    · simp [Seen, Clock.step, Event.draws, hout]
  | remove realIP fakeIP =>
    exact fun hne => hn (by simpa only [Clock.step, (Fewer.removeMapping ..).hlc] using hne)
  | prune now order =>
    exact fun hne => hn (by simpa only [Clock.step, (Fewer.pruneExpired ..).hlc] using hne)
  | observe v t => simp [Seen, Clock.step]
  | add realIP fakeIP v t =>
    exact fun hne => hn (by simpa only [Clock.step, IPPool.hlc_addMapping] using hne)
  | recover realIP fakeIP t =>
    exact fun hne => hn (by simpa only [Clock.step, IPPool.hlc_addMapping] using hne)

/-- A version drawn at the last value of the counter is not above what moved the clock there. -/
theorem Seen.noOverflow {n : Node} (hn : Seen n) {e : Event} (h : DrawsAbove n e) :
    NoOverflow n e := by
  intro hdraws hlast
  obtain ⟨v, hv⟩ := Option.isSome_iff_exists.1 hdraws
  obtain ⟨clk, hclk⟩ := draws_eq hv
  rw [n.pool.getNextVersion_lastVersion clk hlast] at hclk
  subst hclk
  obtain ⟨w, hw⟩ := List.exists_mem_of_ne_nil _ (hn (by rw [hlast]; decide))
  exact UInt64.not_lt_zero ((h 0 hv).1 w hw)

/-- **The clock dominates exactly in the runs that draw no version at its last value.** In such a
run the clock is at least every stored version at every moment, and each version drawn is above
every version drawn or observed before and every version stored. -/
theorem clock_dominates_iff (base4 base6 : Bytes) (cfg : IPPoolConfig) (es : List Event)
    (hes : Along step Allowed (Node.start base4 base6 cfg) es) :
    (Along step (fun n e => ClockAbove n ∧ DrawsAbove n e) (Node.start base4 base6 cfg) es ∧
      ClockAbove (run step (Node.start base4 base6 cfg) es)) ↔
    Along step NoOverflow (Node.start base4 base6 cfg) es := by
  constructor
  · rintro ⟨habove, -⟩ x hx
    have hseen : Along step (fun n _ => Seen n) (Node.start base4 base6 cfg) es :=
      invariant_along (C := fun _ _ => True) (fun _ e hn _ => hn.step e)
        (Seen.start base4 base6 cfg)
        fun _ _ => trivial
    exact (hseen x hx).noOverflow (habove x hx).2
  · intro h
    have hstep (n : Node) (e : Event) (hn : Dominated n) (hc : Allowed n e ∧ NoOverflow n e) :
        Dominated (step n e) := hn.step hc.1 hc.2
    have hboth : Along step (fun n e => Allowed n e ∧ NoOverflow n e)
        (Node.start base4 base6 cfg) es := fun x hx => ⟨hes x hx, h x hx⟩
    have hall := invariant_along hstep (.start base4 base6 cfg) hboth
    refine ⟨fun x hx => ⟨(hall x hx).above, (hall x hx).drawsAbove (h x hx)⟩, ?_⟩
    exact (invariant hstep (.start base4 base6 cfg) hboth).above

/-- A run in which a mapping of a peer arrives and an allocation follows. -/
theorem clock_dominates_after_message :
    let es : List Event := [.observe 7 3, .add [1, 2, 3, 4] [198, 18, 0, 1] 7 100,
      .secure [5, 6, 7, 8] false 5 5]
    Along step (fun n e => ClockAbove n ∧ DrawsAbove n e) (Node.start [] [] ⟨4, 4⟩) es :=
  ((clock_dominates_iff [] [] ⟨4, 4⟩ _ (by decide +kernel)).2 (by decide +kernel)).1

/-- A peer's mapping with the last version, and then an allocation: it draws version 0, which is
not above the version observed before. -/
theorem clock_overflows :
    let es : List Event := [.observe lastVersion 3,
      .add [1, 2, 3, 4] [198, 18, 0, 1] lastVersion 100, .secure [5, 6, 7, 8] false 5 5]
    Along step Allowed (Node.start [] [] ⟨4, 4⟩) es ∧
      ¬ Along step (fun n e => ClockAbove n ∧ DrawsAbove n e) (Node.start [] [] ⟨4, 4⟩) es := by
  refine ⟨by decide +kernel, fun h => ?_⟩
  simp only [along_cons] at h
  have hdraws := h.2.2.1.2 0 (by decide +kernel)
  exact UInt64.not_lt_zero (hdraws.1 lastVersion (by decide +kernel))

end Clock

end NextPath.Pool
