import NextPath.Pool.Invariant

/-!
# The operations keep the pool consistent

Each operation, on addresses of 4 or 16 bytes, is a sequence of small changes, and its guard says
which. `AddMapping` does not delete what it is going to overwrite; since a write covers such a
deletion (`bind_modifyShard_drop`, `bind_dropFake`), it still counts as two deletions and a write.

* `addMapping_updates`, `removeMapping_updates`, `tryReserve_updates`, `pruneExpired_updates`,
  `secured_updates`, `fill_updates`: the operations as small changes.
* `repInv_run`, `repInv_foldl`: a call keeps the four maps consistent, and so does any sequence of
  calls.
* `consistent_of_calls`: what this says of a pool that starts empty.
-/

namespace NextPath.Pool

open Net

/-! ## Adding a mapping -/

namespace IPPool

variable (p : IPPool)

/-- A write covers the deletion of its real. -/
theorem bind_modifyShard_drop (i : Fin 64) (r f : IPKey) (v : UInt64) (t : Time) :
    (p.modifyShard i (·.drop r)).bind i r f v t = p.bind i r f v t := by
  simp only [bind, setFake, modifyShard, CacheShard.set, CacheShard.drop, Function.update_self,
    Function.update_idem, Map.insert_erase]

/-- A write covers the deletion of its fake. -/
theorem bind_dropFake (i : Fin 64) (r f : IPKey) (v : UInt64) (t : Time) :
    (p.dropFake f).bind i r f v t = p.bind i r f v t := by
  simp only [bind, setFake, dropFake, modifyShard, Map.insert_erase]

theorem modifyShard_drop_comm (i j : Fin 64) (r r' : IPKey) :
    (p.modifyShard i (·.drop r)).modifyShard j (·.drop r') =
      (p.modifyShard j (·.drop r')).modifyShard i (·.drop r) := by
  by_cases hij : i = j
  · subst hij
    simp [modifyShard, CacheShard.drop, Finmap.erase_erase]
  · simp [modifyShard, Function.update_of_ne hij, Function.update_of_ne (Ne.symm hij),
      Function.update_comm hij]

/-- The pool without the pair of a real. -/
def release (r : IPKey) : IPPool :=
  match p.fakeOf r with
  | some f => p.unbind (shardOf r) r f
  | none => p

/-- The pool without the pair of a fake. -/
def reclaim (f : IPKey) : IPPool :=
  match p.realOf f with
  | some r => p.unbind (shardOf r) r f
  | none => p

theorem release_of_some {r f : IPKey} (hr : p.fakeOf r = some f) :
    p.release r = p.unbind (shardOf r) r f := by
  rw [release, hr]

theorem release_of_none {r : IPKey} (hr : p.fakeOf r = none) : p.release r = p := by
  rw [release, hr]

theorem reclaim_of_some {r f : IPKey} (hf : p.realOf f = some r) :
    p.reclaim f = p.unbind (shardOf r) r f := by
  rw [reclaim, hf]

theorem reclaim_of_none {f : IPKey} (hf : p.realOf f = none) : p.reclaim f = p := by
  rw [reclaim, hf]

theorem fakeOf_release_self (r : IPKey) : (p.release r).fakeOf r = none := by
  cases hr : p.fakeOf r with
  | none => rwa [p.release_of_none hr]
  | some f => rw [p.release_of_some hr, p.fakeOf_unbind, if_pos rfl]

theorem realOf_reclaim_self (f : IPKey) : (p.reclaim f).realOf f = none := by
  cases hf : p.realOf f with
  | none => rwa [p.reclaim_of_none hf]
  | some r => rw [p.reclaim_of_some hf, p.realOf_unbind, if_pos rfl]

theorem fakeOf_reclaim_of_none {r : IPKey} (f : IPKey) (hr : p.fakeOf r = none) :
    (p.reclaim f).fakeOf r = none := by
  cases hf : p.realOf f with
  | none => rwa [p.reclaim_of_none hf]
  | some o =>
    rw [p.reclaim_of_some hf, p.fakeOf_unbind]
    split_ifs
    · rfl
    · exact hr

theorem oldRealToClear_of_none {r f : IPKey} (hf : p.realOf f = none) :
    p.oldRealToClear r f = none := by
  rw [oldRealToClear, hf, Option.filter_none]

theorem oldRealToClear_self {r f : IPKey} (hf : p.realOf f = some r) :
    p.oldRealToClear r f = none := by
  rw [oldRealToClear, hf, Option.filter_some_neg (by simp)]

theorem oldRealToClear_of_ne {r o f : IPKey} (hf : p.realOf f = some o) (ho : o ≠ r) :
    p.oldRealToClear r f = some o := by
  rw [oldRealToClear, hf, Option.filter_some_pos (by simpa using ho)]

end IPPool

/-- `AddMapping` and `TryReserve` write one pair, and leave the clock alone. -/
def pairGuard (r f : IPKey) (version : UInt64) : Guard := fun _ u =>
  match u with
  | .bind r' f' v _ => r' = r ∧ f' = f ∧ v = version
  | .tick _ => False
  | _ => True

section Updates

variable {p : IPPool}

/-- What `AddMapping` writes when it accepts: the pairs at the two ends are deleted and the new one
is bound. -/
theorem replace_eq (h : RepInv p) (r f : IPKey) (v : UInt64) (t : Time) :
    ((p.dropOldFake (p.fakeOf r) f).clearOldReal (p.oldRealToClear r f)).bind (shardOf r) r f v t =
      ((p.release r).reclaim f).bind (shardOf r) r f v t := by
  cases hr : p.fakeOf r with
  | none =>
    rw [p.release_of_none hr]
    cases hf : p.realOf f with
    | none =>
      rw [p.reclaim_of_none hf, p.oldRealToClear_of_none hf]
      rfl
    | some o =>
      have ho : o ≠ r := by
        rintro rfl
        exact Option.some_ne_none f (((h.fakeOf_iff o f).2 hf).symm.trans hr)
      rw [p.reclaim_of_some hf, p.oldRealToClear_of_ne hf ho, IPPool.unbind, IPPool.bind_dropFake]
      rfl
  | some e =>
    rw [p.release_of_some hr]
    by_cases hef : e = f
    · subst hef
      rw [IPPool.reclaim_of_none _ (by simp [p.realOf_unbind]),
        p.oldRealToClear_self ((h.fakeOf_iff r e).1 hr), IPPool.unbind, IPPool.bind_dropFake,
        IPPool.bind_modifyShard_drop, IPPool.dropOldFake, if_neg (by simp)]
      rfl
    · rw [IPPool.dropOldFake, if_pos hef]
      have hne : f ≠ e := Ne.symm hef
      cases hf : p.realOf f with
      | none =>
        rw [IPPool.reclaim_of_none _ (by rw [p.realOf_unbind, if_neg hne, hf]),
          p.oldRealToClear_of_none hf, IPPool.clearOldReal, ← IPPool.bind_modifyShard_drop]
        rfl
      | some o =>
        have ho : o ≠ r := by
          rintro rfl
          exact hef (Option.some.inj (hr.symm.trans ((h.fakeOf_iff o f).2 hf)))
        -- both ends were bound, to different pairs: the second deletion is made after the first
        rw [IPPool.reclaim_of_some _ (by rw [p.realOf_unbind, if_neg hne, hf]),
          p.oldRealToClear_of_ne hf ho, IPPool.clearOldReal, ← IPPool.bind_modifyShard_drop,
          IPPool.modifyShard_drop_comm, IPPool.unbind, IPPool.unbind, IPPool.bind_dropFake]
        rfl

theorem release_updates {G : Guard} (hG : ∀ q r f, G q (.unbind r f)) (r : IPKey) :
    Updates G p (p.release r) := by
  cases hr : p.fakeOf r with
  | none =>
    rw [p.release_of_none hr]
    exact .refl
  | some f =>
    rw [p.release_of_some hr]
    exact .single (.unbind r f) hr (hG ..)

theorem reclaim_updates {G : Guard} (hG : ∀ q r f, G q (.unbind r f)) (h : RepInv p) (f : IPKey) :
    Updates G p (p.reclaim f) := by
  cases hf : p.realOf f with
  | none =>
    rw [p.reclaim_of_none hf]
    exact .refl
  | some r =>
    rw [p.reclaim_of_some hf]
    exact .single (.unbind r f) ((h.fakeOf_iff r f).2 hf) (hG ..)

/-- The write of a pair after the deletion of what its ends are bound to. -/
theorem bind_updates (h : RepInv p) (r f : IPKey) (v : UInt64) (t : Time) :
    Updates (pairGuard r f v) p
      (((p.dropOldFake (p.fakeOf r) f).clearOldReal (p.oldRealToClear r f)).bind (shardOf r) r f v
        t) := by
  rw [replace_eq h]
  have hfree := IPPool.fakeOf_reclaim_of_none _ f (p.fakeOf_release_self r)
  have hrelease : Updates (pairGuard r f v) p (p.release r) :=
    release_updates (fun _ _ _ => trivial) r
  have hreclaim := hrelease.trans
    (reclaim_updates (fun _ _ _ => trivial) (hrelease.repInv h) f)
  exact hreclaim.tail (.bind r f v t) ⟨hfree, IPPool.realOf_reclaim_self _ f⟩ ⟨rfl, rfl, rfl⟩

/-- **`AddMapping` as small changes.** -/
theorem addMapping_updates (h : RepInv p) {realIP : IP} (hr : realIP.WellFormed) (fakeIP : IP)
    (v : UInt64) (t : Time) :
    Updates (pairGuard (toIPKey realIP) (toIPKey fakeIP) v) p
      (p.addMapping realIP fakeIP v t).1 := by
  simp only [IPPool.addMapping]
  split_ifs
  · exact .refl
  · exact .refl
  · rw [getShardIndex_eq hr]
    exact bind_updates h _ _ v t

/-! ## Removing, reserving, pruning -/

/-- A real that shard `i` holds is in its own shard. -/
theorem fakeOf_of_lookup (h : RepInv p) {i : Fin 64} {r f : IPKey}
    (hi : (p.shards i).realToFake.lookup r = some f) : i = shardOf r ∧ p.fakeOf r = some f := by
  have hmem : r ∈ (p.shards i).realToFake := Finmap.mem_iff.2 ⟨f, hi⟩
  obtain rfl := h.shard_eq i r hmem
  exact ⟨rfl, hi⟩

/-- **`RemoveMapping` as small changes**: it deletes the pair or nothing. The address may be any
bytes, since what it finds it finds in the right shard. -/
theorem removeMapping_updates (h : RepInv p) (realIP fakeIP : IP) :
    Updates (fun _ u => u = .unbind (toIPKey realIP) (toIPKey fakeIP)) p
      (p.removeMapping realIP fakeIP) := by
  simp only [IPPool.removeMapping]
  split_ifs with hl
  · obtain ⟨hi, hr⟩ := fakeOf_of_lookup h hl
    rw [hi]
    exact .single (.unbind _ _) hr rfl
  · exact .refl

theorem reserve_updates {realIP : IP} (hr : realIP.WellFormed) (fakeIP : IP) (v : UInt64)
    (t : Time) (hfree : p.fakeOf (toIPKey realIP) = none) :
    Updates (pairGuard (toIPKey realIP) (toIPKey fakeIP) v) p (p.reserve realIP fakeIP v t).1 := by
  rw [IPPool.reserve, getShardIndex_eq hr]
  split_ifs with hocc
  · exact .refl
  · exact .single (.bind _ _ v t) ⟨hfree, by simpa using hocc⟩ ⟨rfl, rfl, rfl⟩

/-- **`TryReserve` as small changes.** -/
theorem tryReserve_updates {realIP : IP} (hr : realIP.WellFormed) (fakeIP : IP) (v : UInt64)
    (t now now' : Time) :
    Updates (pairGuard (toIPKey realIP) (toIPKey fakeIP) v) p
      (p.tryReserve realIP fakeIP v t now now').1 := by
  simp only [IPPool.tryReserve, getShardIndex_eq hr]
  cases hf : (p.shards (shardOf (toIPKey realIP))).realToFake.lookup (toIPKey realIP) with
  | none => exact reserve_updates hr fakeIP v t hf
  | some e =>
    cases hx : (p.shards (shardOf (toIPKey realIP))).expiries.lookup (toIPKey realIP) with
    | none => exact .refl
    | some expiry =>
      have hsome : p.fakeOf (toIPKey realIP) = some e := hf
      dsimp only
      by_cases hlive : now < expiry
      · rw [if_pos hlive]
        split_ifs with hsoon
        · exact .single (.refresh _ t) (by simp [Upd.Ok, hsome]) trivial
        · exact .refl
      · rw [if_neg hlive]
        refine (Updates.single (.unbind _ e) hsome trivial).trans
          (reserve_updates hr fakeIP v t ?_)
        simp [Upd.apply, p.fakeOf_unbind]

/-- `PruneExpired` deletes what has expired. -/
def pruneGuard (now : Time) : Guard := fun p u =>
  ∃ r f expiry, u = .unbind r f ∧ p.expiryOf r = some expiry ∧ expiry < now

theorem pruneEntry_updates (h : RepInv p) (i : Fin 64) (now : Time) (pair : IPKey × IPKey) :
    Updates (pruneGuard now) p (p.pruneEntry i now pair) := by
  rw [IPPool.pruneEntry]
  cases hx : (p.shards i).expiries.lookup pair.1 with
  | none => exact .refl
  | some expiry =>
    dsimp only
    split_ifs with hdel
    · obtain ⟨hi, hr⟩ := fakeOf_of_lookup h hdel.2
      rw [hi] at hx ⊢
      exact .single (.unbind _ _) hr ⟨_, _, expiry, rfl, hx, hdel.1⟩
    · exact .refl

/-- **`PruneExpired` as small changes**, in whatever order the shards are scanned. -/
theorem pruneExpired_updates (h : RepInv p) (now : Time) (order : Fin 64 → List IPKey) :
    Updates (pruneGuard now) p (p.pruneExpired now order) :=
  .foldl (fun _ hq i _ =>
    .foldl (fun _ hq' pair _ => pruneEntry_updates hq' i now pair) hq) h

/-! ## Allocating -/

/-- The section of a call that holds the locks deletes a mapping that has expired, draws a version
and writes the free fake it has found. -/
def secureGuard (realIP : IP) (isIPv6 : Bool) (now clk : Time) : Guard := fun p u =>
  match u with
  | .unbind r _ => r = toIPKey realIP ∧ ∃ expiry, p.expiryOf r = some expiry ∧ expiry ≤ now
  | .bind r f v _ => r = toIPKey realIP ∧ v = p.hlc ∧
      ∃ fake, p.findFake realIP isIPv6 = some fake ∧ f = toIPKey fake
  | .refresh r _ => r = toIPKey realIP
  | .tick hlc => hlc = (p.getNextVersion clk).2

/-- The deletion of a mapping that is not live. -/
theorem vacate_updates {realIP : IP} (hr : realIP.WellFormed) (isIPv6 : Bool) {now : Time}
    (clk : Time) (hdead : ∀ f, ¬ p.Live now realIP f) :
    Updates (secureGuard realIP isIPv6 now clk) p (p.vacate realIP) := by
  rw [IPPool.vacate]
  split
  · next f hf =>
    obtain ⟨t, ht, hle⟩ : ∃ t, (p.slot (getShardIndex realIP) (toIPKey realIP)).2 = some t ∧
        t ≤ now := by
      have := hdead f
      rw [IPPool.Live, not_and] at this
      simpa using this hf
    rw [IPPool.fakeAt] at hf
    rw [getShardIndex_eq hr] at hf ht ⊢
    exact .single (.unbind _ f) hf ⟨rfl, t, ht, hle⟩
  · exact .refl

/-- **A section as small changes.** -/
theorem secured_updates {q : IPPool} {realIP : IP} (hr : realIP.WellFormed) {isIPv6 : Bool}
    {now clk : Time} {outcome : IPPool.Outcome}
    (h : p.Secured realIP isIPv6 now clk q outcome) :
    Updates (secureGuard realIP isIPv6 now clk) p q := by
  cases h with
  | kept => exact .refl
  | @extended f live =>
    have hsome : p.fakeOf (toIPKey realIP) = some f := by
      rw [IPPool.fakeOf_eq_slot, ← getShardIndex_eq hr]
      exact live.1
    rw [getShardIndex_eq hr]
    exact .single (.refresh _ _) (by simp [Upd.Ok, hsome]) rfl
  | exhausted dead => exact vacate_updates hr isIPv6 clk dead
  | @fresh fake dead find =>
    have hfree : (p.vacate realIP).fakeOf (toIPKey realIP) = none := by
      rw [IPPool.fakeOf_eq_slot, ← getShardIndex_eq hr]
      exact p.fakeAt_vacate realIP
    have htick := (vacate_updates hr isIPv6 clk dead).tail (.tick _) trivial rfl
    rw [getShardIndex_eq hr]
    exact htick.tail (.bind _ _ _ _) ⟨hfree, IPPool.realOf_of_findFake _ find⟩
      ⟨rfl, rfl, fake, find, rfl⟩

/-- A whole call deletes, and draws versions; what it writes is a free fake for one of its
reals. -/
def fillGuard (reals : List IP) (isIPv6 : Bool) : Guard := fun p u =>
  match u with
  | .bind r f v _ => v = p.hlc ∧
      ∃ realIP ∈ reals, r = toIPKey realIP ∧
        ∃ fake, p.findFake realIP isIPv6 = some fake ∧ f = toIPKey fake
  | .tick hlc => ∃ clk, hlc = (p.getNextVersion clk).2
  | _ => True

theorem secureGuard_le_fillGuard {reals : List IP} {realIP : IP} (hmem : realIP ∈ reals)
    (isIPv6 : Bool) (now clk : Time) (q : IPPool) (u : Upd)
    (hu : secureGuard realIP isIPv6 now clk q u) : fillGuard reals isIPv6 q u := by
  cases u with
  | unbind r f => trivial
  | bind r f v t => exact ⟨hu.2.1, realIP, hmem, hu.1, hu.2.2⟩
  | refresh r t => trivial
  | tick hlc => exact ⟨clk, hu⟩

theorem rollback_updates (h : RepInv p) (reals : List IP) (isIPv6 : Bool)
    (new : List (Sigma fun _ : Bytes => MappingInfo)) :
    Updates (fillGuard reals isIPv6) p (p.rollback new) :=
  .foldl (fun _ hq _ _ => (removeMapping_updates hq _ _).mono (by rintro _ _ rfl; trivial)) h

/-- **The loop of `GetFakeIPsForReals` as small changes**, the roll-back included. -/
theorem fill_updates (h : RepInv p) (isIPv6 : Bool) (now : Time) {reals : List IP}
    (hreals : ∀ ip ∈ reals, ip.WellFormed) (clk : ℕ → Time) (found : IPPool.Found) :
    Updates (fillGuard reals isIPv6) p (IPPool.fill isIPv6 now reals clk p found).1 := by
  -- the list of the guard is kept while the loop consumes its own
  suffices ∀ rest ⊆ reals, Updates (fillGuard reals isIPv6) p
      (IPPool.fill isIPv6 now rest clk p found).1 from this reals (List.Subset.refl _)
  intro rest
  induction rest generalizing p clk found with
  | nil => exact fun _ => .refl
  | cons realIP rest ih =>
    intro hsub
    have hmem := hsub List.mem_cons_self
    have hrest := List.Subset.trans (List.subset_cons_self realIP rest) hsub
    have hupd {q : IPPool} {outcome : IPPool.Outcome}
        (hsec : p.Secured realIP isIPv6 now (clk 0) q outcome) :
        Updates (fillGuard reals isIPv6) p q :=
      (secured_updates (hreals _ hmem) hsec).mono
        (secureGuard_le_fillGuard hmem isIPv6 now (clk 0))
    rcases p.fill_cons_cases rfl with ⟨q, f, hsec, heq⟩ | ⟨q, info, hsec, heq⟩ | ⟨q, hsec, heq⟩
    · rw [← heq]
      exact (hupd hsec).trans (ih ((hupd hsec).repInv h) clk _ hrest)
    · rw [← heq]
      exact (hupd hsec).trans (ih ((hupd hsec).repInv h) _ _ hrest)
    · rw [← heq]
      exact (hupd hsec).trans (rollback_updates ((hupd hsec).repInv h) reals isIPv6 _)

theorem getFakeIPsForReals_updates (h : RepInv p) {reals : List IP}
    (hreals : ∀ ip ∈ reals, ip.WellFormed) (isIPv6 : Bool) (now : Time) (clk : ℕ → Time) :
    Updates (fillGuard reals isIPv6) p (p.getFakeIPsForReals reals isIPv6 now clk).1 := by
  rw [IPPool.getFakeIPsForReals]
  split_ifs with hnil
  · exact .refl
  · have hperm : (IPPool.sortReals reals).Perm reals := List.perm_insertionSort _ _
    refine (fill_updates h isIPv6 now (fun ip hip => hreals ip (hperm.mem_iff.1 hip)) clk _).mono ?_
    intro q u hu
    cases u with
    | bind r f v t =>
      obtain ⟨hv, realIP, hmem, hrest⟩ := hu
      exact ⟨hv, realIP, hperm.mem_iff.1 hmem, hrest⟩
    | _ => exact hu

end Updates

/-! ## Calls -/

/-- A call of an operation, with the readings of the clock and the order of the scan it meets. -/
inductive Call
  | addMapping (realIP fakeIP : IP) (version : UInt64) (expiresAt : Time)
  | removeMapping (realIP fakeIP : IP)
  | tryReserve (realIP fakeIP : IP) (version : UInt64) (expiresAt now now' : Time)
  | getFakeIPsForReals (reals : List IP) (isIPv6 : Bool) (now : Time) (clk : ℕ → Time)
  | pruneExpired (now : Time) (order : Fin 64 → List IPKey)

namespace Call

/-- The addresses of a call. -/
def addresses : Call → List IP
  | .addMapping realIP fakeIP _ _ => [realIP, fakeIP]
  | .removeMapping realIP fakeIP => [realIP, fakeIP]
  | .tryReserve realIP fakeIP _ _ _ _ => [realIP, fakeIP]
  | .getFakeIPsForReals reals _ _ _ => reals
  | .pruneExpired _ _ => []

/-- The state a call leaves. -/
def run (p : IPPool) : Call → IPPool
  | .addMapping realIP fakeIP version expiresAt =>
    (p.addMapping realIP fakeIP version expiresAt).1
  | .removeMapping realIP fakeIP => p.removeMapping realIP fakeIP
  | .tryReserve realIP fakeIP version expiresAt now now' =>
    (p.tryReserve realIP fakeIP version expiresAt now now').1
  | .getFakeIPsForReals reals isIPv6 now clk => (p.getFakeIPsForReals reals isIPv6 now clk).1
  | .pruneExpired now order => p.pruneExpired now order

/-- One call keeps the invariant. -/
theorem repInv_run {p : IPPool} (h : RepInv p) (c : Call)
    (hc : ∀ ip ∈ c.addresses, ip.WellFormed) : RepInv (c.run p) := by
  cases c with
  | addMapping realIP fakeIP v t =>
    exact (addMapping_updates h (hc realIP (by simp [addresses])) fakeIP v t).repInv h
  | removeMapping realIP fakeIP => exact (removeMapping_updates h realIP fakeIP).repInv h
  | tryReserve realIP fakeIP v t now now' =>
    exact (tryReserve_updates (hc realIP (by simp [addresses])) fakeIP v t now now').repInv h
  | getFakeIPsForReals reals isIPv6 now clk =>
    exact (getFakeIPsForReals_updates h hc isIPv6 now clk).repInv h
  | pruneExpired now order => exact (pruneExpired_updates h now order).repInv h

/-- A sequence of calls keeps the invariant. -/
theorem repInv_foldl {p : IPPool} (h : RepInv p) {calls : List Call}
    (hcalls : ∀ c ∈ calls, ∀ ip ∈ c.addresses, ip.WellFormed) : RepInv (calls.foldl run p) := by
  refine List.foldlRecOn calls run (motive := RepInv) h ?_
  exact fun q hq c hc => c.repInv_run hq (hcalls c hc)

end Call

/-- **The pool stays consistent.** After any sequence of calls on addresses of 4 or 16 bytes the
four maps of the pool agree, so no two reals share a fake and no real has two, whatever the
shards. -/
theorem consistent_of_calls (base4 base6 : Bytes) (cfg : IPPoolConfig) (calls : List Call)
    (hcalls : ∀ c ∈ calls, ∀ ip ∈ c.addresses, ip.WellFormed) :
    let p := calls.foldl Call.run (newIPPoolWithConfig base4 base6 cfg)
    RepInv p ∧
      (∀ i j r r' f, (p.shards i).realToFake.lookup r = some f →
        (p.shards j).realToFake.lookup r' = some f → i = j ∧ r = r') ∧
      ∀ i j r f f', (p.shards i).realToFake.lookup r = some f →
        (p.shards j).realToFake.lookup r = some f' → f = f' := by
  intro p
  have hinv : RepInv p := Call.repInv_foldl (.new base4 base6 cfg) hcalls
  refine ⟨hinv, fun i j r r' f hr hr' => ?_, fun i j r f f' hf hf' => ?_⟩
  · obtain ⟨rfl, hr⟩ := fakeOf_of_lookup hinv hr
    obtain ⟨rfl, hr'⟩ := fakeOf_of_lookup hinv hr'
    obtain rfl := hinv.real_unique hr hr'
    exact ⟨rfl, rfl⟩
  · exact Option.some.inj
      ((fakeOf_of_lookup hinv hf).2.symm.trans (fakeOf_of_lookup hinv hf').2)

/-- A run in which one mapping displaces two others and an allocation follows. -/
theorem consistent_of_calls_displacing :
    RepInv ([Call.addMapping [1, 2, 3, 4] [198, 18, 0, 1] 1 0,
        .addMapping [5, 6, 7, 8] [198, 18, 0, 2] 2 0,
        .addMapping [5, 6, 7, 8] [198, 18, 0, 1] 3 0,
        .getFakeIPsForReals [[9, 9, 9, 9]] false 0 fun _ => 0].foldl Call.run
      (newIPPoolWithConfig [] [] ⟨4, 4⟩)) :=
  (consistent_of_calls [] [] ⟨4, 4⟩ _ (by simp [Call.addresses, IP.WellFormed])).1

end NextPath.Pool
