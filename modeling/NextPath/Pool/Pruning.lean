import NextPath.Pool.Leases

/-!
# Pruning

`PruneExpired` scans a shard under its read lock and collects the pairs that have expired; then it
takes the write locks and deletes them. Other calls run between the two, so that what was collected
may have been extended, moved to another fake, or removed and made again. Each pair is therefore
looked at again before it is deleted.

The deletions are described on any state, consistent or not (`pruneEntries_of_overdue`,
`slot_pruneEntries_of_not`, `fake_pruneEntries_of_not`): a slot is emptied when its pair was
collected and has expired, and a fake is forgotten when it is that of such a pair. A fake that two
pairs share is forgotten with the first of them, and two pairs can share one: an address that has
neither 4 nor 16 bytes has the key of `::`, but not its shard.

* `pruned_iff`: what the two phases do, with any calls between them;
* `unshared_of_repInv`: on a consistent pool no fake is shared;
* `leases_pruneExpired`: a whole pass over the shards of a consistent pool.
-/

namespace NextPath.Pool

open Net

namespace IPPool

variable (p : IPPool)

/-- The deletions of `PruneExpired` in a shard, for the pairs that were collected. -/
def pruneEntries (i : Fin 64) (now : Time) (expired : List (IPKey × IPKey)) : IPPool :=
  expired.foldl (fun p pair => p.pruneEntry i now pair) p

/-- The shard holds the pair, and its lease has run out. -/
def Overdue (i : Fin 64) (now : Time) (r f : IPKey) : Prop :=
  ∃ expiry, p.slot i r = (some f, some expiry) ∧ expiry < now

end IPPool

/-! ## One deletion -/

section Entries

variable {p : IPPool} {i j : Fin 64} {now : Time} {r f : IPKey} {expired : List (IPKey × IPKey)}

theorem IPPool.Overdue.fake_eq {f' : IPKey} (h : p.Overdue i now r f)
    (h' : (p.slot i r).1 = some f') : f' = f := by
  obtain ⟨expiry, hslot, -⟩ := h
  rw [hslot] at h'
  exact (Option.some.inj h').symm

theorem pruneEntry_of_overdue (h : p.Overdue i now r f) :
    p.pruneEntry i now (r, f) = p.unbind i r f := by
  obtain ⟨expiry, hslot, hlt⟩ := h
  have hf : (p.shards i).realToFake.lookup r = some f := congrArg Prod.fst hslot
  have hexp : (p.shards i).expiries.lookup r = some expiry := congrArg Prod.snd hslot
  simp [IPPool.pruneEntry, hexp, hf, hlt]

theorem pruneEntry_of_not_overdue (h : ¬ p.Overdue i now r f) :
    p.pruneEntry i now (r, f) = p := by
  rw [IPPool.pruneEntry]
  cases hexp : (p.shards i).expiries.lookup r with
  | none => simp
  | some expiry =>
    have hno : ¬ (expiry < now ∧ (p.shards i).realToFake.lookup r = some f) :=
      fun hdel => h ⟨expiry, Prod.ext hdel.2 hexp, hdel.1⟩
    simp [hno]

/-- The other pairs that have expired are still there. -/
theorem overdue_pruneEntry_iff {pair : IPKey × IPKey} :
    (p.pruneEntry i now pair).Overdue i now r f ↔ p.Overdue i now r f ∧ (r, f) ≠ pair := by
  obtain ⟨r', f'⟩ := pair
  by_cases hdue : p.Overdue i now r' f'
  · rw [pruneEntry_of_overdue hdue]
    by_cases hr : r = r'
    · subst hr
      have hgone : ¬ (p.unbind i r f').Overdue i now r f := by
        rintro ⟨expiry, hslot, -⟩
        rw [p.slot_unbind, if_pos ⟨rfl, rfl⟩] at hslot
        cases hslot
      refine iff_of_false hgone fun ⟨hdue', hne⟩ => hne ?_
      rw [hdue.fake_eq (congrArg Prod.fst hdue'.choose_spec.1)]
    · have hsame : (p.unbind i r' f').slot i r = p.slot i r := by
        rw [p.slot_unbind, if_neg fun h => hr h.2]
      simp [IPPool.Overdue, hsame, hr]
  · rw [pruneEntry_of_not_overdue hdue]
    refine ⟨fun h => ⟨h, ?_⟩, And.left⟩
    rintro ⟨⟩
    exact hdue h

/-- A deletion changes nothing but the slot and the fake of its pair. -/
theorem slot_pruneEntry_of_not {pair : IPKey × IPKey}
    (h : j = i → ∀ f, p.Overdue i now r f → (r, f) ≠ pair) :
    (p.pruneEntry i now pair).slot j r = p.slot j r := by
  obtain ⟨r', f'⟩ := pair
  by_cases hdue : p.Overdue i now r' f'
  · rw [pruneEntry_of_overdue hdue, p.slot_unbind, if_neg]
    rintro ⟨hj, rfl⟩
    exact h hj f' hdue rfl
  · rw [pruneEntry_of_not_overdue hdue]

theorem fake_pruneEntry_of_not {pair : IPKey × IPKey}
    (h : ∀ r, p.Overdue i now r f → (r, f) ≠ pair) :
    (p.pruneEntry i now pair).realOf f = p.realOf f ∧
      (p.pruneEntry i now pair).versionOf f = p.versionOf f := by
  obtain ⟨r', f'⟩ := pair
  by_cases hdue : p.Overdue i now r' f'
  · have hf : f ≠ f' := by
      rintro rfl
      exact h r' hdue rfl
    rw [pruneEntry_of_overdue hdue, p.realOf_unbind, p.versionOf_unbind, if_neg hf, if_neg hf]
    exact ⟨rfl, rfl⟩
  · rw [pruneEntry_of_not_overdue hdue]
    exact ⟨rfl, rfl⟩

/-! ## The deletions of a shard -/

/-- What was not collected, or has not expired, stays. -/
theorem slot_pruneEntries_of_not
    (h : j = i → ∀ f, p.Overdue i now r f → (r, f) ∉ expired) :
    (p.pruneEntries i now expired).slot j r = p.slot j r := by
  induction expired generalizing p with
  | nil => rfl
  | cons pair expired ih =>
    refine (ih fun hj f hdue hmem => ?_).trans
      (slot_pruneEntry_of_not fun hj f hdue hpair => h hj f hdue (hpair ▸ List.mem_cons_self))
    exact h hj f (overdue_pruneEntry_iff.1 hdue).1 (List.mem_cons_of_mem _ hmem)

theorem fake_pruneEntries_of_not (h : ∀ r, p.Overdue i now r f → (r, f) ∉ expired) :
    (p.pruneEntries i now expired).realOf f = p.realOf f ∧
      (p.pruneEntries i now expired).versionOf f = p.versionOf f := by
  induction expired generalizing p with
  | nil => exact ⟨rfl, rfl⟩
  | cons pair expired ih =>
    have hstep : (p.pruneEntry i now pair).realOf f = p.realOf f ∧
        (p.pruneEntry i now pair).versionOf f = p.versionOf f :=
      fake_pruneEntry_of_not fun r hdue hpair => h r hdue (hpair ▸ List.mem_cons_self)
    have hrest := ih (p := p.pruneEntry i now pair) fun r hdue hmem =>
      h r (overdue_pruneEntry_iff.1 hdue).1 (List.mem_cons_of_mem _ hmem)
    exact ⟨hrest.1.trans hstep.1, hrest.2.trans hstep.2⟩

/-- The other shards are not touched. -/
theorem shards_pruneEntries_of_ne (hj : j ≠ i) :
    (p.pruneEntries i now expired).shards j = p.shards j := by
  induction expired generalizing p with
  | nil => rfl
  | cons pair expired ih =>
    refine (ih (p := p.pruneEntry i now pair)).trans ?_
    by_cases hdue : p.Overdue i now pair.1 pair.2
    · rw [pruneEntry_of_overdue hdue, p.shards_unbind, if_neg hj]
    · rw [pruneEntry_of_not_overdue hdue]

/-- A slot that is empty stays so, and so does a fake that is free. -/
theorem slot_pruneEntries_of_empty (h : p.slot i r = (none, none)) :
    (p.pruneEntries i now expired).slot i r = (none, none) := by
  rw [slot_pruneEntries_of_not, h]
  rintro - f ⟨expiry, hslot, -⟩
  rw [h] at hslot
  cases hslot

theorem fake_pruneEntry_of_free {pair : IPKey × IPKey}
    (h : p.realOf f = none ∧ p.versionOf f = none) :
    (p.pruneEntry i now pair).realOf f = none ∧ (p.pruneEntry i now pair).versionOf f = none := by
  obtain ⟨r', f'⟩ := pair
  by_cases hdue : p.Overdue i now r' f'
  · rw [pruneEntry_of_overdue hdue, p.realOf_unbind, p.versionOf_unbind, h.1, h.2]
    simp
  · rwa [pruneEntry_of_not_overdue hdue]

theorem fake_pruneEntries_of_free (h : p.realOf f = none ∧ p.versionOf f = none) :
    (p.pruneEntries i now expired).realOf f = none ∧
      (p.pruneEntries i now expired).versionOf f = none := by
  induction expired generalizing p with
  | nil => exact h
  | cons pair expired ih => exact ih (fake_pruneEntry_of_free h)

/-- **A pair that was collected and has expired is deleted**, and its fake is forgotten. -/
theorem pruneEntries_of_overdue (h : p.Overdue i now r f) (hmem : (r, f) ∈ expired) :
    (p.pruneEntries i now expired).slot i r = (none, none) ∧
      (p.pruneEntries i now expired).realOf f = none ∧
      (p.pruneEntries i now expired).versionOf f = none := by
  induction expired generalizing p with
  | nil => exact absurd hmem List.not_mem_nil
  | cons pair expired ih =>
    by_cases hpair : (r, f) = pair
    · subst hpair
      have hcons : p.pruneEntries i now ((r, f) :: expired) =
          (p.unbind i r f).pruneEntries i now expired := by
        rw [← pruneEntry_of_overdue h]
        rfl
      rw [hcons]
      refine ⟨slot_pruneEntries_of_empty (by simp [p.slot_unbind]), fake_pruneEntries_of_free ?_⟩
      simp [p.realOf_unbind, p.versionOf_unbind]
    · exact ih (overdue_pruneEntry_iff.2 ⟨h, hpair⟩) ((List.mem_cons.1 hmem).resolve_left hpair)

/-! ## What a scan collects -/

/-- The scan meets every real of the shard, in some order. -/
def Scans (order : List IPKey) (s : CacheShard) : Prop := ∀ r ∈ s.expiries.keys, r ∈ order

theorem mem_expired_iff {order : List IPKey} (hscan : Scans order (p.shards i)) :
    (r, f) ∈ (p.shards i).expired now order ↔ p.Overdue i now r f := by
  rw [CacheShard.expired, List.mem_filterMap]
  constructor
  · rintro ⟨r', -, h⟩
    cases hexp : (p.shards i).expiries.lookup r' with
    | none => simp [hexp] at h
    | some t =>
      cases hfake : (p.shards i).realToFake.lookup r' with
      | none => simp [hexp, hfake] at h
      | some f' =>
        simp only [hexp, hfake] at h
        split_ifs at h with hlt
        obtain ⟨rfl, rfl⟩ := Prod.ext_iff.1 (Option.some.inj h)
        exact ⟨t, Prod.ext hfake hexp, hlt⟩
  · rintro ⟨t, hslot, hlt⟩
    have hfake : (p.shards i).realToFake.lookup r = some f := congrArg Prod.fst hslot
    have hexp : (p.shards i).expiries.lookup r = some t := congrArg Prod.snd hslot
    have hmem : r ∈ (p.shards i).expiries.keys :=
      Finmap.mem_keys.2 (Finmap.mem_iff.2 ⟨t, hexp⟩)
    exact ⟨r, hscan r hmem, by simp [hfake, hexp, hlt]⟩

end Entries

/-! ## The two phases -/

/-- The pair is in the pool, in that shard. -/
def IPPool.Holds (p : IPPool) (j : Fin 64) (r f : IPKey) : Prop := (p.slot j r).1 = some f

theorem IPPool.Overdue.holds {p : IPPool} {i : Fin 64} {now : Time} {r f : IPKey}
    (h : p.Overdue i now r f) : p.Holds i r f := by
  obtain ⟨expiry, hslot, -⟩ := h
  exact congrArg Prod.fst hslot

/-- Only what has expired goes: a pair that is removed has, before, an expiry that is over, and any
other pair keeps its slot, and what its fake has: its real and its version. -/
structure OnlyExpired (now : Time) (q q' : IPPool) : Prop where
  removed : ∀ j r f, q.Holds j r f → ¬ q'.Holds j r f → ∃ t, (q.slot j r).2 = some t ∧ t < now
  kept : ∀ j r f, q.Holds j r f → q'.Holds j r f →
    q'.slot j r = q.slot j r ∧ q'.realOf f = q.realOf f ∧ q'.versionOf f = q.versionOf f

/-- No pair that is overdue both at the scan and at the deletions shares its fake with a pair that
is not, unless the pool has neither a real nor a version for that fake. -/
def Unshared (i : Fin 64) (now : Time) (p q : IPPool) : Prop :=
  ∀ r f, p.Overdue i now r f → q.Overdue i now r f → ∀ j r', q.Holds j r' f →
    (j = i ∧ p.Overdue i now r' f ∧ q.Overdue i now r' f) ∨
      q.realOf f = none ∧ q.versionOf f = none

section Phases

variable {p q : IPPool} {i : Fin 64} {now : Time} {order : List IPKey}

/-- What the deletions take, from a state that has moved on since the scan. -/
theorem holds_pruneEntries_iff (hscan : Scans order (p.shards i)) {j : Fin 64} {r f : IPKey} :
    (q.pruneEntries i now ((p.shards i).expired now order)).Holds j r f ↔
      q.Holds j r f ∧ ¬ (j = i ∧ p.Overdue i now r f ∧ q.Overdue i now r f) := by
  by_cases hgone : j = i ∧ p.Overdue i now r f ∧ q.Overdue i now r f
  · obtain ⟨rfl, hp, hq⟩ := hgone
    have hslot := (pruneEntries_of_overdue hq ((mem_expired_iff hscan).2 hp)).1
    simp [IPPool.Holds, hslot, hp, hq]
  · simp only [hgone, not_false_iff, and_true]
    by_cases hother : j = i ∧ ∃ f', p.Overdue i now r f' ∧ q.Overdue i now r f'
    · -- another fake of the real was collected and is there: it is not this one, before or after
      obtain ⟨rfl, f', hp, hq⟩ := hother
      have hslot := (pruneEntries_of_overdue hq ((mem_expired_iff hscan).2 hp)).1
      have hno : ¬ q.Holds j r f := by
        intro hf
        obtain rfl := hq.fake_eq hf
        exact hgone ⟨rfl, hp, hq⟩
      refine iff_of_false (fun h => ?_) hno
      rw [IPPool.Holds, hslot] at h
      cases h
    · have hslot : (q.pruneEntries i now ((p.shards i).expired now order)).slot j r =
          q.slot j r :=
        slot_pruneEntries_of_not fun hj f' hq hmem =>
          hother ⟨hj, f', (mem_expired_iff hscan).1 hmem, hq⟩
      rw [IPPool.Holds, IPPool.Holds, hslot]

/-- The slot of a pair that is left is as it was. -/
theorem slot_eq_of_holds {j : Fin 64} {r f : IPKey}
    (h : (q.pruneEntries i now ((p.shards i).expired now order)).Holds j r f) :
    (q.pruneEntries i now ((p.shards i).expired now order)).slot j r = q.slot j r := by
  refine slot_pruneEntries_of_not fun hj f' hq hmem => ?_
  subst hj
  have hslot := (pruneEntries_of_overdue hq hmem).1
  rw [IPPool.Holds, hslot] at h
  cases h

theorem onlyExpired_iff_unshared (hscan : Scans order (p.shards i)) :
    OnlyExpired now q (q.pruneEntries i now ((p.shards i).expired now order)) ↔
      Unshared i now p q := by
  constructor
  · intro h r f hp hq j r' hr'
    by_cases hgone : j = i ∧ p.Overdue i now r' f ∧ q.Overdue i now r' f
    · exact .inl hgone
    · -- the other pair is left, so its fake has what it had; but the deletion has forgotten it
      have hforgot := (pruneEntries_of_overdue hq ((mem_expired_iff hscan).2 hp)).2
      have hkept := h.kept j r' f hr' ((holds_pruneEntries_iff hscan).2 ⟨hr', hgone⟩)
      exact .inr ⟨hkept.2.1.symm.trans hforgot.1, hkept.2.2.symm.trans hforgot.2⟩
  · intro h
    refine ⟨fun j r f hr hno => ?_, fun j r f hr hleft => ⟨slot_eq_of_holds hleft, ?_⟩⟩
    · rw [holds_pruneEntries_iff hscan, not_and, not_not] at hno
      obtain ⟨rfl, -, expiry, hslot, hlt⟩ := hno hr
      exact ⟨expiry, congrArg Prod.snd hslot, hlt⟩
    · by_cases hshared : ∃ r', p.Overdue i now r' f ∧ q.Overdue i now r' f
      · obtain ⟨r', hp, hq⟩ := hshared
        have hfree := (h r' f hp hq j r hr).resolve_left ((holds_pruneEntries_iff hscan).1 hleft).2
        rw [hfree.1, hfree.2]
        exact fake_pruneEntries_of_free hfree
      · exact fake_pruneEntries_of_not fun r' hq hmem =>
          hshared ⟨r', (mem_expired_iff hscan).1 hmem, hq⟩

/-- **A pass over all shards**, with nothing in between, on any pool. -/
theorem holds_pruneExpired_iff {orders : Fin 64 → List IPKey}
    (hscan : ∀ j, Scans (orders j) (p.shards j)) {j : Fin 64} {r f : IPKey} :
    (p.pruneExpired now orders).Holds j r f ↔ p.Holds j r f ∧ ¬ p.Overdue j now r f := by
  -- a shard is as it was until its turn comes, and is left alone after it
  have key (l : List (Fin 64)) : l.Nodup → ∀ q : IPPool, (∀ j ∈ l, q.shards j = p.shards j) →
      ∀ j r f, (l.foldl (fun p i => p.pruneShard now (orders i) i) q).Holds j r f ↔
        q.Holds j r f ∧ ¬ (j ∈ l ∧ q.Overdue j now r f) := by
    induction l with
    | nil => simp
    | cons i l ih =>
      intro hnodup q hq j r f
      obtain ⟨hi, hl⟩ := List.nodup_cons.1 hnodup
      have hscan' : Scans (orders i) (q.shards i) := hq i List.mem_cons_self ▸ hscan i
      have hshards (k : Fin 64) (hk : k ≠ i) :
          (q.pruneShard now (orders i) i).shards k = q.shards k :=
        shards_pruneEntries_of_ne hk
      have hdef : q.pruneShard now (orders i) i =
        q.pruneEntries i now ((q.shards i).expired now (orders i)) := rfl
      rw [List.foldl_cons, ih hl _ fun k hk => (hshards k (ne_of_mem_of_not_mem hk hi)).trans
        (hq k (List.mem_cons_of_mem _ hk)), hdef, holds_pruneEntries_iff hscan', ← hdef]
      by_cases hj : j = i
      · subst hj
        simp [hi]
      · have hdue : (q.pruneShard now (orders i) i).Overdue j now r f ↔ q.Overdue j now r f := by
          rw [IPPool.Overdue, IPPool.Overdue, IPPool.slot, IPPool.slot, hshards j hj]
        simp [hj, hdue]
  rw [IPPool.pruneExpired, key _ (List.nodup_finRange 64) p fun _ _ => rfl]
  simp [List.mem_finRange]

end Phases

/-- On a consistent pool no fake is shared. -/
theorem unshared_of_repInv {p q : IPPool} (hq : RepInv q) (i : Fin 64) (now : Time) :
    Unshared i now p q := by
  intro r f hp hdue j r' hr'
  obtain ⟨rfl, hr⟩ := fakeOf_of_lookup hq hdue.holds
  obtain ⟨rfl, hr''⟩ := fakeOf_of_lookup hq hr'
  obtain rfl := hq.real_unique hr hr''
  exact .inl ⟨rfl, hp, hdue⟩

/-- **Pruning removes only what has expired, exactly when no fake is shared.** Between the scan of
a shard and the deletions any calls are made. Then every pair that is deleted has expired by then,
every other pair keeps its mapping, its version and its expiry, and without calls in between the
pairs of the shard that are left are those that are not overdue, if and only if `Unshared` is true
of the states at the scan and at the deletions. The pairs that a whole pass leaves, with nothing in
between, are on any pool those that are not overdue. -/
theorem pruned_iff (p : IPPool) (i : Fin 64) (now : Time) (order : List IPKey)
    (hscan : Scans order (p.shards i)) (between : List Call) :
    let q := between.foldl Call.run p
    let q' := q.pruneEntries i now ((p.shards i).expired now order)
    (OnlyExpired now q q' ∧
        (between = [] → ∀ j r f, q'.Holds j r f ↔
          p.Holds j r f ∧ ¬ (j = i ∧ p.Overdue i now r f)) ↔
      Unshared i now p q) ∧
    ∀ orders : Fin 64 → List IPKey, (∀ j, Scans (orders j) (p.shards j)) → ∀ j r f,
      (p.pruneExpired now orders).Holds j r f ↔ p.Holds j r f ∧ ¬ p.Overdue j now r f := by
  intro q q'
  refine ⟨?_, fun orders hscans j r f => holds_pruneExpired_iff hscans⟩
  rw [← onlyExpired_iff_unshared hscan, and_iff_left_iff_imp]
  rintro - hnone j r f
  have hqp : q = p := by
    simp only [q, hnone, List.foldl_nil]
  rw [show q' = q.pruneEntries i now _ from rfl, holds_pruneEntries_iff hscan, hqp, and_self]

/-- Two mappings whose real is `::` or has the key of `::`: the first one has three bytes. -/
def sharing : List Call :=
  [.addMapping [1, 2, 3] [198, 18, 0, 1] 1 0,
    .addMapping [0, 0, 0, 0, 0, 0, 0, 0, 0, 0, 0, 0, 0, 0, 0, 0] [198, 18, 0, 1] 2 100]

/-- **A live pair loses its version.** A peer sends a mapping whose real has three bytes, then one
for `::` with the same fake. They are in two shards, under one key and with one fake. When the first
one has expired, its deletion takes the version and the real of the fake away from the other. -/
theorem pruned_shared :
    let p := sharing.foldl Call.run (newIPPoolWithConfig [] [] ⟨4, 4⟩)
    let i := getShardIndex [1, 2, 3]
    let order := [toIPKey [1, 2, 3]]
    Scans order (p.shards i) ∧
      ¬ OnlyExpired 50 p (p.pruneEntries i 50 ((p.shards i).expired 50 order)) := by
  intro p i order
  refine ⟨by unfold Scans; decide +kernel, fun h => ?_⟩
  have hkept := (h.kept 59 (toIPKey [1, 2, 3]) (toIPKey [198, 18, 0, 1])
    (by unfold IPPool.Holds; decide +kernel) (by unfold IPPool.Holds; decide +kernel)).2.2
  revert hkept
  decide +kernel

/-- A pair that is collected, and made again with a later expiry before the deletions. -/
theorem pruned_extended :
    let p := Call.run (newIPPoolWithConfig [] [] ⟨4, 4⟩)
      (.addMapping [1, 2, 3, 4] [198, 18, 0, 1] 1 0)
    let i := getShardIndex [1, 2, 3, 4]
    let q := [Call.addMapping [1, 2, 3, 4] [198, 18, 0, 1] 2 100].foldl Call.run p
    OnlyExpired 50 q (q.pruneEntries i 50 ((p.shards i).expired 50 [toIPKey [1, 2, 3, 4]])) := by
  intro p i q
  have hp : RepInv p :=
    Call.repInv_run (.new [] [] ⟨4, 4⟩) _ (by simp [Call.addresses, IP.WellFormed])
  have hq : RepInv q := Call.repInv_foldl hp (by simp [Call.addresses, IP.WellFormed])
  have hscan : Scans [toIPKey [1, 2, 3, 4]] (p.shards i) := by
    unfold Scans
    decide +kernel
  exact ((pruned_iff p i 50 _ hscan _).1.2 (unshared_of_repInv hq i 50)).1

/-! ## A consistent pool -/

/-- Small changes that delete what has expired lose no other row, and make none. -/
theorem Updates.leases_of_prune {p q : IPPool} {now : Time} (hupd : Updates (pruneGuard now) p q)
    (h : RepInv p) : q.leases ⊆ p.leases ∧ ∀ x ∈ p.leases, ¬ x.expiry < now → x ∈ q.leases := by
  refine (hupd.induct (I := fun q => RepInv q ∧ q.leases ⊆ p.leases ∧
    ∀ x ∈ p.leases, ¬ x.expiry < now → x ∈ q.leases) ⟨h, subset_rfl, fun _ hx _ => hx⟩ ?_).2
  rintro q u ⟨hq, hsub, hlive⟩ hok ⟨r, f, expiry, rfl, hexp, hlt⟩
  have hleases : ((Upd.unbind r f).apply q).leases = {x ∈ q.leases | x.real ≠ r} :=
    leases_unbind hq hok
  refine ⟨hq.apply hok, hleases ▸ (Set.sep_subset _ _).trans hsub, fun x hx hnot => ?_⟩
  rw [hleases]
  refine ⟨hlive x hx hnot, ?_⟩
  rintro rfl
  have hexp' := (hlive x hx hnot).2.2
  rw [hexp] at hexp'
  exact hnot (Option.some.inj hexp' ▸ hlt)

theorem pruneEntries_updates {p : IPPool} (h : RepInv p) (i : Fin 64) (now : Time)
    (expired : List (IPKey × IPKey)) : Updates (pruneGuard now) p (p.pruneEntries i now expired) :=
  .foldl (fun _ hq pair _ => pruneEntry_updates hq i now pair) h

/-- **A whole pass over a consistent pool**, with nothing in between, leaves the rows whose lease
has not run out. -/
theorem leases_pruneExpired {p : IPPool} (h : RepInv p) (now : Time)
    {orders : Fin 64 → List IPKey} (hscan : ∀ j, Scans (orders j) (p.shards j)) :
    (p.pruneExpired now orders).leases = {x ∈ p.leases | ¬ x.expiry < now} := by
  have hupd := pruneExpired_updates h now orders
  obtain ⟨hsub, hlive⟩ := hupd.leases_of_prune h
  refine Set.Subset.antisymm (fun x hx => ⟨hsub hx, fun hlt => ?_⟩) fun x hx => hlive x hx.1 hx.2
  refine ((holds_pruneExpired_iff hscan).1 hx.1).2 ⟨x.expiry, ?_, hlt⟩
  exact ((p.mem_leases_iff).1 (hsub hx)).1

end NextPath.Pool
