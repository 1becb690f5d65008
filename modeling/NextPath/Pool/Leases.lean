import NextPath.Pool.Consistency
import NextPath.Pool.Effects

/-!
# The pool as a table of leases

A consistent pool is a table: each row is a pair of a real and a fake, with the version of the
mapping and the end of its lease, and no two rows share a real or a fake. `leases` is the set of the
rows. The four maps of a consistent pool are determined by it (`RepInv.ext_leases`), so that what an
operation does can be said as an equation between sets of rows.

* `leases_unbind`, `leases_bind`, `leases_refresh`: the small changes of the state.
* `leases_replace`: the write of an accepted mapping.
* `exact_addMapping`: `AddMapping` as a step of the table.
-/

namespace NextPath.Pool

open Net

/-- A row of the table. -/
@[ext] structure Lease where
  real : IPKey
  fake : IPKey
  version : UInt64
  expiry : Time
  deriving DecidableEq

namespace IPPool

variable (p : IPPool)

/-- The rows of a pool. -/
def leases : Set Lease :=
  {x | p.fakeOf x.real = some x.fake ∧ p.versionOf x.fake = some x.version ∧
    p.expiryOf x.real = some x.expiry}

theorem mem_leases_iff {x : Lease} :
    x ∈ p.leases ↔ p.slot (shardOf x.real) x.real = (some x.fake, some x.expiry) ∧
      p.versionOf x.fake = some x.version := by
  rw [Prod.ext_iff]
  exact ⟨fun h => ⟨⟨h.1, h.2.2⟩, h.2.1⟩, fun h => ⟨h.1.1, h.2, h.1.2⟩⟩

end IPPool

/-! ## Rows and maps -/

namespace RepInv

variable {p q : IPPool}

/-- Every pair has its row. -/
theorem exists_lease (h : RepInv p) {r f : IPKey} (hr : p.fakeOf r = some f) :
    ∃ v t, (⟨r, f, v, t⟩ : Lease) ∈ p.leases := by
  have hreal := (h.fakeOf_iff r f).1 hr
  obtain ⟨v, hv⟩ := Option.isSome_iff_exists.1 ((h.isSome_versionOf f).2 (by rw [hreal]; rfl))
  obtain ⟨t, ht⟩ := Option.isSome_iff_exists.1 ((h.isSome_expiryOf r).2 (by rw [hr]; rfl))
  exact ⟨v, t, hr, hv, ht⟩

theorem fakeOf_iff_lease (h : RepInv p) {r f : IPKey} :
    p.fakeOf r = some f ↔ ∃ v t, (⟨r, f, v, t⟩ : Lease) ∈ p.leases :=
  ⟨h.exists_lease, fun ⟨_, _, hx⟩ => hx.1⟩

theorem realOf_iff_lease (h : RepInv p) {r f : IPKey} :
    p.realOf f = some r ↔ ∃ v t, (⟨r, f, v, t⟩ : Lease) ∈ p.leases := by
  rw [← h.fakeOf_iff, h.fakeOf_iff_lease]

theorem versionOf_iff_lease (h : RepInv p) {f : IPKey} {v : UInt64} :
    p.versionOf f = some v ↔ ∃ r t, (⟨r, f, v, t⟩ : Lease) ∈ p.leases := by
  refine ⟨fun hv => ?_, fun ⟨_, _, hx⟩ => hx.2.1⟩
  obtain ⟨r, hr⟩ := Option.isSome_iff_exists.1 ((h.isSome_versionOf f).1 (by rw [hv]; rfl))
  obtain ⟨w, t, hx⟩ := h.realOf_iff_lease.1 hr
  obtain rfl : v = w := Option.some.inj (hv.symm.trans hx.2.1)
  exact ⟨r, t, hx⟩

theorem expiryOf_iff_lease (h : RepInv p) {r : IPKey} {t : Time} :
    p.expiryOf r = some t ↔ ∃ f v, (⟨r, f, v, t⟩ : Lease) ∈ p.leases := by
  refine ⟨fun ht => ?_, fun ⟨_, _, hx⟩ => hx.2.2⟩
  obtain ⟨f, hf⟩ := Option.isSome_iff_exists.1 ((h.isSome_expiryOf r).1 (by rw [ht]; rfl))
  obtain ⟨v, t', hx⟩ := h.exists_lease hf
  obtain rfl : t = t' := Option.some.inj (ht.symm.trans hx.2.2)
  exact ⟨f, v, hx⟩

/-- A real has one row. -/
theorem eq_of_real_eq {x y : Lease} (hx : x ∈ p.leases) (hy : y ∈ p.leases)
    (hr : x.real = y.real) : x = y := by
  obtain ⟨hxf, hxv, hxt⟩ := hx
  obtain ⟨hyf, hyv, hyt⟩ := hy
  have hfake : x.fake = y.fake := Option.some.inj (hxf.symm.trans (hr ▸ hyf))
  exact Lease.ext hr hfake (Option.some.inj (hxv.symm.trans (hfake ▸ hyv)))
    (Option.some.inj (hxt.symm.trans (hr ▸ hyt)))

/-- **A consistent pool is its table**, apart from the clock and the ranges. -/
theorem ext_leases (hp : RepInv p) (hq : RepInv q) (hrange : p.toPoolRange = q.toPoolRange)
    (hhlc : p.hlc = q.hlc) (h : p.leases = q.leases) : p = q := by
  have hslot (i : Fin 64) (r : IPKey) : p.slot i r = q.slot i r := by
    by_cases hi : i = shardOf r
    · subst hi
      refine Prod.ext (Option.ext fun f => ?_) (Option.ext fun t => ?_)
      · exact hp.fakeOf_iff_lease.trans (by rw [h]; exact hq.fakeOf_iff_lease.symm)
      · exact hp.expiryOf_iff_lease.trans (by rw [h]; exact hq.expiryOf_iff_lease.symm)
    · -- neither pool has the real in a shard that is not its own
      have hnone {s : IPPool} (hs : RepInv s) : s.slot i r = (none, none) := by
        have hmem : r ∉ (s.shards i).realToFake := fun hr => hi (hs.shard_eq i r hr)
        have hmem' : r ∉ (s.shards i).expiries := fun hr => hmem ((hs.mem_expiries i r).1 hr)
        rw [IPPool.slot, Finmap.lookup_eq_none.2 hmem, Finmap.lookup_eq_none.2 hmem']
      rw [hnone hp, hnone hq]
  obtain ⟨range, shards, reals, versions, hlc⟩ := p
  obtain ⟨range', shards', reals', versions', hlc'⟩ := q
  obtain rfl : range = range' := hrange
  obtain rfl : hlc = hlc' := hhlc
  have hshards : shards = shards' := by
    funext i
    have hi := fun r => Prod.ext_iff.1 (hslot i r)
    show (⟨_, _⟩ : CacheShard) = ⟨_, _⟩
    rw [CacheShard.mk.injEq]
    exact ⟨Finmap.ext_lookup fun r => (hi r).1, Finmap.ext_lookup fun r => (hi r).2⟩
  have hreals : reals = reals' := Finmap.ext_lookup fun f => Option.ext fun r =>
    hp.realOf_iff_lease.trans (by rw [h]; exact hq.realOf_iff_lease.symm)
  have hversions : versions = versions' := Finmap.ext_lookup fun f => Option.ext fun v =>
    hp.versionOf_iff_lease.trans (by rw [h]; exact hq.versionOf_iff_lease.symm)
  rw [hshards, hreals, hversions]

end RepInv

/-! ## Small changes of the table -/

section Changes

variable {p : IPPool}

theorem leases_unbind (h : RepInv p) {r f : IPKey} (hr : p.fakeOf r = some f) :
    (p.unbind (shardOf r) r f).leases = {x ∈ p.leases | x.real ≠ r} := by
  ext x
  rw [Set.mem_ofPred_eq, IPPool.mem_leases_iff, IPPool.mem_leases_iff, p.slot_unbind,
    p.versionOf_unbind]
  by_cases hx : x.real = r
  · simp [hx]
  · rw [if_neg fun h' => hx h'.2]
    by_cases hf : x.fake = f
    · -- the fake goes with its only row
      have hout : p.slot (shardOf x.real) x.real ≠ (some x.fake, some x.expiry) := fun hslot =>
        hx (h.real_unique (Prod.ext_iff.1 hslot).1 (hf ▸ hr))
      exact iff_of_false (fun h' => hout h'.1) fun h' => hout h'.1.1
    · rw [if_neg hf]
      exact (and_iff_left hx).symm

theorem leases_bind (h : RepInv p) {r f : IPKey} (hr : p.fakeOf r = none) (hf : p.realOf f = none)
    (v : UInt64) (t : Time) :
    (p.bind (shardOf r) r f v t).leases = insert ⟨r, f, v, t⟩ p.leases := by
  have hreal {x : Lease} (hx : x ∈ p.leases) : x.real ≠ r := by
    rintro rfl
    exact Option.some_ne_none _ (hx.1.symm.trans hr)
  have hfake {x : Lease} (hx : x ∈ p.leases) : x.fake ≠ f := by
    rintro rfl
    exact Option.some_ne_none _ (((h.fakeOf_iff _ _).1 hx.1).symm.trans hf)
  ext x
  rw [Set.mem_insert_iff]
  constructor
  · intro hx
    rw [IPPool.mem_leases_iff, p.slot_bind, p.versionOf_bind] at hx
    by_cases hxr : x.real = r
    · rw [if_pos ⟨congrArg shardOf hxr, hxr⟩, Prod.mk.injEq, Option.some.injEq,
        Option.some.injEq] at hx
      obtain ⟨⟨hxf, hxt⟩, hxv⟩ := hx
      rw [if_pos hxf.symm, Option.some.injEq] at hxv
      exact .inl (Lease.ext hxr hxf.symm hxv.symm hxt.symm)
    · rw [if_neg fun h' => hxr h'.2] at hx
      split_ifs at hx with hxf
      · -- no slot holds the free fake
        have := (h.fakeOf_iff x.real x.fake).1 (Prod.ext_iff.1 hx.1).1
        rw [hxf, hf] at this
        cases this
      · exact .inr (p.mem_leases_iff.2 hx)
  · rintro (rfl | hx)
    · rw [IPPool.mem_leases_iff, p.slot_bind, p.versionOf_bind]
      simp
    · rw [IPPool.mem_leases_iff, p.slot_bind, p.versionOf_bind, if_neg fun h' => hreal hx h'.2,
        if_neg (hfake hx)]
      exact p.mem_leases_iff.1 hx

theorem leases_refresh {x : Lease} (hx : x ∈ p.leases) (t : Time) :
    (p.modifyShard (shardOf x.real) (·.refresh x.real t)).leases =
      insert { x with expiry := t } {y ∈ p.leases | y.real ≠ x.real} := by
  have hslot := (p.mem_leases_iff.1 hx).1
  ext y
  rw [Set.mem_insert_iff, Set.mem_ofPred_eq, IPPool.mem_leases_iff, p.slot_refresh,
    p.versionOf_modifyShard]
  by_cases hy : y.real = x.real
  · rw [if_pos ⟨congrArg shardOf hy, hy⟩, hslot, Prod.mk.injEq, Option.some.injEq,
      Option.some.injEq]
    refine ⟨fun ⟨⟨hf, ht⟩, hv⟩ => .inl (Lease.ext hy hf.symm ?_ ht.symm), ?_⟩
    · exact Option.some.inj (hv.symm.trans (hf ▸ hx.2.1))
    · rintro (rfl | ⟨-, hne⟩)
      · exact ⟨⟨rfl, rfl⟩, hx.2.1⟩
      · exact absurd hy hne
  · rw [if_neg fun h' => hy h'.2, ← p.mem_leases_iff]
    refine ⟨fun hmem => .inr ⟨hmem, hy⟩, ?_⟩
    rintro (rfl | ⟨hmem, -⟩)
    · exact absurd rfl hy
    · exact hmem

@[simp] theorem leases_tick (p : IPPool) (hlc : UInt64) : ({ p with hlc } : IPPool).leases =
    p.leases := rfl

theorem leases_release (h : RepInv p) (r : IPKey) :
    (p.release r).leases = {x ∈ p.leases | x.real ≠ r} := by
  cases hr : p.fakeOf r with
  | some f => rw [p.release_of_some hr, leases_unbind h hr]
  | none =>
    rw [p.release_of_none hr, Set.sep_eq_self_iff_mem_true.2]
    rintro x hx rfl
    exact Option.some_ne_none _ (hx.1.symm.trans hr)

theorem leases_reclaim (h : RepInv p) (f : IPKey) :
    (p.reclaim f).leases = {x ∈ p.leases | x.fake ≠ f} := by
  cases hf : p.realOf f with
  | some r =>
    have hr := (h.fakeOf_iff r f).2 hf
    rw [p.reclaim_of_some hf, leases_unbind h hr]
    refine Set.sep_ext_iff.2 fun x hx => not_congr ⟨?_, fun hxf => ?_⟩
    · rintro rfl
      exact Option.some.inj (hx.1.symm.trans hr)
    · exact h.real_unique hx.1 (hxf ▸ hr)
  | none =>
    rw [p.reclaim_of_none hf, Set.sep_eq_self_iff_mem_true.2]
    rintro x hx rfl
    exact Option.some_ne_none _ (((h.fakeOf_iff _ _).1 hx.1).symm.trans hf)

/-- The rows after the write of an accepted mapping. -/
theorem leases_replace (h : RepInv p) (r f : IPKey) (v : UInt64) (t : Time) :
    (((p.release r).reclaim f).bind (shardOf r) r f v t).leases =
      insert ⟨r, f, v, t⟩ {x ∈ p.leases | x.real ≠ r ∧ x.fake ≠ f} := by
  have hrelease : RepInv (p.release r) :=
    (release_updates (G := fun _ _ => True) (fun _ _ _ => trivial) r).repInv h
  have hreclaim : RepInv ((p.release r).reclaim f) :=
    (reclaim_updates (G := fun _ _ => True) (fun _ _ _ => trivial) hrelease f).repInv hrelease
  rw [leases_bind hreclaim (IPPool.fakeOf_reclaim_of_none _ f (p.fakeOf_release_self r))
    (IPPool.realOf_reclaim_self _ f), leases_reclaim hrelease, leases_release h]
  simp only [Set.mem_ofPred_eq, and_assoc]

end Changes

/-! ## Adding a mapping -/

/-- The table accepts a mapping that beats the row of its fake and, if its real has another fake,
the row of its real. -/
def IPPool.Accepts (p : IPPool) (r f : IPKey) (v : UInt64) : Prop :=
  (∀ x ∈ p.leases, x.fake = f → IPPool.Beats v r x.version x.real) ∧
    ∀ x ∈ p.leases, x.real = r → x.fake ≠ f → IPPool.Beats v f x.version x.fake

section AddMapping

variable {p : IPPool}

/-- The two tests of `AddMapping`. -/
theorem accepts_iff (h : RepInv p) (r f : IPKey) (v : UInt64) :
    p.Accepts r f v ↔ p.losesFake r f v = false ∧ p.losesReal (p.fakeOf r) f v = false := by
  rw [p.losesFake_eq_false_iff, p.losesReal_eq_false_iff]
  refine and_congr ⟨fun hbeats r' w hr' hw => ?_, ?_⟩ ⟨fun hbeats f' w hf' hne hw => ?_, ?_⟩
  · obtain ⟨v', t, hx⟩ := h.realOf_iff_lease.1 hr'
    obtain rfl : w = v' := Option.some.inj (hw.symm.trans hx.2.1)
    exact hbeats _ hx rfl
  · rintro hbeats x hx rfl
    exact hbeats x.real x.version ((h.fakeOf_iff _ _).1 hx.1) hx.2.1
  · obtain ⟨v', t, hx⟩ := h.fakeOf_iff_lease.1 hf'
    obtain rfl : w = v' := Option.some.inj (hw.symm.trans hx.2.1)
    exact hbeats _ hx rfl hne
  · rintro hbeats x hx rfl hne
    exact hbeats x.fake x.version hx.1 hne hx.2.1

/-- `AddMapping` replaces the rows at the two ends, or does nothing. -/
theorem addMapping_cases (h : RepInv p) {realIP : IP} (hr : realIP.WellFormed) (fakeIP : IP)
    (v : UInt64) (t : Time) :
    p.Accepts (toIPKey realIP) (toIPKey fakeIP) v ∧
      p.addMapping realIP fakeIP v t =
        (((p.release (toIPKey realIP)).reclaim (toIPKey fakeIP)).bind (shardOf (toIPKey realIP))
          (toIPKey realIP) (toIPKey fakeIP) v t, true) ∨
    ¬ p.Accepts (toIPKey realIP) (toIPKey fakeIP) v ∧
      p.addMapping realIP fakeIP v t = (p, false) := by
  rw [accepts_iff h]
  have hfakeOf : (p.shards (shardOf (toIPKey realIP))).realToFake.lookup (toIPKey realIP) =
      p.fakeOf (toIPKey realIP) := rfl
  simp only [IPPool.addMapping, getShardIndex_eq hr, hfakeOf]
  split_ifs with hfake hreal
  · exact .inr ⟨fun hacc => absurd hfake (by simp [hacc.1]), rfl⟩
  · exact .inr ⟨fun hacc => absurd hreal (by simp [hacc.2]), rfl⟩
  · refine .inl ⟨⟨by simpa using hfake, by simpa using hreal⟩, ?_⟩
    rw [replace_eq h]

/-- **`AddMapping` as a step of the table.** On a consistent pool it accepts exactly the mapping
that beats the rows it would displace. A mapping that is rejected changes nothing; one that is
accepted replaces those rows and leaves the others alone. The same call again is rejected. -/
theorem exact_addMapping (h : RepInv p) {realIP : IP} (hr : realIP.WellFormed) (fakeIP : IP)
    (v : UInt64) (t : Time) :
    let r := toIPKey realIP
    let f := toIPKey fakeIP
    let out := p.addMapping realIP fakeIP v t
    (out.2 = true ↔ p.Accepts r f v) ∧ (out.2 = false → out.1 = p) ∧
      (out.2 = true → RepInv out.1 ∧ out.1.toPoolRange = p.toPoolRange ∧ out.1.hlc = p.hlc ∧
        out.1.leases = insert ⟨r, f, v, t⟩ {x ∈ p.leases | x.real ≠ r ∧ x.fake ≠ f}) ∧
      out.1.addMapping realIP fakeIP v t = (out.1, false) := by
  intro r f out
  have hupdates := addMapping_updates h hr fakeIP v t
  rcases addMapping_cases h hr fakeIP v t with ⟨hacc, heq⟩ | ⟨hacc, heq⟩
  · have hinv : RepInv out.1 := hupdates.repInv h
    have hleases : out.1.leases = insert ⟨r, f, v, t⟩ {x ∈ p.leases | x.real ≠ r ∧ x.fake ≠ f} := by
      rw [show out.1 = _ from congrArg Prod.fst heq]
      exact leases_replace h r f v t
    have htrue : out.2 = true := congrArg Prod.snd heq
    refine ⟨iff_of_true htrue hacc, fun hfalse => ?_, fun _ => ?_, ?_⟩
    · rw [htrue] at hfalse
      cases hfalse
    · exact ⟨hinv, hupdates.toPoolRange_eq, p.hlc_addMapping realIP fakeIP v t, hleases⟩
    · -- the row that was written is not beaten by itself
      refine ((addMapping_cases hinv hr fakeIP v t).resolve_left fun hagain => ?_).2
      have hrow : (⟨r, f, v, t⟩ : Lease) ∈ out.1.leases := hleases ▸ Set.mem_insert _ _
      rcases hagain.1.1 _ hrow rfl with hlt | ⟨-, hlt⟩
      · exact lt_irrefl _ hlt
      · exact lt_irrefl _ hlt
  · have hfst : out.1 = p := congrArg Prod.fst heq
    have hfalse : out.2 = false := congrArg Prod.snd heq
    refine ⟨iff_of_false (by simp [hfalse]) hacc, fun _ => hfst, fun htrue => ?_, ?_⟩
    · rw [hfalse] at htrue
      cases htrue
    · rw [hfst, heq]

/-- A mapping that displaces two rows. -/
theorem exact_addMapping_displacing :
    let p := [Call.addMapping [1, 2, 3, 4] [198, 18, 0, 1] 1 0,
      .addMapping [5, 6, 7, 8] [198, 18, 0, 2] 2 0].foldl Call.run
        (newIPPoolWithConfig [] [] ⟨4, 4⟩)
    let out := p.addMapping [5, 6, 7, 8] [198, 18, 0, 1] 3 9
    out.2 = true ∧ out.1.addMapping [5, 6, 7, 8] [198, 18, 0, 1] 3 9 = (out.1, false) ∧
      out.1.leases = insert ⟨toIPKey [5, 6, 7, 8], toIPKey [198, 18, 0, 1], 3, 9⟩
        {x ∈ p.leases | x.real ≠ toIPKey [5, 6, 7, 8] ∧ x.fake ≠ toIPKey [198, 18, 0, 1]} := by
  intro p out
  have hp : RepInv p :=
    Call.repInv_foldl (.new [] [] ⟨4, 4⟩) (by simp [Call.addresses, IP.WellFormed])
  obtain ⟨-, -, htrue, hagain⟩ := exact_addMapping hp
    (show IP.WellFormed [5, 6, 7, 8] from .inl rfl)
    [198, 18, 0, 1] 3 9
  have haccepted : out.2 = true := by decide +kernel
  exact ⟨haccepted, hagain, (htrue haccepted).2.2.2⟩

end AddMapping

end NextPath.Pool
