import NextPath.Pool.Allocation

/-!
# The representation invariant

`RepInv` says that the four maps of a pool describe one partial bijection between reals and fakes.
It is kept by four small changes of the state (`Upd`), each made where it is allowed (`Upd.Ok`).

* `RepInv.apply`: a small change keeps the invariant.
* `Updates G`: the states reached by small changes of which `G` is true. What an operation can do
  is said once, as a statement `Updates G p p'` with the `G` of that operation; an invariant then
  has to be looked at for each small change only (`Updates.induct`).
-/

namespace NextPath.Pool

open Net

/-- The four maps are consistent. -/
structure RepInv (p : IPPool) : Prop where
  /-- A real has a fake when the fake has the real. -/
  fakeOf_iff : ∀ r f, p.fakeOf r = some f ↔ p.realOf f = some r
  /-- A real is stored in its own shard only. -/
  shard_eq : ∀ i r, r ∈ (p.shards i).realToFake → i = shardOf r
  /-- A real has an expiry when it has a fake. -/
  mem_expiries : ∀ i r, r ∈ (p.shards i).expiries ↔ r ∈ (p.shards i).realToFake
  /-- A fake has a version when it has a real. -/
  mem_versions : ∀ f, f ∈ p.globalVersions ↔ f ∈ p.globalFakeToReal

namespace RepInv

variable {p : IPPool}

theorem new (base4 base6 : Bytes) (cfg : IPPoolConfig) :
    RepInv (newIPPoolWithConfig base4 base6 cfg) where
  fakeOf_iff r f := by simp [newIPPoolWithConfig, IPPool.fakeOf, IPPool.realOf]
  shard_eq i r h := absurd h Finmap.notMem_empty
  mem_expiries _ _ := iff_of_false Finmap.notMem_empty Finmap.notMem_empty
  mem_versions _ := iff_of_false Finmap.notMem_empty Finmap.notMem_empty

/-- A fake serves one real. -/
theorem real_unique (h : RepInv p) {r r' f : IPKey} (hr : p.fakeOf r = some f)
    (hr' : p.fakeOf r' = some f) : r = r' := by
  have := ((h.fakeOf_iff r f).1 hr).symm.trans ((h.fakeOf_iff r' f).1 hr')
  exact Option.some.inj this

theorem isSome_versionOf (h : RepInv p) (f : IPKey) :
    (p.versionOf f).isSome ↔ (p.realOf f).isSome := by
  rw [IPPool.versionOf, IPPool.realOf, Finmap.lookup_isSome, Finmap.lookup_isSome]
  exact h.mem_versions f

theorem isSome_expiryOf (h : RepInv p) (r : IPKey) :
    (p.expiryOf r).isSome ↔ (p.fakeOf r).isSome := by
  rw [IPPool.expiryOf, IPPool.fakeOf, Finmap.lookup_isSome, Finmap.lookup_isSome]
  exact h.mem_expiries _ r

end RepInv

/-! ## Small changes -/

/-- A small change of the state. -/
inductive Upd
  | unbind (r f : IPKey)
  | bind (r f : IPKey) (version : UInt64) (expiresAt : Time)
  | refresh (r : IPKey) (expiresAt : Time)
  | tick (hlc : UInt64)

namespace Upd

/-- Where a small change is allowed. -/
def Ok (p : IPPool) : Upd → Prop
  | .unbind r f => p.fakeOf r = some f
  | .bind r f _ _ => p.fakeOf r = none ∧ p.realOf f = none
  | .refresh r _ => p.fakeOf r ≠ none
  | .tick _ => True

/-- The state after a small change. -/
def apply (p : IPPool) : Upd → IPPool
  | .unbind r f => p.unbind (shardOf r) r f
  | .bind r f v t => p.bind (shardOf r) r f v t
  | .refresh r t => p.modifyShard (shardOf r) (·.refresh r t)
  | .tick hlc => { p with hlc }

@[simp] theorem toPoolRange_apply (p : IPPool) (u : Upd) :
    (u.apply p).toPoolRange = p.toPoolRange := by
  cases u <;> rfl

end Upd

namespace RepInv

variable {p : IPPool}

theorem unbind (h : RepInv p) {r f : IPKey} (hr : p.fakeOf r = some f) :
    RepInv (p.unbind (shardOf r) r f) where
  fakeOf_iff x y := by
    rw [p.fakeOf_unbind, p.realOf_unbind]
    have hx : x = r → p.realOf y = some x → y = f := by
      rintro rfl hy
      exact Option.some.inj (((h.fakeOf_iff _ _).2 hy).symm.trans hr)
    have hy : y = f → p.fakeOf x = some y → x = r := by
      rintro rfl hx
      exact h.real_unique hx hr
    have := h.fakeOf_iff x y
    split_ifs <;> simp_all
  shard_eq i x hx := by
    rw [p.shards_unbind] at hx
    split_ifs at hx with hi
    · subst hi
      exact h.shard_eq _ x (Finmap.mem_erase.1 hx).2
    · exact h.shard_eq i x hx
  mem_expiries i x := by
    rw [p.shards_unbind]
    split_ifs with hi
    · subst hi
      simp only [CacheShard.drop, Finmap.mem_erase, h.mem_expiries]
    · exact h.mem_expiries i x
  mem_versions y := by
    simp only [IPPool.unbind, IPPool.dropFake, Finmap.mem_erase]
    exact and_congr_right fun _ => h.mem_versions y

theorem bind (h : RepInv p) {r f : IPKey} (hr : p.fakeOf r = none) (hf : p.realOf f = none)
    (v : UInt64) (t : Time) : RepInv (p.bind (shardOf r) r f v t) where
  fakeOf_iff x y := by
    rw [p.fakeOf_bind, p.realOf_bind]
    have hx : x = r → p.realOf y ≠ some x := by
      rintro rfl hy
      exact Option.some_ne_none y (((h.fakeOf_iff _ _).2 hy).symm.trans hr)
    have hy : y = f → p.fakeOf x ≠ some y := by
      rintro rfl hx
      exact Option.some_ne_none x (((h.fakeOf_iff _ _).1 hx).symm.trans hf)
    have := h.fakeOf_iff x y
    by_cases hxr : x = r <;> by_cases hyf : y = f <;> simp_all [eq_comm]
  shard_eq i x hx := by
    rw [p.shards_bind] at hx
    split_ifs at hx with hi
    · rcases Finmap.mem_insert.1 hx with rfl | hx
      · exact hi
      · exact hi.trans (h.shard_eq _ x hx)
    · exact h.shard_eq i x hx
  mem_expiries i x := by
    rw [p.shards_bind]
    split_ifs with hi
    · simp only [CacheShard.set, Finmap.mem_insert, h.mem_expiries]
    · exact h.mem_expiries i x
  mem_versions y := by
    simp only [IPPool.bind, IPPool.setFake, Finmap.mem_insert]
    exact or_congr_right (h.mem_versions y)

theorem refresh (h : RepInv p) {r : IPKey} (hr : p.fakeOf r ≠ none) (t : Time) :
    RepInv (p.modifyShard (shardOf r) (·.refresh r t)) where
  fakeOf_iff x y := by simpa using h.fakeOf_iff x y
  shard_eq i x hx := by
    rw [p.shards_modifyShard] at hx
    split_ifs at hx with hi
    · exact hi.trans (h.shard_eq _ x hx)
    · exact h.shard_eq i x hx
  mem_expiries i x := by
    rw [p.shards_modifyShard]
    split_ifs with hi
    · have hmem : r ∈ (p.shards (shardOf r)).realToFake := by
        rwa [← not_not (a := r ∈ _), ← Finmap.lookup_eq_none]
      simp only [CacheShard.refresh, Finmap.mem_insert, h.mem_expiries, or_iff_right_iff_imp]
      rintro rfl
      exact hmem
    · exact h.mem_expiries i x
  mem_versions := h.mem_versions

theorem tick (h : RepInv p) (hlc : UInt64) : RepInv { p with hlc } :=
  ⟨h.fakeOf_iff, h.shard_eq, h.mem_expiries, h.mem_versions⟩

/-- **A small change keeps the invariant.** -/
theorem apply (h : RepInv p) {u : Upd} (hu : u.Ok p) : RepInv (u.apply p) := by
  cases u with
  | unbind r f => exact h.unbind hu
  | bind r f v t => exact h.bind hu.1 hu.2 v t
  | refresh r t => exact h.refresh hu t
  | tick hlc => exact h.tick hlc

end RepInv

/-! ## Sequences of small changes -/

/-- Which small changes may be made, and in which state. -/
abbrev Guard := IPPool → Upd → Prop

/-- The second state is reached from the first by allowed changes of which the guard is true. -/
inductive Updates (G : Guard) (p : IPPool) : IPPool → Prop
  | refl : Updates G p p
  | tail {q : IPPool} (u : Upd) (h : Updates G p q) (ok : u.Ok q) (g : G q u) :
      Updates G p (u.apply q)

namespace Updates

variable {G G' : Guard} {p q q' : IPPool}

theorem single (u : Upd) (ok : u.Ok p) (g : G p u) : Updates G p (u.apply p) :=
  .tail u .refl ok g

theorem trans (h : Updates G p q) (h' : Updates G q q') : Updates G p q' := by
  induction h' with
  | refl => exact h
  | tail u _ ok g ih => exact .tail u ih ok g

theorem mono (h : Updates G p q) (hG : ∀ q u, G q u → G' q u) : Updates G' p q := by
  induction h with
  | refl => exact .refl
  | tail u _ ok g ih => exact .tail u ih ok (hG _ u g)

/-- **What every small change keeps is kept.** -/
theorem induct (h : Updates G p q) {I : IPPool → Prop} (hp : I p)
    (step : ∀ q u, I q → u.Ok q → G q u → I (u.apply q)) : I q := by
  induction h with
  | refl => exact hp
  | tail u _ ok g ih => exact step _ u ih ok g

theorem repInv (h : Updates G p q) (hp : RepInv p) : RepInv q :=
  h.induct hp fun _ _ hq ok _ => hq.apply ok

theorem toPoolRange_eq (h : Updates G p q) : q.toPoolRange = p.toPoolRange :=
  h.induct (I := fun q => q.toPoolRange = p.toPoolRange) rfl
    fun _ u hq _ _ => (u.toPoolRange_apply _).trans hq

/-- A loop whose every pass makes small changes. -/
theorem foldl {α : Type} {step : IPPool → α → IPPool} {l : List α}
    (hstep : ∀ q, RepInv q → ∀ a ∈ l, Updates G q (step q a)) (hp : RepInv p) :
    Updates G p (l.foldl step p) := by
  induction l generalizing p with
  | nil => exact .refl
  | cons a l ih =>
    have ha := hstep p hp a List.mem_cons_self
    exact ha.trans (ih (fun q hq b hb => hstep q hq b (List.mem_cons_of_mem a hb)) (ha.repInv hp))

end Updates

end NextPath.Pool
