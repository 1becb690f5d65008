import NextPath.Pool.State

/-!
# The operations of the pool

`AddMapping`, `RemoveMapping`, `TryReserve`, `PruneExpired` and the logical clock, each as a
function on the state. A reading of the clock is an argument. Every change to the maps is one of
two: `bind` writes a pair into the four maps, `unbind` deletes one from them; only `AddMapping`
deletes less, because the write that follows covers the rest.

Go ranges over a map in no fixed order. The order in which `PruneExpired` meets the entries of a
shard is an argument of it.
-/

namespace NextPath.Pool

open Net

/-- A shard with the entry of a real deleted. -/
def CacheShard.drop (s : CacheShard) (r : IPKey) : CacheShard :=
  ⟨s.realToFake.erase r, s.expiries.erase r⟩

/-- A shard with an entry written. -/
def CacheShard.set (s : CacheShard) (r f : IPKey) (expiresAt : Time) : CacheShard :=
  ⟨s.realToFake.insert r f, s.expiries.insert r expiresAt⟩

/-- A shard with a lease extended. -/
def CacheShard.refresh (s : CacheShard) (r : IPKey) (expiresAt : Time) : CacheShard :=
  { s with expiries := s.expiries.insert r expiresAt }

/-- The pairs of a shard that have expired, in the order in which it is scanned. -/
def CacheShard.expired (s : CacheShard) (now : Time) (order : List IPKey) :
    List (IPKey × IPKey) :=
  order.filterMap fun r =>
    match s.expiries.lookup r, s.realToFake.lookup r with
    | some expiry, some f => if expiry < now then some (r, f) else none
    | _, _ => none

namespace IPPool

variable (p : IPPool)

/-- A fake deleted from the global maps. -/
def dropFake (f : IPKey) : IPPool :=
  { p with
    globalFakeToReal := p.globalFakeToReal.erase f
    globalVersions := p.globalVersions.erase f }

/-- A fake written to the global maps. -/
def setFake (f r : IPKey) (version : UInt64) : IPPool :=
  { p with
    globalFakeToReal := p.globalFakeToReal.insert f r
    globalVersions := p.globalVersions.insert f version }

/-- A pair deleted, the real from shard `i`. -/
def unbind (i : Fin 64) (r f : IPKey) : IPPool := (p.modifyShard i (·.drop r)).dropFake f

/-- A pair written, the real to shard `i`. -/
def bind (i : Fin 64) (r f : IPKey) (version : UInt64) (expiresAt : Time) : IPPool :=
  (p.modifyShard i (·.set r f expiresAt)).setFake f r version

/-! ## What the two updates do to the maps -/

section Lookup

variable (i j : Fin 64) (g : CacheShard → CacheShard) (r f x : IPKey) (v : UInt64) (t : Time)

theorem shards_modifyShard :
    (p.modifyShard i g).shards j = if j = i then g (p.shards i) else p.shards j := by
  simp only [modifyShard, Function.update_apply]

@[simp] theorem realOf_modifyShard : (p.modifyShard i g).realOf x = p.realOf x := rfl

@[simp] theorem versionOf_modifyShard : (p.modifyShard i g).versionOf x = p.versionOf x := rfl

@[simp] theorem hlc_modifyShard : (p.modifyShard i g).hlc = p.hlc := rfl

@[simp] theorem toPoolRange_modifyShard :
    (p.modifyShard i g).toPoolRange = p.toPoolRange := rfl

theorem realOf_bind :
    (p.bind i r f v t).realOf x = if x = f then some r else p.realOf x :=
  Map.lookup_insert_ite ..

theorem versionOf_bind :
    (p.bind i r f v t).versionOf x = if x = f then some v else p.versionOf x :=
  Map.lookup_insert_ite ..

theorem shards_bind :
    (p.bind i r f v t).shards j = if j = i then (p.shards i).set r f t else p.shards j :=
  p.shards_modifyShard i j (·.set r f t)

@[simp] theorem hlc_bind : (p.bind i r f v t).hlc = p.hlc := rfl

@[simp] theorem toPoolRange_bind : (p.bind i r f v t).toPoolRange = p.toPoolRange := rfl

theorem realOf_unbind :
    (p.unbind i r f).realOf x = if x = f then none else p.realOf x :=
  Map.lookup_erase_ite ..

theorem versionOf_unbind :
    (p.unbind i r f).versionOf x = if x = f then none else p.versionOf x :=
  Map.lookup_erase_ite ..

theorem shards_unbind :
    (p.unbind i r f).shards j = if j = i then (p.shards i).drop r else p.shards j :=
  p.shards_modifyShard i j (·.drop r)

@[simp] theorem hlc_unbind : (p.unbind i r f).hlc = p.hlc := rfl

@[simp] theorem toPoolRange_unbind : (p.unbind i r f).toPoolRange = p.toPoolRange := rfl

/-- An update of a shard that touches the entries of one real only. -/
theorem slot_modifyShard {entry : Option IPKey × Option Time}
    (hr : ((g (p.shards i)).realToFake.lookup r, (g (p.shards i)).expiries.lookup r) = entry)
    (hg : ∀ y ≠ r, (g (p.shards i)).realToFake.lookup y = (p.shards i).realToFake.lookup y ∧
      (g (p.shards i)).expiries.lookup y = (p.shards i).expiries.lookup y) :
    (p.modifyShard i g).slot j x = if j = i ∧ x = r then entry else p.slot j x := by
  subst hr
  simp only [slot, shards_modifyShard]
  by_cases hj : j = i
  · subst hj
    by_cases hx : x = r
    · subst hx
      simp
    · simp [hx, hg x hx]
  · simp [hj]

theorem slot_bind :
    (p.bind i r f v t).slot j x = if j = i ∧ x = r then (some f, some t) else p.slot j x :=
  p.slot_modifyShard i j (·.set r f t) r x (by simp [CacheShard.set]) fun _ hy =>
    ⟨Finmap.lookup_insert_of_ne _ hy, Finmap.lookup_insert_of_ne _ hy⟩

theorem slot_unbind :
    (p.unbind i r f).slot j x = if j = i ∧ x = r then (none, none) else p.slot j x :=
  p.slot_modifyShard i j (·.drop r) r x (by simp [CacheShard.drop]) fun _ hy =>
    ⟨Finmap.lookup_erase_ne hy, Finmap.lookup_erase_ne hy⟩

theorem slot_refresh :
    (p.modifyShard i (·.refresh r t)).slot j x =
      if j = i ∧ x = r then ((p.slot i r).1, some t) else p.slot j x :=
  p.slot_modifyShard i j (·.refresh r t) r x (by simp [CacheShard.refresh, slot]) fun _ hy =>
    ⟨rfl, Finmap.lookup_insert_of_ne _ hy⟩

theorem fakeOf_eq_slot : p.fakeOf x = (p.slot (shardOf x) x).1 := rfl

theorem fakeOf_bind :
    (p.bind (shardOf r) r f v t).fakeOf x = if x = r then some f else p.fakeOf x := by
  rw [fakeOf_eq_slot, slot_bind, fakeOf_eq_slot]
  by_cases hx : x = r <;> simp [hx]

theorem fakeOf_unbind :
    (p.unbind (shardOf r) r f).fakeOf x = if x = r then none else p.fakeOf x := by
  rw [fakeOf_eq_slot, slot_unbind, fakeOf_eq_slot]
  by_cases hx : x = r <;> simp [hx]

/-- Extending a lease leaves the mappings alone. -/
@[simp] theorem fakeOf_refresh :
    (p.modifyShard i (·.refresh r t)).fakeOf x = p.fakeOf x := by
  rw [fakeOf_eq_slot, slot_refresh, fakeOf_eq_slot]
  split_ifs with hx
  · rw [hx.1, hx.2]
  · rfl

end Lookup

/-! ## Adding a mapping -/

/-- The incoming mapping does not beat the one that holds the fake: it is older, or as old with a
real that is not greater. -/
def losesFake (realKey fakeKey : IPKey) (version : UInt64) : Bool :=
  match p.realOf fakeKey, p.versionOf fakeKey with
  | some existingReal, some existingVersion =>
    version < existingVersion || (version == existingVersion && realKey ≤ existingReal)
  | _, _ => false

/-- The incoming mapping does not beat the one of its real to another fake: it is older, or as old
with a fake that is not greater. -/
def losesReal (existingFake : Option IPKey) (fakeKey : IPKey) (version : UInt64) : Bool :=
  match existingFake with
  | none => false
  | some f =>
    f ≠ fakeKey && match p.versionOf f with
      | some existingVersion =>
        version < existingVersion || (version == existingVersion && fakeKey ≤ f)
      | none => false

/-- A mapping beats a stored one at an address they share: it is newer, or as old with a greater
address at its other end. -/
def Beats (version : UInt64) (address : IPKey) (existingVersion : UInt64)
    (existingAddress : IPKey) : Prop :=
  existingVersion < version ∨ existingVersion = version ∧ existingAddress < address

theorem loses_eq_false_iff {v w : UInt64} {a b : IPKey} :
    (decide (v < w) || (v == w && decide (a ≤ b))) = false ↔ Beats v a w b := by
  rw [Beats, Bool.or_eq_false_iff, decide_eq_false_iff_not, not_lt, Bool.and_eq_false_iff,
    beq_eq_false_iff_ne, decide_eq_false_iff_not, not_le]
  refine ⟨fun ⟨hle, htie⟩ => hle.lt_or_eq.imp_right fun he => ⟨he, ?_⟩, ?_⟩
  · exact htie.resolve_left (not_not.2 he.symm)
  · rintro (hlt | ⟨rfl, hlt⟩)
    · exact ⟨hlt.le, .inl hlt.ne'⟩
    · exact ⟨le_rfl, .inr hlt⟩

theorem losesFake_eq_false_iff {r f : IPKey} {v : UInt64} :
    p.losesFake r f v = false ↔
      ∀ r' w, p.realOf f = some r' → p.versionOf f = some w → Beats v r w r' := by
  rw [losesFake]
  cases hr : p.realOf f with
  | none => simp
  | some r' =>
    cases hv : p.versionOf f with
    | none => simp
    | some w => simpa using loses_eq_false_iff

theorem losesReal_eq_false_iff {e : Option IPKey} {f : IPKey} {v : UInt64} :
    p.losesReal e f v = false ↔
      ∀ f' w, e = some f' → f' ≠ f → p.versionOf f' = some w → Beats v f w f' := by
  cases e with
  | none => simp [losesReal]
  | some f' =>
    have hone : (∀ x w, some f' = some x → x ≠ f → p.versionOf x = some w → Beats v f w x) ↔
        (f' ≠ f → ∀ w, p.versionOf f' = some w → Beats v f w f') := by
      refine ⟨fun h hne w hw => h f' w rfl hne hw, fun h x w hx hne hw => ?_⟩
      obtain rfl := Option.some.inj hx
      exact h hne w hw
    rw [hone, losesReal]
    by_cases hf : f' = f
    · simp [hf]
    · cases hv : p.versionOf f' with
      | none => simp
      | some w => simpa [hf] using loses_eq_false_iff

/-- The fake the real had is dropped from the global maps, if it is another one. -/
def dropOldFake (existingFake : Option IPKey) (fakeKey : IPKey) : IPPool :=
  match existingFake with
  | some f => if f ≠ fakeKey then p.dropFake f else p
  | none => p

/-- The other real that holds the fake, to be cleared. -/
def oldRealToClear (realKey fakeKey : IPKey) : Option IPKey :=
  (p.realOf fakeKey).filter (· ≠ realKey)

/-- A real is cleared from its shard. -/
def clearOldReal (oldReal : Option IPKey) : IPPool :=
  match oldReal with
  | some r => p.modifyShard (shardOf r) (·.drop r)
  | none => p

/-- `AddMapping`. -/
def addMapping (realIP fakeIP : IP) (version : UInt64) (expiresAt : Time) : IPPool × Bool :=
  let realKey := toIPKey realIP
  let fakeKey := toIPKey fakeIP
  let i := getShardIndex realIP
  let existingFake := (p.shards i).realToFake.lookup realKey
  if p.losesFake realKey fakeKey version then (p, false)
  else if p.losesReal existingFake fakeKey version then (p, false)
  else
    (((p.dropOldFake existingFake fakeKey).clearOldReal (p.oldRealToClear realKey fakeKey)).bind i
      realKey fakeKey version expiresAt, true)

section Lookup

variable (e o : Option IPKey) (f x : IPKey)

@[simp] theorem realOf_clearOldReal : (p.clearOldReal o).realOf x = p.realOf x := by
  cases o <;> rfl

@[simp] theorem versionOf_clearOldReal : (p.clearOldReal o).versionOf x = p.versionOf x := by
  cases o <;> rfl

@[simp] theorem hlc_clearOldReal : (p.clearOldReal o).hlc = p.hlc := by
  cases o <;> rfl

theorem lookup_dropOldFake {V : Type} (m : IPPool → Map IPKey V)
    (hm : ∀ f, m (p.dropFake f) = (m p).erase f) :
    (m (p.dropOldFake e f)).lookup x = if x ≠ f ∧ e = some x then none else (m p).lookup x := by
  cases e with
  | none => simp [dropOldFake]
  | some e =>
    by_cases he : e = f
    · have : ¬ (x ≠ f ∧ some e = some x) := fun h => h.1 (Option.some.inj h.2 ▸ he)
      rw [dropOldFake, if_neg (not_not.2 he), if_neg this]
    · have : x = e ↔ x ≠ f ∧ some e = some x := by grind
      rw [dropOldFake, if_pos he, hm, Map.lookup_erase_ite]
      simp only [this]

theorem realOf_dropOldFake :
    (p.dropOldFake e f).realOf x = if x ≠ f ∧ e = some x then none else p.realOf x :=
  p.lookup_dropOldFake e f x (·.globalFakeToReal) fun _ => rfl

theorem versionOf_dropOldFake :
    (p.dropOldFake e f).versionOf x = if x ≠ f ∧ e = some x then none else p.versionOf x :=
  p.lookup_dropOldFake e f x (·.globalVersions) fun _ => rfl

@[simp] theorem hlc_dropOldFake : (p.dropOldFake e f).hlc = p.hlc := by
  cases e with
  | none => rfl
  | some e => by_cases he : e = f <;> simp [dropOldFake, he, dropFake]

end Lookup

/-! ## Removing a mapping -/

/-- `RemoveMapping`. -/
def removeMapping (realIP fakeIP : IP) : IPPool :=
  let i := getShardIndex realIP
  if (p.shards i).realToFake.lookup (toIPKey realIP) = some (toIPKey fakeIP) then
    p.unbind i (toIPKey realIP) (toIPKey fakeIP)
  else p

/-! ## Reserving a fake -/

/-- The end of `TryReserve`: the fake is taken if it is free. -/
def reserve (realIP fakeIP : IP) (version : UInt64) (expiresAt : Time) : IPPool × Bool × IP :=
  if (p.realOf (toIPKey fakeIP)).isSome then (p, false, [])
  else
    (p.bind (getShardIndex realIP) (toIPKey realIP) (toIPKey fakeIP) version expiresAt, true,
      fakeIP)

/-- `TryReserve`. The clock is read at most twice, to test the lease and to decide whether it is
extended. -/
def tryReserve (realIP fakeIP : IP) (version : UInt64) (expiresAt now now' : Time) :
    IPPool × Bool × IP :=
  let realKey := toIPKey realIP
  let i := getShardIndex realIP
  match (p.shards i).realToFake.lookup realKey with
  | none => p.reserve realIP fakeIP version expiresAt
  | some existingFake =>
    match (p.shards i).expiries.lookup realKey with
    | none => (p, true, existingFake.toIP)
    | some expiry =>
      if now < expiry then
        (if expiry < now' + 5 * minute then p.modifyShard i (·.refresh realKey expiresAt) else p,
          true, existingFake.toIP)
      else (p.unbind i realKey existingFake).reserve realIP fakeIP version expiresAt

/-! ## Pruning -/

/-- One deletion of `PruneExpired`, under the locks: the entry is looked at again. -/
def pruneEntry (i : Fin 64) (now : Time) (pair : IPKey × IPKey) : IPPool :=
  match (p.shards i).expiries.lookup pair.1 with
  | some expiry =>
    if expiry < now ∧ (p.shards i).realToFake.lookup pair.1 = some pair.2 then
      p.unbind i pair.1 pair.2
    else p
  | none => p

/-- The pass of `PruneExpired` over one shard. -/
def pruneShard (now : Time) (order : List IPKey) (i : Fin 64) : IPPool :=
  ((p.shards i).expired now order).foldl (fun p pair => p.pruneEntry i now pair) p

/-- `PruneExpired`. -/
def pruneExpired (now : Time) (order : Fin 64 → List IPKey) : IPPool :=
  (List.finRange 64).foldl (fun p i => p.pruneShard now (order i) i) p

/-! ## Versions -/

/-- `GetVersion`. -/
def getVersion (fakeIP : IP) : UInt64 := (p.versionOf (toIPKey fakeIP)).getD 0

/-- `GetNextVersion`. -/
def getNextVersion (t : Time) : IPPool × UInt64 :=
  let hlc := if p.hlc < unixNano t then unixNano t else p.hlc + 1
  ({ p with hlc }, hlc)

/-- `ObserveVersion`. -/
def observeVersion (v : UInt64) (t : Time) : IPPool :=
  let hlc := if p.hlc < unixNano t then unixNano t else p.hlc
  { p with hlc := if hlc < v then v else hlc }

end IPPool

end NextPath.Pool
