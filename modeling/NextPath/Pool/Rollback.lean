import NextPath.Pool.Consistency
import NextPath.Pool.Results

/-!
# What a call that fails leaves behind

A call that finds no fake for one of its reals takes back the mappings it has made. On the way to
that real it has also deleted mappings whose lease had run out, and these it does not restore. Here
the pool that such a call leaves is compared with the one it started from, on any bytes: it has the
same mappings and versions (`SameMaps`) as the first pool without the dead mappings of some of the
reals (`vacateAll`).

A roll-back removes mappings one by one, and a deletion commutes with the removals
(`vacate_rollback`); so that what would be left if the call took back its mappings now can be
followed through the loop (`Trail`).

* `Trail.fill`: the loop, as long as it runs.
* `trail_call`: the whole call, when it succeeds and when it stops at a real (`StopsAt`).
* `Vacated.without`: the same in terms of the maps.
* `rollback_perm`: Go ranges over the new mappings in no fixed order, and it does not matter which.
-/

namespace NextPath.Pool

open Net

namespace IPPool

/-! ## Places -/

/-- The operations look for the two slices in the same slot. -/
def SamePlace (ip ip' : IP) : Prop :=
  getShardIndex ip = getShardIndex ip' ∧ toIPKey ip = toIPKey ip'

theorem SamePlace.symm {ip ip' : IP} (h : SamePlace ip ip') : SamePlace ip' ip :=
  ⟨h.1.symm, h.2.symm⟩

theorem SamePlace.fakeAt (p : IPPool) {ip ip' : IP} (h : SamePlace ip ip') :
    p.fakeAt ip = p.fakeAt ip' := by
  rw [IPPool.fakeAt, IPPool.fakeAt, h.1, h.2]

theorem SamePlace.live (p : IPPool) (now : Time) {ip ip' : IP} (h : SamePlace ip ip') {f : IPKey} :
    p.Live now ip f ↔ p.Live now ip' f := by
  rw [Live, Live, h.fakeAt, h.1, h.2]

/-- The text of a slice is read back as a slice of the same slot. -/
theorem samePlace_parseIP_string (ip : IP) : SamePlace (parseIP ip.string) ip := by
  by_cases h : ip.WellFormed
  · refine ⟨?_, toIPKey_parseIP_string h⟩
    rw [parseIP_string h, getShardIndex, getShardIndex, normalizeIP_to16 h]
  · obtain ⟨hi, hk⟩ := key_of_not_wellFormed h
    rw [parseIP_string_of_not_wellFormed h]
    exact ⟨hi.symm, hk.symm⟩

/-! ## Pools with the same mappings -/

/-- The pools have the same mappings and versions. -/
structure SameMaps (p q : IPPool) : Prop where
  slot : ∀ j x, (p.slot j x).1 = (q.slot j x).1
  realOf : ∀ f, p.realOf f = q.realOf f
  versionOf : ∀ f, p.versionOf f = q.versionOf f

namespace SameMaps

variable {p q q' : IPPool}

theorem refl (p : IPPool) : SameMaps p p := ⟨fun _ _ => rfl, fun _ => rfl, fun _ => rfl⟩

theorem trans (h : SameMaps p q) (h' : SameMaps q q') : SameMaps p q' where
  slot j x := (h.slot j x).trans (h'.slot j x)
  realOf f := (h.realOf f).trans (h'.realOf f)
  versionOf f := (h.versionOf f).trans (h'.versionOf f)

theorem refresh (p : IPPool) (i : Fin 64) (r : IPKey) (t : Time) :
    SameMaps (p.modifyShard i (·.refresh r t)) p where
  slot j x := by
    rw [slot_refresh]
    split_ifs with hj
    · rw [hj.1, hj.2]
    · rfl
  realOf _ := rfl
  versionOf _ := rfl

theorem unbind (h : SameMaps p q) (i : Fin 64) (r f : IPKey) :
    SameMaps (p.unbind i r f) (q.unbind i r f) where
  slot j x := by
    rw [slot_unbind, slot_unbind]
    split_ifs
    · rfl
    · exact h.slot j x
  realOf x := by rw [realOf_unbind, realOf_unbind, h.realOf]
  versionOf x := by rw [versionOf_unbind, versionOf_unbind, h.versionOf]

theorem fakeAt (h : SameMaps p q) (ip : IP) : p.fakeAt ip = q.fakeAt ip := h.slot _ _

theorem vacate (h : SameMaps p q) (ip : IP) : SameMaps (p.vacate ip) (q.vacate ip) := by
  rw [IPPool.vacate, IPPool.vacate, h.fakeAt]
  split
  · exact h.unbind _ _ _
  · exact h

theorem removeMapping (h : SameMaps p q) (realIP fakeIP : IP) :
    SameMaps (p.removeMapping realIP fakeIP) (q.removeMapping realIP fakeIP) := by
  have hf := h.fakeAt realIP
  simp only [IPPool.fakeAt, IPPool.slot] at hf
  simp only [IPPool.removeMapping, hf]
  split_ifs
  · exact h.unbind _ _ _
  · exact h

theorem rollback (h : SameMaps p q) (new : List (Sigma fun _ : Bytes => MappingInfo)) :
    SameMaps (p.rollback new) (q.rollback new) := by
  induction new generalizing p q with
  | nil => exact h
  | cons e new ih => exact ih (h.removeMapping _ _)

end SameMaps

/-! ## Deletions and removals -/

section Commute

variable (p : IPPool)

theorem removeMapping_of_eq {realIP fakeIP : IP} (h : p.fakeAt realIP = some (toIPKey fakeIP)) :
    p.removeMapping realIP fakeIP =
      p.unbind (getShardIndex realIP) (toIPKey realIP) (toIPKey fakeIP) := if_pos h

theorem removeMapping_of_ne {realIP fakeIP : IP} (h : p.fakeAt realIP ≠ some (toIPKey fakeIP)) :
    p.removeMapping realIP fakeIP = p := if_neg h

theorem fakeAt_unbind_self {ip ip' : IP} (h : SamePlace ip' ip) (f : IPKey) :
    (p.unbind (getShardIndex ip) (toIPKey ip) f).fakeAt ip' = none := by
  rw [fakeAt, slot_unbind, if_pos ⟨h.1, h.2⟩]

theorem fakeAt_unbind_of_ne {ip ip' : IP} (h : ¬ SamePlace ip' ip) (f : IPKey) :
    (p.unbind (getShardIndex ip) (toIPKey ip) f).fakeAt ip' = p.fakeAt ip' := by
  rw [fakeAt, slot_unbind, if_neg fun h' => h ⟨h'.1, h'.2⟩, fakeAt]

theorem unbind_comm (i i' : Fin 64) (r r' f f' : IPKey) :
    (p.unbind i r f).unbind i' r' f' = (p.unbind i' r' f').unbind i r f := by
  have hdrop (q : IPPool) : (q.dropFake f).dropFake f' = (q.dropFake f').dropFake f := by
    simp only [dropFake, Finmap.erase_erase]
  calc (p.unbind i r f).unbind i' r' f'
      = (((p.modifyShard i (·.drop r)).modifyShard i' (·.drop r')).dropFake f).dropFake f' := rfl
    _ = (((p.modifyShard i' (·.drop r')).modifyShard i (·.drop r)).dropFake f').dropFake f := by
      rw [p.modifyShard_drop_comm, hdrop]
    _ = (p.unbind i' r' f').unbind i r f := rfl

/-- A deletion and a removal commute. -/
theorem vacate_removeMapping (ip realIP fakeIP : IP) :
    (p.removeMapping realIP fakeIP).vacate ip = (p.vacate ip).removeMapping realIP fakeIP := by
  by_cases hplace : SamePlace ip realIP
  · -- both are about the same slot: the one that comes first empties it
    have hat := hplace.fakeAt p
    cases hf : p.fakeAt ip with
    | none =>
      have hreal : p.fakeAt realIP ≠ some (toIPKey fakeIP) := by simp [← hat, hf]
      rw [p.removeMapping_of_ne hreal, p.vacate_of_none hf, p.removeMapping_of_ne hreal]
    | some g =>
      have hempty := p.fakeAt_unbind_self hplace.symm g
      rw [p.vacate_of_some hf, removeMapping_of_ne (p.unbind _ _ g) (by simp [hempty])]
      by_cases hg : g = toIPKey fakeIP
      · rw [p.removeMapping_of_eq (by rw [← hat, hf, hg]), ← hplace.1, ← hplace.2, ← hg,
          vacate_of_none _ (p.fakeAt_unbind_self ⟨rfl, rfl⟩ g)]
      · have hreal : p.fakeAt realIP ≠ some (toIPKey fakeIP) := by simpa [← hat, hf] using hg
        rw [p.removeMapping_of_ne hreal, p.vacate_of_some hf]
  · have hip := p.fakeAt_unbind_of_ne hplace
    have hreal := p.fakeAt_unbind_of_ne fun h => hplace (SamePlace.symm h)
    by_cases hr : p.fakeAt realIP = some (toIPKey fakeIP)
    · rw [p.removeMapping_of_eq hr]
      cases hf : p.fakeAt ip with
      | none =>
        rw [vacate_of_none _ ((hip _).trans hf), p.vacate_of_none hf, p.removeMapping_of_eq hr]
      | some g =>
        rw [vacate_of_some _ ((hip _).trans hf), p.vacate_of_some hf,
          removeMapping_of_eq _ ((hreal g).trans hr), p.unbind_comm]
    · rw [p.removeMapping_of_ne hr]
      cases hf : p.fakeAt ip with
      | none => rw [p.vacate_of_none hf, p.removeMapping_of_ne hr]
      | some g =>
        rw [p.vacate_of_some hf, removeMapping_of_ne _ (by rwa [hreal])]

/-- **A deletion commutes with a roll-back.** -/
theorem vacate_rollback (ip : IP) (new : List (Sigma fun _ : Bytes => MappingInfo)) :
    (p.rollback new).vacate ip = (p.vacate ip).rollback new := by
  induction new generalizing p with
  | nil => rfl
  | cons e new ih =>
    show ((p.removeMapping (parseIP e.1) e.2.ip).rollback new).vacate ip =
      ((p.vacate ip).removeMapping (parseIP e.1) e.2.ip).rollback new
    rw [ih, vacate_removeMapping]

theorem fakeAt_removeMapping_or (realIP fakeIP ip : IP) :
    (p.removeMapping realIP fakeIP).fakeAt ip = p.fakeAt ip ∨
      (p.removeMapping realIP fakeIP).fakeAt ip = none := by
  by_cases hf : p.fakeAt realIP = some (toIPKey fakeIP)
  · rw [p.removeMapping_of_eq hf]
    by_cases hplace : SamePlace ip realIP
    · exact .inr (p.fakeAt_unbind_self hplace _)
    · exact .inl (p.fakeAt_unbind_of_ne hplace _)
  · rw [p.removeMapping_of_ne hf]
    exact .inl rfl

theorem removeMapping_comm (realIP fakeIP realIP' fakeIP' : IP) :
    (p.removeMapping realIP fakeIP).removeMapping realIP' fakeIP' =
      (p.removeMapping realIP' fakeIP').removeMapping realIP fakeIP := by
  have hor := p.fakeAt_removeMapping_or realIP' fakeIP' realIP
  by_cases hf : p.fakeAt realIP = some (toIPKey fakeIP)
  · rw [p.removeMapping_of_eq hf, ← p.vacate_of_some hf, ← vacate_removeMapping]
    generalize p.removeMapping realIP' fakeIP' = q at hor
    rcases hor with hsame | hnone
    · rw [q.vacate_of_some (hsame.trans hf), q.removeMapping_of_eq (hsame.trans hf)]
    · rw [q.vacate_of_none hnone, q.removeMapping_of_ne (by simp [hnone])]
  · rw [p.removeMapping_of_ne hf]
    generalize p.removeMapping realIP' fakeIP' = q at hor
    rcases hor with hsame | hnone
    · rw [q.removeMapping_of_ne (by rwa [hsame])]
    · rw [q.removeMapping_of_ne (by simp [hnone])]

/-- The order in which the new mappings are met does not matter. -/
theorem rollback_perm {new new' : List (Sigma fun _ : Bytes => MappingInfo)}
    (h : new.Perm new') : p.rollback new = p.rollback new' :=
  haveI : RightCommutative fun (p : IPPool) (e : Sigma fun _ : Bytes => MappingInfo) =>
    p.removeMapping (parseIP e.1) e.2.ip := ⟨fun _ _ _ => removeMapping_comm _ _ _ _ _⟩
  h.foldl_eq p

end Commute

/-! ## Several deletions -/

/-- The pool without the mappings of some addresses. -/
def vacateAll (p : IPPool) (gone : List IP) : IPPool := gone.foldl vacate p

theorem vacateAll_rollback (p : IPPool) (gone : List IP)
    (new : List (Sigma fun _ : Bytes => MappingInfo)) :
    (p.rollback new).vacateAll gone = (p.vacateAll gone).rollback new := by
  induction gone generalizing p with
  | nil => rfl
  | cons ip gone ih =>
    show ((p.rollback new).vacate ip).vacateAll gone = ((p.vacate ip).vacateAll gone).rollback new
    rw [vacate_rollback, ih]

theorem SameMaps.vacateAll {p q : IPPool} (h : SameMaps p q) (gone : List IP) :
    SameMaps (p.vacateAll gone) (q.vacateAll gone) := by
  induction gone generalizing p q with
  | nil => exact h
  | cons ip gone ih => exact ih (h.vacate ip)

theorem slot_vacateAll (p : IPPool) (gone : List IP) (j : Fin 64) (x f : IPKey) :
    ((p.vacateAll gone).slot j x).1 = some f ↔ (p.slot j x).1 = some f ∧
      ∀ ip ∈ gone, ¬ (j = getShardIndex ip ∧ x = toIPKey ip) := by
  induction gone generalizing p with
  | nil => simp [vacateAll]
  | cons ip gone ih =>
    refine (ih (p.vacate ip)).trans ?_
    rw [List.forall_mem_cons, ← and_assoc]
    refine and_congr_left fun _ => ?_
    by_cases hplace : j = getShardIndex ip ∧ x = toIPKey ip
    · have hnone : ((p.vacate ip).slot j x).1 = none := by
        rw [hplace.1, hplace.2]
        exact p.fakeAt_vacate ip
      exact iff_of_false (by simp [hnone]) fun h => h.2 hplace
    · rw [p.slot_vacate hplace]
      simp [hplace]

/-- A map of the fakes from which `vacate` deletes the fake of its address. -/
theorem lookup_vacateAll {V : Type} (m : IPPool → Map IPKey V)
    (hm : ∀ p i r f, m (IPPool.unbind p i r f) = (m p).erase f) (p : IPPool) (gone : List IP)
    (f : IPKey) (v : V) :
    (m (p.vacateAll gone)).lookup f = some v ↔
      (m p).lookup f = some v ∧ ∀ ip ∈ gone, p.fakeAt ip ≠ some f := by
  induction gone generalizing p with
  | nil => simp [vacateAll]
  | cons ip gone ih =>
    refine (ih (p.vacate ip)).trans ?_
    rw [List.forall_mem_cons]
    cases hf : p.fakeAt ip with
    | none => simp [p.vacate_of_none hf]
    | some g =>
      rw [p.vacate_of_some hf, hm, Map.lookup_erase_ite]
      by_cases hg : f = g
      · simp [hg]
      · have hne : some g ≠ some f := by simpa using Ne.symm hg
        rw [if_neg hg]
        refine and_congr_right fun _ => ⟨fun h => ⟨hne, fun ip' hip' => ?_⟩, fun h ip' hip' => ?_⟩
        · by_cases hplace : SamePlace ip' ip
          · rwa [hplace.fakeAt p, hf]
          · exact p.fakeAt_unbind_of_ne hplace g ▸ h ip' hip'
        · by_cases hplace : SamePlace ip' ip
          · simp [p.fakeAt_unbind_self hplace g]
          · exact p.fakeAt_unbind_of_ne hplace g ▸ h.2 ip' hip'

/-! ## The loop -/

section Secured

variable {p q : IPPool} {ip : IP} {isIPv6 : Bool} {now clk : Time} {f : IPKey}

theorem Secured.live_before (h : p.Secured ip isIPv6 now clk q (.existing f)) :
    p.Live now ip f := by
  cases h with
  | kept live => exact live
  | extended live => exact live

theorem Secured.sameMaps (h : p.Secured ip isIPv6 now clk q (.existing f)) : SameMaps q p := by
  cases h with
  | kept => exact .refl p
  | extended => exact .refresh ..

/-- A section that finds a mapping makes none live and none dead. -/
theorem Secured.live_iff (h : p.Secured ip isIPv6 now clk q (.existing f)) {ip' : IP} {g : IPKey} :
    q.Live now ip' g ↔ p.Live now ip' g := by
  refine ⟨fun hlive => ?_, fun hlive => hlive.secured h⟩
  by_cases hplace : SamePlace ip' ip
  · have hbefore := (hplace.live p now).2 h.live_before
    rwa [← Option.some.inj (hbefore.1.symm.trans ((h.sameMaps.fakeAt ip').symm.trans hlive.1))]
  · rwa [Live, fakeAt, h.slot_eq hplace] at hlive

end Secured

/-- What a call has done when it has handled some of its reals. If it took back its new mappings
now, the pool would be the first one without the mappings of the reals in `gone`, which are those
that had no live mapping. -/
structure Trail (p₀ : IPPool) (now : Time) (handled gone : List IP) (p : IPPool)
    (new : List (Sigma fun _ : Bytes => MappingInfo)) : Prop where
  same : SameMaps (p.rollback new) (p₀.vacateAll gone)
  live : ∀ e ∈ new, p.Live now (parseIP e.1) (toIPKey e.2.ip)
  paired : ∀ f, p.realOf f = none → p.versionOf f = none
  slot : ∀ ip, (∃ d ∈ gone, SamePlace d ip) ∨ ∀ f, p.Live now ip f ↔ p₀.Live now ip f
  subset : gone ⊆ handled
  dead : ∀ d ∈ gone, ∀ f, ¬ p₀.Live now d f
  covered : ∀ ip ∈ handled, (∃ d ∈ gone, SamePlace d ip) ∨ ∃ f, p₀.Live now ip f

namespace Trail

variable {p₀ p q : IPPool} {now : Time} {handled gone : List IP} {ip : IP}
  {new : List (Sigma fun _ : Bytes => MappingInfo)} {isIPv6 : Bool} {clk : Time}

theorem start (h : ∀ f, p₀.realOf f = none → p₀.versionOf f = none) (now : Time) :
    Trail p₀ now [] [] p₀ [] where
  same := .refl p₀
  live := by simp
  paired := h
  slot _ := .inr fun _ => Iff.rfl
  subset := List.Subset.refl _
  dead := by simp
  covered := by simp

/-- A section that finds a mapping. -/
theorem reuse (h : Trail p₀ now handled gone p new) {f : IPKey}
    (hsec : p.Secured ip isIPv6 now clk q (.existing f)) :
    Trail p₀ now (handled ++ [ip]) gone q new where
  same := (hsec.sameMaps.rollback new).trans h.same
  live e he := (h.live e he).secured hsec
  paired g hg := by
    rw [hsec.sameMaps.versionOf]
    exact h.paired g (hsec.sameMaps.realOf g ▸ hg)
  slot ip' := (h.slot ip').imp_right fun hiff g => hsec.live_iff.trans (hiff g)
  subset := List.Subset.trans h.subset (List.subset_append_left _ _)
  dead := h.dead
  covered ip' hip' := by
    rcases List.mem_append.1 hip' with hip' | hip'
    · exact h.covered ip' hip'
    · obtain rfl := List.mem_singleton.1 hip'
      exact (h.slot ip').imp_right fun hiff => ⟨f, (hiff f).1 hsec.live_before⟩

/-- The deletion of a mapping that is not live. -/
theorem vacate (h : Trail p₀ now handled gone p new) (hdead : ∀ f, ¬ p.Live now ip f) :
    Trail p₀ now (handled ++ [ip]) (gone ++ [ip]) (p.vacate ip) new := by
  have hother {ip' : IP} (hplace : ¬ SamePlace ip' ip) (f : IPKey) :
      (p.vacate ip).Live now ip' f ↔ p.Live now ip' f := by
    rw [Live, Live, fakeAt, fakeAt, p.slot_vacate hplace]
  have hself : ∃ d ∈ gone ++ [ip], SamePlace d ip := ⟨ip, by simp, rfl, rfl⟩
  have hmono {ip' : IP} (hd : ∃ d ∈ gone, SamePlace d ip') : ∃ d ∈ gone ++ [ip], SamePlace d ip' :=
    hd.imp fun d hd => ⟨List.mem_append_left _ hd.1, hd.2⟩
  refine ⟨?_, fun e he => ?_, fun f hf => ?_, fun ip' => ?_, ?_, fun d hd f => ?_,
    fun ip' hip' => ?_⟩
  · rw [← vacate_rollback, vacateAll, List.foldl_append]
    exact h.same.vacate ip
  · refine (hother (fun hplace => ?_) _).2 (h.live e he)
    exact hdead _ ((hplace.live p now).1 (h.live e he))
  · cases hip : p.fakeAt ip with
    | none =>
      rw [p.vacate_of_none hip] at hf ⊢
      exact h.paired f hf
    | some g =>
      rw [p.vacate_of_some hip, realOf_unbind] at hf
      rw [p.vacate_of_some hip, versionOf_unbind]
      split_ifs at hf ⊢
      · rfl
      · exact h.paired f hf
  · by_cases hplace : SamePlace ip' ip
    · exact .inl ⟨ip, by simp, hplace.symm⟩
    · exact (h.slot ip').imp hmono fun hiff f => (hother hplace f).trans (hiff f)
  · exact List.append_subset.2 ⟨List.Subset.trans h.subset (List.subset_append_left _ _),
      List.subset_append_right _ _⟩
  · rcases List.mem_append.1 hd with hd | hd
    · exact h.dead d hd f
    · obtain rfl := List.mem_singleton.1 hd
      rcases h.slot d with ⟨d', hd', hplace⟩ | hiff
      · exact fun hlive => h.dead d' hd' f ((hplace.live p₀ now).2 hlive)
      · exact fun hlive => hdead f ((hiff f).2 hlive)
  · rcases List.mem_append.1 hip' with hip' | hip'
    · exact (h.covered ip' hip').imp_left hmono
    · obtain rfl := List.mem_singleton.1 hip'
      exact .inl hself

/-- A write that a removal takes back. -/
theorem sameMaps_unbind_bind {i : Fin 64} {r f : IPKey} {v : UInt64} {t : Time}
    (hr : (p.slot i r).1 = none) (hf : p.realOf f = none) (hv : p.versionOf f = none) :
    SameMaps ((p.bind i r f v t).unbind i r f) p where
  slot j x := by
    rw [slot_unbind, slot_bind]
    split_ifs with hj
    · rw [hj.1, hj.2, hr]
    · rfl
  realOf x := by
    rw [realOf_unbind, realOf_bind]
    split_ifs with hx
    · rw [hx, hf]
    · rfl
  versionOf x := by
    rw [versionOf_unbind, versionOf_bind]
    split_ifs with hx
    · rw [hx, hv]
    · rfl

/-- A section that allocates. -/
theorem allocated (h : Trail p₀ now handled gone p new) {info : MappingInfo}
    (hsec : p.Secured ip isIPv6 now clk q (.allocated info)) :
    Trail p₀ now (handled ++ [ip]) (gone ++ [ip]) q (⟨ip.string, info⟩ :: new) := by
  have hlive := hsec.live_allocated
  have hbefore (e) (he : e ∈ new) := (h.live e he).secured hsec
  have hparse := samePlace_parseIP_string ip
  have hbound := (hparse.fakeAt q).trans hlive.1
  cases hsec with
  | @fresh fake dead find =>
    have hvacate := h.vacate dead
    have hfree := realOf_of_findFake _ find
    refine ⟨?_, List.forall_mem_cons.2 ⟨(hparse.live _ now).2 hlive, hbefore⟩, fun f hf => ?_,
      fun ip' => ?_, hvacate.subset, hvacate.dead, hvacate.covered⟩
    · refine SameMaps.trans (.rollback ?_ new) hvacate.same
      dsimp only
      rw [removeMapping_of_eq _ hbound, hparse.1, hparse.2]
      exact (sameMaps_unbind_bind (p := ((p.vacate ip).getNextVersion clk).1) (p.fakeAt_vacate ip)
        hfree (hvacate.paired _ hfree)).trans ⟨fun _ _ => rfl, fun _ => rfl, fun _ => rfl⟩
    · rw [realOf_bind] at hf
      rw [versionOf_bind]
      split_ifs at hf ⊢
      exact hvacate.paired f hf
    · by_cases hplace : SamePlace ip' ip
      · exact .inl ⟨ip, by simp, hplace.symm⟩
      · refine (hvacate.slot ip').imp_right fun hiff f => Iff.trans ?_ (hiff f)
        rw [Live, Live, fakeAt, fakeAt, slot_bind, if_neg fun h' => hplace ⟨h'.1, h'.2⟩]
        rfl

/-- A new text is not among those of the new mappings. -/
theorem notMem (h : Trail p₀ now handled gone p new) (hdead : ∀ f, ¬ p.Live now ip f) :
    ip.string ∉ new.keys := by
  intro hmem
  obtain ⟨info, he⟩ := List.exists_of_mem_keys hmem
  have hlive : p.Live now (parseIP ip.string) (toIPKey info.ip) := h.live ⟨ip.string, info⟩ he
  exact hdead _ (((samePlace_parseIP_string ip).live p now).1 hlive)

end Trail

/-- The pool is the first one without the mappings of some of the reals that have been handled:
those that were not live. -/
def Vacated (p₀ : IPPool) (now : Time) (handled : List IP) (p : IPPool) : Prop :=
  ∃ gone ⊆ handled, SameMaps p (p₀.vacateAll gone) ∧ (∀ d ∈ gone, ∀ f, ¬ p₀.Live now d f) ∧
    ∀ ip ∈ handled, (∃ d ∈ gone, SamePlace d ip) ∨ ∃ f, p₀.Live now ip f

theorem Trail.vacated {p₀ p : IPPool} {now : Time} {handled gone : List IP}
    {new : List (Sigma fun _ : Bytes => MappingInfo)} (h : Trail p₀ now handled gone p new) :
    Vacated p₀ now handled (p.rollback new) :=
  ⟨gone, h.subset, h.same, h.dead, h.covered⟩

/-- **The loop**, as long as it runs. -/
theorem Trail.fill {p₀ : IPPool} {isIPv6 : Bool} {now : Time} {reals : List IP} {clk : ℕ → Time}
    {handled gone : List IP} {p p' : IPPool} {found found' : Found}
    (h : Trail p₀ now handled gone p found.newMappings.entries)
    (hfill : IPPool.fill isIPv6 now reals clk p found = (p', some found')) :
    ∃ gone', Trail p₀ now (handled ++ reals) gone' p' found'.newMappings.entries := by
  induction reals generalizing clk handled gone p found with
  | nil =>
    cases hfill
    exact ⟨gone, by rwa [List.append_nil]⟩
  | cons ip reals ih =>
    rw [List.append_cons]
    rcases p.fill_cons_cases hfill with ⟨q, f, hsec, hrest⟩ | ⟨q, info, hsec, hrest⟩ | ⟨q, -, hrest⟩
    · have hq : Trail p₀ now (handled ++ [ip]) gone q (found.reuse ip f).newMappings.entries :=
        h.reuse hsec
      exact ih hq hrest
    · have hdead : ∀ f, ¬ p.Live now ip f := by
        cases hsec with
        | fresh dead _ => exact dead
      have hentries : (found.allocated ip info).newMappings.entries =
          ⟨ip.string, info⟩ :: found.newMappings.entries :=
        AList.entries_insert_of_notMem fun hmem => h.notMem hdead hmem
      have hq := h.allocated hsec
      rw [← hentries] at hq
      exact ih hq hrest
    · cases hrest

/-! ## A call that fails -/

/-- The address has that fake, and the lease has run out. -/
def Expired (p : IPPool) (now : Time) (ip : IP) (f : IPKey) : Prop :=
  ∃ t ≤ now, p.slot (getShardIndex ip) (toIPKey ip) = (some f, some t)

/-- The mappings and versions of the second pool are those of the first without the expired
mappings of some addresses. -/
structure Without (p : IPPool) (now : Time) (ips : List IP) (p' : IPPool) : Prop where
  slot : ∀ j x f, (p'.slot j x).1 = some f ↔ (p.slot j x).1 = some f ∧
    ∀ ip ∈ ips, j = getShardIndex ip → x = toIPKey ip → ¬ p.Expired now ip f
  realOf : ∀ f r, p'.realOf f = some r ↔ p.realOf f = some r ∧ ∀ ip ∈ ips, ¬ p.Expired now ip f
  versionOf : ∀ f v, p'.versionOf f = some v ↔
    p.versionOf f = some v ∧ ∀ ip ∈ ips, ¬ p.Expired now ip f

theorem expired_iff {p : IPPool} {now : Time} {ip : IP} {f : IPKey} :
    p.Expired now ip f ↔ p.fakeAt ip = some f ∧ ∀ g, ¬ p.Live now ip g := by
  constructor
  · rintro ⟨t, hle, hslot⟩
    refine ⟨by rw [fakeAt, hslot], fun g hlive => ?_⟩
    exact hle.not_gt (hlive.2 t (by rw [hslot]))
  · rintro ⟨hf, hdead⟩
    have := hdead f
    rw [Live, not_and] at this
    obtain ⟨t, ht, hle⟩ : ∃ t, (p.slot (getShardIndex ip) (toIPKey ip)).2 = some t ∧ t ≤ now := by
      simpa using this hf
    exact ⟨t, hle, Prod.ext hf ht⟩

theorem Vacated.without {p p' : IPPool} {now : Time} {ips : List IP} (h : Vacated p now ips p') :
    Without p now ips p' := by
  obtain ⟨gone, hsub, hsame, hdead, hcov⟩ := h
  -- the fakes that have gone are those of the expired mappings
  have hgone (f : IPKey) :
      (∀ d ∈ gone, p.fakeAt d ≠ some f) ↔ ∀ ip ∈ ips, ¬ p.Expired now ip f := by
    refine ⟨fun hne ip hip hexp => ?_, fun hne d hd hf => ?_⟩
    · obtain ⟨hf, hnot⟩ := expired_iff.1 hexp
      rcases hcov ip hip with ⟨d, hd, hplace⟩ | ⟨g, hlive⟩
      · exact hne d hd ((hplace.fakeAt p).trans hf)
      · exact hnot g hlive
    · exact hne d (hsub hd) (expired_iff.2 ⟨hf, hdead d hd⟩)
  refine ⟨fun j x f => ?_, fun f r => ?_, fun f v => ?_⟩
  · rw [hsame.slot, slot_vacateAll]
    refine and_congr_right fun hf => ⟨fun hne ip hip hj hx hexp => ?_, fun hne d hd hplace => ?_⟩
    · rcases hcov ip hip with ⟨d, hd, hplace⟩ | ⟨g, hlive⟩
      · exact hne d hd ⟨hj.trans hplace.1.symm, hx.trans hplace.2.symm⟩
      · exact (expired_iff.1 hexp).2 g hlive
    · refine hne d (hsub hd) hplace.1 hplace.2 (expired_iff.2 ⟨?_, hdead d hd⟩)
      rw [fakeAt, ← hplace.1, ← hplace.2, hf]
  · rw [hsame.realOf, realOf, lookup_vacateAll (·.globalFakeToReal) fun _ _ _ _ => rfl, hgone]
    rfl
  · rw [hsame.versionOf, versionOf, lookup_vacateAll (·.globalVersions) fun _ _ _ _ => rfl, hgone]
    rfl

/-- The call has handled `done` when it comes to `ip`, which has no live mapping in the pool it has
reached and for which no fake is free there. -/
def StopsAt (p : IPPool) (isIPv6 : Bool) (now : Time) (clk : ℕ → Time) (done : List IP) (ip : IP) :
    Prop :=
  ∃ q found, fill isIPv6 now done clk p ⟨∅, ∅⟩ = (q, some found) ∧ (∀ f, ¬ q.Live now ip f) ∧
    (q.vacate ip).findFake ip isIPv6 = none

/-- A call for some reals, of a pool in which every version belongs to a mapping. -/
theorem trail_call {p : IPPool} (hp : ∀ f, p.realOf f = none → p.versionOf f = none)
    {reals : List IP} (hreals : reals ≠ []) (isIPv6 : Bool) (now : Time) (clk : ℕ → Time) :
    match p.getFakeIPsForReals reals isIPv6 now clk with
    | (p', some found) =>
      Vacated p now (sortReals reals) (p'.rollback found.newMappings.entries) ∧
        ∀ f, p'.realOf f = none → p'.versionOf f = none
    | (p', none) => ∃ done ip rest, sortReals reals = done ++ ip :: rest ∧
        p.StopsAt isIPv6 now clk done ip ∧ (∀ f, ¬ p.Live now ip f) ∧
        Vacated p now (done ++ [ip]) p' := by
  rw [getFakeIPsForReals, if_neg hreals]
  generalize hout : IPPool.fill isIPv6 now (sortReals reals) clk p ⟨∅, ∅⟩ = out
  have hstart : Trail p now [] [] p (⟨∅, ∅⟩ : Found).newMappings.entries := .start hp now
  rcases out with ⟨p', _ | found⟩
  · obtain ⟨done, ip, rest, q, found, hsplit, hdone, hdead, hfull, rfl⟩ := p.fill_eq_none hout
    obtain ⟨gone, htrail⟩ := hstart.fill hdone
    have hvacate := htrail.vacate hdead
    exact ⟨done, ip, rest, hsplit, ⟨q, found, hdone, hdead, hfull⟩, hvacate.dead ip (by simp),
      hvacate.vacated⟩
  · obtain ⟨gone, htrail⟩ := hstart.fill hout
    exact ⟨htrail.vacated, htrail.paired⟩

end IPPool

end NextPath.Pool
