import Mathlib.Data.List.Dedup
import NextPath.Pool.Probing

/-!
# Allocation does not depend on the order of the answer

`GetFakeIPsForReals` gives fakes to the reals one after the other, and each fake that is taken is
in the way of those that come later; so what a real is given depends on which reals come before it.
The call sorts them first. Here two lists with the same addresses are shown to be served alike:

* `visit_to16`: a real is looked at through its 16-byte form only;
* `visit_of_secured`: a real that has been served is found as it is, so that a repetition does
  nothing;
* `fill_dedup`: a sorted list is served as the list without its repetitions, and there is only one
  such list for a set of addresses;
* `same_answer`: the call on two lists, and on any order that the sort may leave.
-/

namespace NextPath.Pool

open Net

/-! ## The forms of an address -/

/-- An address of 4 or 16 bytes, or `nil`, which is what a record without an address has. Slices of
other lengths are left out: they share one slot but not their text, so that the new mappings name
the one that comes first. -/
def Proper (ip : IP) : Prop := ip.WellFormed ∨ ip = []

namespace Proper

variable {ip : IP}

theorem to16 (h : Proper ip) : Proper ip.to16 := by
  rcases h with h | rfl
  · exact .inl (.inr (IP.length_to16 h))
  · exact .inr rfl

theorem to16_to16 (h : Proper ip) : ip.to16.to16 = ip.to16 := by
  rcases h with h | rfl
  · exact IP.to16_to16 ip h
  · rfl

theorem to4_to16 (h : Proper ip) : ip.to16.to4 = ip.to4 := by
  rcases h with h | rfl
  · exact IP.to4_to16 ip h
  · rfl

theorem toIPKey_to16 (h : Proper ip) : toIPKey ip.to16 = toIPKey ip := by
  rcases h with h | rfl
  · exact Net.toIPKey_to16 h
  · rfl

theorem getShardIndex_to16 (h : Proper ip) : getShardIndex ip.to16 = getShardIndex ip := by
  rw [getShardIndex, getShardIndex, normalizeIP, normalizeIP, h.to4_to16, h.to16_to16]

theorem string_to16 (h : Proper ip) : IP.string ip.to16 = ip.string := by
  rcases h with h | rfl
  · exact Net.string_to16 h
  · rfl

end Proper

/-! ## One real -/

namespace IPPool

variable (p : IPPool)

/-- What a pass of the loop does with its real: the look under the read lock and, if that finds
nothing, the section under the locks. -/
def visit (realIP : IP) (isIPv6 : Bool) (now clk : Time) : IPPool × Outcome :=
  match p.peek now realIP with
  | some fake => (p, .existing fake)
  | none => p.secure realIP isIPv6 now clk

theorem secured_visit (realIP : IP) (isIPv6 : Bool) (now clk : Time) :
    p.Secured realIP isIPv6 now clk (p.visit realIP isIPv6 now clk).1
      (p.visit realIP isIPv6 now clk).2 := by
  rw [visit]
  cases hpeek : p.peek now realIP with
  | some f => exact p.secured_peek hpeek isIPv6 clk
  | none => exact p.secured_secure realIP isIPv6 now clk

theorem fill_cons (isIPv6 : Bool) (now : Time) (realIP : IP) (rest : List IP) (clk : ℕ → Time)
    (found : Found) :
    fill isIPv6 now (realIP :: rest) clk p found =
      match p.visit realIP isIPv6 now (clk 0) with
      | (q, .existing f) => fill isIPv6 now rest clk q (found.reuse realIP f)
      | (q, .allocated info) =>
        fill isIPv6 now rest (fun n => clk (n + 1)) q (found.allocated realIP info)
      | (q, .exhausted) => (q.rollback found.newMappings.entries, none) := by
  rw [fill, visit]
  cases p.peek now realIP with
  | some f => rfl
  | none => rfl

/-- **A real is looked at through its 16-byte form.** -/
theorem visit_to16 {ip : IP} (h : Proper ip) (isIPv6 : Bool) (now clk : Time) :
    p.visit ip.to16 isIPv6 now clk = p.visit ip isIPv6 now clk := by
  have hfind (q : IPPool) : q.findFake ip.to16 isIPv6 = q.findFake ip isIPv6 := by
    simp only [findFake, PoolRange.computeLevel1Hash, h.to16_to16, h.to4_to16]
  simp only [visit, peek, secure, allocate, hfind, h.getShardIndex_to16]
  rw [h.toIPKey_to16]

/-- A mapping with at least five minutes to run is found as it is. -/
theorem visit_of_long {ip : IP} {f : IPKey} {now : Time} (live : p.Live now ip f)
    (long : ∀ t, (p.slot (getShardIndex ip) (toIPKey ip)).2 = some t → now + 5 * minute ≤ t)
    (isIPv6 : Bool) (clk : Time) : p.visit ip isIPv6 now clk = (p, .existing f) := by
  have hf : (p.shards (getShardIndex ip)).realToFake.lookup (toIPKey ip) = some f := live.1
  rw [visit, peek]
  split_ifs with hpeek
  · rw [hf]
  · dsimp only
    rw [secure]
    simp only [hf]
    cases hx : (p.shards (getShardIndex ip)).expiries.lookup (toIPKey ip) with
    | none => rfl
    | some t => simp only [if_pos (live.2 t hx), if_neg (not_lt.2 (long t hx))]

/-- The fakes that are found have sixteen bytes. -/
theorem length_of_findFake {realIP fake : IP} {isIPv6 : Bool}
    (h : p.findFake realIP isIPv6 = some fake) : fake.length = 16 := by
  simp only [findFake] at h
  split_ifs at h with hnat
  · rw [← Option.some.inj h, PoolRange.computeLevel1Hash]
    split_ifs
    · exact p.length_fake6 _
    all_goals exact IPKey.length_toIP _
  · obtain ⟨attempt, -, hattempt⟩ := List.exists_of_findSome?_eq_some h
    have hcand := (Option.filter_eq_some_iff.1 hattempt).1
    simp only [PoolRange.candidate] at hcand
    split_ifs at hcand with h6 hskip
    · rw [← Option.some.inj hcand]
      exact p.length_fake6 _
    · rw [← Option.some.inj hcand]
      exact IPKey.length_toIP _

/-- What a real has once it has been served. -/
def Outcome.fake? : Outcome → Option IPKey
  | .existing f => some f
  | .allocated info => some (toIPKey info.ip)
  | .exhausted => none

/-- **A real that has been served is found as it is.** -/
theorem visit_of_secured {q : IPPool} {ip : IP} {isIPv6 : Bool} {now clk : Time} {outcome : Outcome}
    (h : p.Secured ip isIPv6 now clk q outcome) {f : IPKey} (hf : outcome.fake? = some f)
    (clk' : Time) : q.visit ip isIPv6 now clk' = (q, .existing f) := by
  -- the lease that a section writes runs for two hours
  have hlater : now < now + mappingTTL ∧ now + 5 * minute ≤ now + mappingTTL :=
    ⟨lt_add_of_pos_right now (by decide), Int.add_le_add_left (by decide) now⟩
  have hwritten {r : IPPool} {f : IPKey}
      (hslot : r.slot (getShardIndex ip) (toIPKey ip) = (some f, some (now + mappingTTL))) :
      r.visit ip isIPv6 now clk' = (r, .existing f) := by
    refine r.visit_of_long ⟨congrArg Prod.fst hslot, fun t ht => ?_⟩ (fun t ht => ?_) isIPv6 clk'
    all_goals
      rw [hslot] at ht
      obtain rfl := Option.some.inj ht
    · exact hlater.1
    · exact hlater.2
  cases h with
  | kept live long =>
    obtain rfl := Option.some.inj hf
    exact p.visit_of_long live long isIPv6 clk'
  | extended live =>
    obtain rfl := Option.some.inj hf
    refine hwritten ?_
    rw [slot_refresh, if_pos ⟨rfl, rfl⟩]
    exact Prod.ext live.1 rfl
  | fresh dead find =>
    obtain rfl := Option.some.inj hf
    refine hwritten ?_
    rw [slot_bind, if_pos ⟨rfl, rfl⟩]
  | exhausted dead full => cases hf

/-! ## The loop -/

theorem Found.reuse_to16 {ip : IP} (h : Proper ip) (found : Found) (f : IPKey) :
    found.reuse ip.to16 f = found.reuse ip f := by
  rw [Found.reuse, Found.reuse, h.string_to16]

theorem Found.allocated_to16 {ip : IP} (h : Proper ip) (found : Found) (info : MappingInfo) :
    found.allocated ip.to16 info = found.allocated ip info := by
  rw [Found.allocated, Found.allocated, h.string_to16]

/-- The loop on the 16-byte forms of its reals. -/
theorem fill_map_to16 (isIPv6 : Bool) (now : Time) {reals : List IP}
    (hreals : ∀ ip ∈ reals, Proper ip) (clk : ℕ → Time) (found : Found) :
    fill isIPv6 now (reals.map IP.to16) clk p found = fill isIPv6 now reals clk p found := by
  induction reals generalizing p clk found with
  | nil => rfl
  | cons ip reals ih =>
    have hip := hreals ip List.mem_cons_self
    have ih' (p : IPPool) := ih p fun ip' hip' => hreals ip' (List.mem_cons_of_mem ip hip')
    rw [List.map_cons, fill_cons, fill_cons, visit_to16 p hip]
    rcases p.visit ip isIPv6 now (clk 0) with ⟨q, f | info | _⟩
    · exact (ih' q clk _).trans (by rw [Found.reuse_to16 hip])
    · exact (ih' q _ _).trans (by rw [Found.allocated_to16 hip])
    · rfl

/-- **A repetition does nothing.** -/
theorem fill_cons_self (isIPv6 : Bool) (now : Time) (ip : IP) (rest : List IP) (clk : ℕ → Time)
    (found : Found) :
    fill isIPv6 now (ip :: ip :: rest) clk p found = fill isIPv6 now (ip :: rest) clk p found := by
  rw [fill_cons, fill_cons]
  have hsec := p.secured_visit ip isIPv6 now (clk 0)
  generalize p.visit ip isIPv6 now (clk 0) = v at hsec ⊢
  rcases v with ⟨q, f | info | _⟩
  · dsimp only at hsec ⊢
    rw [fill_cons, visit_of_secured p hsec rfl]
    dsimp only
    rw [Found.reuse, Found.reuse, Finmap.insert_insert]
  · dsimp only at hsec ⊢
    rw [fill_cons, visit_of_secured p hsec rfl]
    dsimp only
    -- the fake is read back from its key
    have hinfo : (toIPKey info.ip).toIP = info.ip := by
      cases hsec with
      | fresh dead find =>
        have hlen := (p.vacate ip).length_of_findFake find
        rw [toIP_toIPKey (.inr hlen), IP.to16_of_length hlen]
    rw [Found.reuse, Found.allocated, hinfo, Finmap.insert_insert]
  · rfl

/-- The loop on a sorted list is that on the list without its repetitions. -/
theorem fill_dedup (isIPv6 : Bool) (now : Time) {reals : List IP}
    (hsorted : reals.Pairwise (· ≤ ·)) (clk : ℕ → Time) (found : Found) :
    fill isIPv6 now reals.dedup clk p found = fill isIPv6 now reals clk p found := by
  induction reals generalizing p clk found with
  | nil => rfl
  | cons ip reals ih =>
    obtain ⟨hle, hsorted'⟩ := List.pairwise_cons.1 hsorted
    by_cases hmem : ip ∈ reals
    · rw [List.dedup_cons_of_mem hmem, ih p hsorted']
      cases reals with
      | nil => cases hmem
      | cons ip' rest =>
        -- equal reals are next to each other
        obtain rfl : ip = ip' := by
          rcases List.mem_cons.1 hmem with h | h
          · exact h
          · exact le_antisymm (hle ip' List.mem_cons_self)
              ((List.pairwise_cons.1 hsorted').1 ip h)
        exact (p.fill_cons_self ..).symm
    · rw [List.dedup_cons_of_notMem hmem, fill_cons, fill_cons]
      rcases p.visit ip isIPv6 now (clk 0) with ⟨q, f | info | _⟩
      · exact ih q hsorted' clk _
      · exact ih q hsorted' _ _
      · rfl

end IPPool

/-! ## The call -/

/-- Sorted lists of the same elements are the same without their repetitions. -/
theorem dedup_eq_of_sorted {l l' : List IP} (hl : l.Pairwise (· ≤ ·)) (hl' : l'.Pairwise (· ≤ ·))
    (hmem : ∀ ip, ip ∈ l ↔ ip ∈ l') : l.dedup = l'.dedup := by
  have hperm : l.dedup.Perm l'.dedup := by
    refine (List.perm_ext_iff_of_nodup (List.nodup_dedup l) (List.nodup_dedup l')).2 fun ip => ?_
    rw [List.mem_dedup, List.mem_dedup, hmem]
  exact hperm.eq_of_pairwise (fun _ _ _ _ => le_antisymm) (hl.sublist (List.dedup_sublist l))
    (hl'.sublist (List.dedup_sublist l'))

/-- The list in an order that the sort may leave: by the 16-byte forms, those that are equal in any
order. -/
def Sorts (sortedReals reals : List IP) : Prop :=
  sortedReals.Perm reals ∧ sortedReals.Pairwise fun a b => a.to16 ≤ b.to16

theorem sorts_sortReals (reals : List IP) : Sorts (IPPool.sortReals reals) reals := by
  have : Std.Total fun a b : IP => a.to16 ≤ b.to16 := ⟨fun a b => le_total a.to16 b.to16⟩
  have : IsTrans IP fun a b => a.to16 ≤ b.to16 := ⟨fun a b c => le_trans⟩
  exact ⟨List.perm_insertionSort _ _, List.pairwise_insertionSort _ _⟩

/-- What the loop does with any order that the sort may leave depends on the set of addresses. -/
theorem fill_eq_of_sorts (p : IPPool) (isIPv6 : Bool) (now : Time) (clk : ℕ → Time)
    (found : IPPool.Found) {reals reals' sortedReals sortedReals' : List IP}
    (hreals : ∀ ip ∈ reals, Proper ip) (hreals' : ∀ ip ∈ reals', Proper ip)
    (hsame : ∀ b, b ∈ reals.map IP.to16 ↔ b ∈ reals'.map IP.to16)
    (hs : Sorts sortedReals reals) (hs' : Sorts sortedReals' reals') :
    IPPool.fill isIPv6 now sortedReals clk p found =
      IPPool.fill isIPv6 now sortedReals' clk p found := by
  have hsorted : (sortedReals.map IP.to16).Pairwise (· ≤ ·) := List.pairwise_map.2 hs.2
  have hsorted' : (sortedReals'.map IP.to16).Pairwise (· ≤ ·) := List.pairwise_map.2 hs'.2
  have hmem (b : IP) : b ∈ sortedReals.map IP.to16 ↔ b ∈ sortedReals'.map IP.to16 := by
    rw [(hs.1.map _).mem_iff, (hs'.1.map _).mem_iff, hsame]
  calc IPPool.fill isIPv6 now sortedReals clk p found
      = IPPool.fill isIPv6 now (sortedReals.map IP.to16) clk p found :=
        (p.fill_map_to16 isIPv6 now (fun ip hip => hreals ip (hs.1.mem_iff.1 hip)) clk found).symm
    _ = IPPool.fill isIPv6 now (sortedReals.map IP.to16).dedup clk p found :=
        (p.fill_dedup isIPv6 now hsorted clk found).symm
    _ = IPPool.fill isIPv6 now (sortedReals'.map IP.to16).dedup clk p found := by
        rw [dedup_eq_of_sorted hsorted hsorted' hmem]
    _ = IPPool.fill isIPv6 now (sortedReals'.map IP.to16) clk p found :=
        p.fill_dedup isIPv6 now hsorted' clk found
    _ = IPPool.fill isIPv6 now sortedReals' clk p found :=
        p.fill_map_to16 isIPv6 now (fun ip hip => hreals' ip (hs'.1.mem_iff.1 hip)) clk found

/-- **Allocation does not depend on the order of the answer.** On any pool, two lists of the same
addresses, in any order and form and with any repetitions, and the same readings of the clock, give
the same result, new mappings and answer, and leave the same pool. It makes no difference either
which of the orders that are sorted the sort leaves. -/
theorem same_answer (p : IPPool) (isIPv6 : Bool) (now : Time) (clk : ℕ → Time)
    {reals reals' : List IP} (hne : reals ≠ []) (hne' : reals' ≠ [])
    (hreals : ∀ ip ∈ reals, Proper ip) (hreals' : ∀ ip ∈ reals', Proper ip)
    (hsame : ∀ b, b ∈ reals.map IP.to16 ↔ b ∈ reals'.map IP.to16) :
    p.getFakeIPsForReals reals isIPv6 now clk = p.getFakeIPsForReals reals' isIPv6 now clk ∧
      ∀ sortedReals, Sorts sortedReals reals' →
        p.getFakeIPsForReals reals isIPv6 now clk =
          IPPool.fill isIPv6 now sortedReals clk p ⟨∅, ∅⟩ := by
  rw [IPPool.getFakeIPsForReals, IPPool.getFakeIPsForReals, if_neg hne, if_neg hne']
  exact ⟨fill_eq_of_sorts p isIPv6 now clk _ hreals hreals' hsame (sorts_sortReals reals)
      (sorts_sortReals reals'),
    fun sortedReals hs => fill_eq_of_sorts p isIPv6 now clk _ hreals hreals' hsame
      (sorts_sortReals reals) hs⟩

/-- Two addresses, turned round and with one of them given again in its other form. -/
theorem same_answer_turned :
    let p := newIPPoolWithConfig [] [] ⟨4, 4⟩
    p.getFakeIPsForReals [[1, 1, 1, 1], [8, 8, 8, 8]] false 0 (fun n => n) =
      p.getFakeIPsForReals
        [[8, 8, 8, 8], [1, 1, 1, 1], [0, 0, 0, 0, 0, 0, 0, 0, 0, 0, 0xff, 0xff, 8, 8, 8, 8]]
        false 0 fun n => n := by
  intro p
  refine (same_answer p false 0 (fun n => n) (by simp) (by simp) ?_ ?_ fun b => ?_).1
  · simp [Proper, IP.WellFormed]
  · simp [Proper, IP.WellFormed]
  · simp only [List.map_cons, List.map_nil, List.mem_cons, List.not_mem_nil, or_false,
      show IP.to16 [8, 8, 8, 8] = [0, 0, 0, 0, 0, 0, 0, 0, 0, 0, 0xff, 0xff, 8, 8, 8, 8] from rfl,
      IP.to16_of_length
        (show List.length [0, 0, 0, 0, 0, 0, 0, 0, 0, 0, 0xff, 0xff, 8, 8, 8, 8] = 16 from rfl)]
    tauto

end NextPath.Pool
