import NextPath.Pool.Invariant
import NextPath.Pool.Results

/-!
# A fake is held once

`Exclusive` is the part of the consistency of a pool that does not need the reals to be addresses:
the fake of a slot is marked as taken, and no other slot has it. It follows from `RepInv`, and the
sections of a request keep it whatever bytes they are entered for.

`fakeAt_secure` and `fakeAt_removeMapping` say which mappings the sections leave alone.
-/

namespace NextPath.Pool

open Net

/-- The fakes of the slots are taken, and each is in one slot. -/
structure Exclusive (p : IPPool) : Prop where
  taken : ∀ {j x f}, (p.slot j x).1 = some f → p.realOf f ≠ none
  unique : ∀ {j x j' x' f}, (p.slot j x).1 = some f → (p.slot j' x').1 = some f → j = j' ∧ x = x'

theorem RepInv.exclusive {p : IPPool} (h : RepInv p) : Exclusive p := by
  have hslot {j : Fin 64} {x f : IPKey} (hx : (p.slot j x).1 = some f) :
      j = shardOf x ∧ p.realOf f = some x := by
    have hj := h.shard_eq j x (Finmap.mem_of_lookup_eq_some hx)
    subst hj
    exact ⟨rfl, (h.fakeOf_iff x f).1 hx⟩
  constructor
  · intro j x f hx
    rw [(hslot hx).2]
    exact Option.some_ne_none x
  · intro j x j' x' f hx hx'
    obtain ⟨rfl, hreal⟩ := hslot hx
    obtain ⟨rfl, hreal'⟩ := hslot hx'
    obtain rfl : x = x' := Option.some.inj (hreal.symm.trans hreal')
    exact ⟨rfl, rfl⟩

namespace Exclusive

variable {p : IPPool}

theorem bind (h : Exclusive p) {i : Fin 64} {k f : IPKey} (hf : p.realOf f = none) (v : UInt64)
    (t : Time) : Exclusive (p.bind i k f v t) := by
  -- no slot has the free fake
  have hfree {j : Fin 64} {x g : IPKey} (hx : (p.slot j x).1 = some g) : g ≠ f := by
    rintro rfl
    exact h.taken hx hf
  constructor
  · intro j x g hx
    rw [IPPool.slot_bind] at hx
    rw [IPPool.realOf_bind]
    split_ifs at hx with hj
    · rw [if_pos (Option.some.inj hx).symm]
      exact Option.some_ne_none k
    · rw [if_neg (hfree hx)]
      exact h.taken hx
  · intro j x j' x' g hx hx'
    rw [IPPool.slot_bind] at hx hx'
    split_ifs at hx hx' with hj hj'
    · exact ⟨hj.1.trans hj'.1.symm, hj.2.trans hj'.2.symm⟩
    · exact absurd (Option.some.inj hx).symm (hfree hx')
    · exact absurd (Option.some.inj hx').symm (hfree hx)
    · exact h.unique hx hx'

theorem unbind (h : Exclusive p) {i : Fin 64} {k f : IPKey} (hk : (p.slot i k).1 = some f) :
    Exclusive (p.unbind i k f) := by
  constructor
  · intro j x g hx
    rw [IPPool.slot_unbind] at hx
    split_ifs at hx with hj
    rw [IPPool.realOf_unbind, if_neg]
    · exact h.taken hx
    · rintro rfl
      exact hj (h.unique hx hk)
  · intro j x j' x' g hx hx'
    rw [IPPool.slot_unbind] at hx hx'
    split_ifs at hx hx'
    exact h.unique hx hx'

theorem refresh (h : Exclusive p) (i : Fin 64) (k : IPKey) (t : Time) :
    Exclusive (p.modifyShard i (·.refresh k t)) := by
  have hfst (j : Fin 64) (x : IPKey) :
      ((p.modifyShard i (·.refresh k t)).slot j x).1 = (p.slot j x).1 := by
    rw [IPPool.slot_refresh]
    split_ifs with hj
    · rw [hj.1, hj.2]
    · rfl
  constructor
  · intro j x f hx
    exact h.taken (hfst j x ▸ hx)
  · intro j x j' x' f hx hx'
    exact h.unique (hfst j x ▸ hx) (hfst j' x' ▸ hx')

theorem vacate (h : Exclusive p) (ip : IP) : Exclusive (p.vacate ip) := by
  rw [IPPool.vacate]
  split
  · next hf => exact h.unbind hf
  · exact h

theorem secured (h : Exclusive p) {q : IPPool} {realIP : IP} {isIPv6 : Bool} {now clk : Time}
    {outcome : IPPool.Outcome} (hsec : p.Secured realIP isIPv6 now clk q outcome) :
    Exclusive q := by
  have hvacate := h.vacate realIP
  cases hsec with
  | kept => exact h
  | extended => exact h.refresh _ _ _
  | exhausted => exact hvacate
  | fresh _ find =>
    have hnext : Exclusive ((p.vacate realIP).getNextVersion clk).1 :=
      ⟨hvacate.taken, hvacate.unique⟩
    exact hnext.bind (IPPool.realOf_of_findFake _ find) _ _

theorem removeMapping (h : Exclusive p) (realIP fakeIP : IP) :
    Exclusive (p.removeMapping realIP fakeIP) := by
  simp only [IPPool.removeMapping]
  split_ifs with hf
  · exact h.unbind hf
  · exact h

end Exclusive

namespace IPPool

/-- The lease of a real, if it has one, has not run out. -/
def Unexpired (p : IPPool) (now : Time) (realIP : IP) : Prop :=
  ∀ t ∈ (p.slot (getShardIndex realIP) (toIPKey realIP)).2, now < t

instance (p : IPPool) (now : Time) (realIP : IP) : Decidable (p.Unexpired now realIP) :=
  inferInstanceAs (Decidable (∀ t ∈ (p.slot _ _).2, now < t))

/-- A section that is entered before the lease runs out keeps every mapping. -/
theorem fakeAt_secure {p : IPPool} {now : Time} {realIP : IP} (hlease : p.Unexpired now realIP)
    (isIPv6 : Bool) (clk : Time) {ip : IP} {f : IPKey} (h : p.fakeAt ip = some f) :
    (p.secure realIP isIPv6 now clk).1.fakeAt ip = some f := by
  by_cases heq : getShardIndex ip = getShardIndex realIP ∧ toIPKey ip = toIPKey realIP
  · have hlive : p.Live now ip f := by
      refine ⟨h, fun t ht => hlease t ?_⟩
      rwa [← heq.1, ← heq.2]
    exact (hlive.secured (p.secured_secure realIP isIPv6 now clk)).1
  · rw [fakeAt, (p.secured_secure realIP isIPv6 now clk).slot_eq heq]
    exact h

/-- A removal keeps every mapping to another fake. -/
theorem fakeAt_removeMapping {p : IPPool} {realIP fakeIP ip : IP} {f : IPKey}
    (h : p.fakeAt ip = some f)
    (hne : p.fakeAt realIP = some (toIPKey fakeIP) → f ≠ toIPKey fakeIP) :
    (p.removeMapping realIP fakeIP).fakeAt ip = some f := by
  simp only [removeMapping]
  split_ifs with hf
  · rw [fakeAt, slot_unbind, if_neg]
    · exact h
    · rintro ⟨hi, hk⟩
      refine hne hf (Option.some.inj (h.symm.trans ?_))
      rw [fakeAt, hi, hk]
      exact hf
  · exact h

end IPPool

end NextPath.Pool
