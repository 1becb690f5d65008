import Mathlib.Data.List.AList
import Mathlib.Data.List.Sort
import NextPath.Net.Text
import NextPath.Pool.Operations

/-!
# Allocation of fakes

`GetFakeIPsForReals` gives each real of a list a fake. For each it looks under the read lock of the
shard (`peek`) and, when the mapping it finds will not do, goes into the section that holds the
global lock and the lock of the shard (`secure`): there the mapping is kept, extended or replaced.
A fresh fake is the hash of the real (`computeLevel1Hash`), or the first free one after it. When
there is none the call takes back what it has allocated (`rollback`) and fails.

The two sections are functions of their own because other calls run between them.
-/

namespace NextPath.Pool

open Net

/-- `MappingInfo`. -/
structure MappingInfo where
  ip : IP
  version : UInt64
  deriving DecidableEq

/-! ## Candidates -/

namespace PoolRange

variable (c : PoolRange)

/-- The base of the IPv6 range with its last four bytes replaced. -/
def fake6 (val : UInt32) : IP := c.poolStart6.take 12 ++ bytes32 val

/-- The last four bytes of the base of the IPv6 range. -/
def startVal : UInt32 := be32 (c.poolStart6.drop 12)

/-- `ComputeLevel1Hash`. -/
def computeLevel1Hash (realIP : IP) (isIPv6 : Bool) : IP :=
  if isIPv6 then c.fake6 (c.startVal + fnv1aBytes realIP.to16 % c.poolSize6)
  else
    let ipVal := c.poolStart + fnv1aBytes realIP.to4 % c.poolSize
    (IPKey.v4 (if ipVal % 256 = 0 then ipVal + 1 else if ipVal % 256 = 255 then ipVal - 1
      else ipVal)).toIP

/-- The number of candidates that are tried. -/
def maxAttempts (isIPv6 : Bool) : ℕ :=
  min (if isIPv6 then c.poolSize6 else c.poolSize).toNat 1024

/-- The candidate of one attempt. An IPv4 address that ends in 0 or 255 is passed over. -/
def candidate (naturalFake : IP) (isIPv6 : Bool) (attempt : ℕ) : Option IP :=
  if isIPv6 then
    let naturalOffset := be32 (naturalFake.drop 12) - c.startVal
    some (c.fake6 (c.startVal + (naturalOffset + UInt32.ofNat attempt) % c.poolSize6))
  else
    let naturalOffset := be32 naturalFake.to4 - c.poolStart
    let candidateIPVal := c.poolStart + (naturalOffset + UInt32.ofNat attempt) % c.poolSize
    if candidateIPVal % 256 = 0 ∨ candidateIPVal % 256 = 255 then none
    else some (IPKey.v4 candidateIPVal).toIP

end PoolRange

namespace IPPool

variable (p : IPPool)

/-- The fake that is free is the hash of the real or the first candidate that is. -/
def findFake (realIP : IP) (isIPv6 : Bool) : Option IP :=
  let naturalFake := p.computeLevel1Hash realIP isIPv6
  if p.realOf (toIPKey naturalFake) = none then some naturalFake
  else (List.range (p.maxAttempts isIPv6)).findSome? fun attempt =>
    (p.candidate naturalFake isIPv6 attempt).filter fun ip => p.realOf (toIPKey ip) = none

/-- What `findFake` finds is free. -/
theorem realOf_of_findFake {realIP fake : IP} {isIPv6 : Bool}
    (h : p.findFake realIP isIPv6 = some fake) : p.realOf (toIPKey fake) = none := by
  simp only [findFake] at h
  split_ifs at h with hnat
  · rwa [← Option.some.inj h]
  · obtain ⟨attempt, -, hattempt⟩ := List.exists_of_findSome?_eq_some h
    exact of_decide_eq_true (Option.filter_eq_some_iff.1 hattempt).2

/-! ## The sections of a call -/

/-- The fake of an address, read where the operations look for it. -/
def fakeAt (ip : IP) : Option IPKey := (p.slot (getShardIndex ip) (toIPKey ip)).1

/-- The address has a fake, whose lease has not run out. -/
def Live (now : Time) (ip : IP) (f : IPKey) : Prop :=
  p.fakeAt ip = some f ∧
    ∀ t, (p.slot (getShardIndex ip) (toIPKey ip)).2 = some t → now < t

/-- The look at a real under the read lock: its fake, if the lease has more than five minutes to
run. -/
def peek (now : Time) (realIP : IP) : Option IPKey :=
  let shard := p.shards (getShardIndex realIP)
  if now + 5 * minute < (shard.expiries.lookup (toIPKey realIP)).getD zeroTime then
    shard.realToFake.lookup (toIPKey realIP)
  else none

/-- How the section under the locks ends. -/
inductive Outcome
  | existing (fake : IPKey)
  | allocated (info : MappingInfo)
  | exhausted
  deriving DecidableEq

/-- The end of the section: a fresh fake, or none. `clk` is the reading in `GetNextVersion`. -/
def allocate (realIP : IP) (isIPv6 : Bool) (now clk : Time) : IPPool × Outcome :=
  match p.findFake realIP isIPv6 with
  | none => (p, .exhausted)
  | some finalFake =>
    let next := p.getNextVersion clk
    (next.1.bind (getShardIndex realIP) (toIPKey realIP) (toIPKey finalFake) next.2
      (now + mappingTTL), .allocated ⟨finalFake, next.2⟩)

/-- The section under the locks. -/
def secure (realIP : IP) (isIPv6 : Bool) (now clk : Time) : IPPool × Outcome :=
  let i := getShardIndex realIP
  let realKey := toIPKey realIP
  match (p.shards i).realToFake.lookup realKey with
  | none => p.allocate realIP isIPv6 now clk
  | some existingFake =>
    match (p.shards i).expiries.lookup realKey with
    | none => (p, .existing existingFake)
    | some expiry =>
      if now < expiry then
        (if expiry < now + 5 * minute then
          p.modifyShard i (·.refresh realKey (now + mappingTTL)) else p, .existing existingFake)
      else (p.unbind i realKey existingFake).allocate realIP isIPv6 now clk

/-- The pool without the mapping of an address: where the section looks for a free fake. -/
def vacate (ip : IP) : IPPool :=
  match p.fakeAt ip with
  | some f => p.unbind (getShardIndex ip) (toIPKey ip) f
  | none => p

theorem vacate_of_some {ip : IP} {f : IPKey} (h : p.fakeAt ip = some f) :
    p.vacate ip = p.unbind (getShardIndex ip) (toIPKey ip) f := by
  rw [vacate, h]

theorem vacate_of_none {ip : IP} (h : p.fakeAt ip = none) : p.vacate ip = p := by
  rw [vacate, h]

theorem slot_vacate {ip : IP} {j : Fin 64} {x : IPKey}
    (hne : ¬ (j = getShardIndex ip ∧ x = toIPKey ip)) : (p.vacate ip).slot j x = p.slot j x := by
  rw [vacate]
  split
  · rw [slot_unbind, if_neg hne]
  · rfl

theorem fakeAt_vacate (ip : IP) : (p.vacate ip).fakeAt ip = none := by
  rw [vacate]
  split
  · rw [fakeAt, slot_unbind, if_pos ⟨rfl, rfl⟩]
  · assumption

/-- **The ways through a section.** The mapping of the real is live and has at least five minutes
to run, and is kept; it is live and its lease is extended; or there is no live mapping and the real
is given a fake that is free once its own is, if there is one. -/
inductive Secured (realIP : IP) (isIPv6 : Bool) (now clk : Time) : IPPool → Outcome → Prop
  | kept {f : IPKey} (live : p.Live now realIP f)
      (long : ∀ t, (p.slot (getShardIndex realIP) (toIPKey realIP)).2 = some t →
        now + 5 * minute ≤ t) :
      Secured realIP isIPv6 now clk p (.existing f)
  | extended {f : IPKey} (live : p.Live now realIP f) :
      Secured realIP isIPv6 now clk
        (p.modifyShard (getShardIndex realIP) (·.refresh (toIPKey realIP) (now + mappingTTL)))
        (.existing f)
  | fresh {fake : IP} (dead : ∀ f, ¬ p.Live now realIP f)
      (find : (p.vacate realIP).findFake realIP isIPv6 = some fake) :
      Secured realIP isIPv6 now clk
        (((p.vacate realIP).getNextVersion clk).1.bind (getShardIndex realIP) (toIPKey realIP)
          (toIPKey fake) ((p.vacate realIP).getNextVersion clk).2 (now + mappingTTL))
        (.allocated ⟨fake, ((p.vacate realIP).getNextVersion clk).2⟩)
  | exhausted (dead : ∀ f, ¬ p.Live now realIP f)
      (full : (p.vacate realIP).findFake realIP isIPv6 = none) :
      Secured realIP isIPv6 now clk (p.vacate realIP) .exhausted

variable {p} in
theorem Secured.allocate {realIP : IP} {now : Time} (dead : ∀ f, ¬ p.Live now realIP f)
    (isIPv6 : Bool) (clk : Time) :
    p.Secured realIP isIPv6 now clk ((p.vacate realIP).allocate realIP isIPv6 now clk).1
      ((p.vacate realIP).allocate realIP isIPv6 now clk).2 := by
  rw [IPPool.allocate]
  cases hfind : (p.vacate realIP).findFake realIP isIPv6 with
  | none => exact .exhausted dead hfind
  | some fake => exact .fresh dead hfind

theorem secured_secure (realIP : IP) (isIPv6 : Bool) (now clk : Time) :
    p.Secured realIP isIPv6 now clk (p.secure realIP isIPv6 now clk).1
      (p.secure realIP isIPv6 now clk).2 := by
  simp only [secure]
  cases hf : (p.shards (getShardIndex realIP)).realToFake.lookup (toIPKey realIP) with
  | none =>
    have hvacate : p.vacate realIP = p := by rw [vacate, show p.fakeAt realIP = none from hf]
    have hdead (f : IPKey) : ¬ p.Live now realIP f := fun h => by simpa using hf.symm.trans h.1
    have := Secured.allocate hdead isIPv6 clk
    rwa [hvacate] at this
  | some f =>
    cases hx : (p.shards (getShardIndex realIP)).expiries.lookup (toIPKey realIP) with
    | none =>
      have hnone (t : Time) : (p.slot (getShardIndex realIP) (toIPKey realIP)).2 ≠ some t :=
        fun ht => absurd (hx.symm.trans ht) (by simp)
      exact .kept ⟨hf, fun t ht => absurd ht (hnone t)⟩ fun t ht => absurd ht (hnone t)
    | some expiry =>
      have hexp {t : Time} (ht : (p.slot (getShardIndex realIP) (toIPKey realIP)).2 = some t) :
          expiry = t := Option.some.inj (hx.symm.trans ht)
      by_cases hlive : now < expiry
      · have hlive' : p.Live now realIP f := ⟨hf, fun t ht => hexp ht ▸ hlive⟩
        by_cases hsoon : expiry < now + 5 * minute
        · simp only [if_pos hlive, if_pos hsoon]
          exact .extended hlive'
        · simp only [if_pos hlive, if_neg hsoon]
          exact .kept hlive' fun t ht => hexp ht ▸ not_lt.1 hsoon
      · have hvacate : p.vacate realIP = p.unbind (getShardIndex realIP) (toIPKey realIP) f := by
          rw [vacate, show p.fakeAt realIP = some f from hf]
        have hdead (g : IPKey) : ¬ p.Live now realIP g := fun h => hlive (h.2 expiry hx)
        have := Secured.allocate hdead isIPv6 clk
        simp only [if_neg hlive]
        rwa [hvacate] at this

/-- The look under the read lock is the first of these ways. -/
theorem secured_peek {now : Time} {realIP : IP} {f : IPKey} (h : p.peek now realIP = some f)
    (isIPv6 : Bool) (clk : Time) : p.Secured realIP isIPv6 now clk p (.existing f) := by
  simp only [peek] at h
  split_ifs at h with hlease
  have hlong {t : Time} (ht : (p.slot (getShardIndex realIP) (toIPKey realIP)).2 = some t) :
      now + 5 * minute < t := by
    have hexp : (p.shards (getShardIndex realIP)).expiries.lookup (toIPKey realIP) = some t := ht
    rwa [hexp, Option.getD_some] at hlease
  refine .kept ⟨h, fun t ht => ?_⟩ fun t ht => (hlong ht).le
  exact (lt_add_of_pos_right now (by decide)).trans (hlong ht)

/-! ## The call -/

/-- What a call has found so far: `result` and `newMappings`. -/
structure Found where
  result : Map Bytes IP
  newMappings : AList fun _ : Bytes => MappingInfo

/-- A mapping that was there. -/
def Found.reuse (found : Found) (realIP : IP) (fake : IPKey) : Found :=
  { found with result := found.result.insert realIP.string fake.toIP }

/-- A mapping that is new. -/
def Found.allocated (found : Found) (realIP : IP) (info : MappingInfo) : Found :=
  ⟨found.result.insert realIP.string info.ip, found.newMappings.insert realIP.string info⟩

/-- The removal of what a call has allocated. -/
def rollback (new : List (Sigma fun _ : Bytes => MappingInfo)) : IPPool :=
  new.foldl (fun p e => p.removeMapping (parseIP e.1) e.2.ip) p

/-- The loop of `GetFakeIPsForReals`, with the readings of the clock still to come. -/
def fill (isIPv6 : Bool) (now : Time) :
    List IP → (ℕ → Time) → IPPool → Found → IPPool × Option Found
  | [], _, p, found => (p, some found)
  | realIP :: rest, clk, p, found =>
    match p.peek now realIP with
    | some fake => fill isIPv6 now rest clk p (found.reuse realIP fake)
    | none =>
      match p.secure realIP isIPv6 now (clk 0) with
      | (p', .existing fake) => fill isIPv6 now rest clk p' (found.reuse realIP fake)
      | (p', .allocated info) =>
        fill isIPv6 now rest (fun n => clk (n + 1)) p' (found.allocated realIP info)
      | (p', .exhausted) => (p'.rollback found.newMappings.entries, none)

/-- **One pass of the loop**, whatever is left to do after it: the real is given a mapping, an old
one or a new one, or the call takes back what it has allocated. -/
theorem fill_pass (isIPv6 : Bool) (now : Time) (realIP : IP) (clk : ℕ → Time) (found : Found) :
    (∃ q f, p.Secured realIP isIPv6 now (clk 0) q (.existing f) ∧
      ∀ rest, fill isIPv6 now (realIP :: rest) clk p found =
        fill isIPv6 now rest clk q (found.reuse realIP f)) ∨
    (∃ q info, p.Secured realIP isIPv6 now (clk 0) q (.allocated info) ∧
      ∀ rest, fill isIPv6 now (realIP :: rest) clk p found =
        fill isIPv6 now rest (fun n => clk (n + 1)) q (found.allocated realIP info)) ∨
    ∃ q, p.Secured realIP isIPv6 now (clk 0) q .exhausted ∧
      ∀ rest, fill isIPv6 now (realIP :: rest) clk p found =
        (q.rollback found.newMappings.entries, none) := by
  simp only [fill]
  cases hpeek : p.peek now realIP with
  | some f => exact .inl ⟨p, f, p.secured_peek hpeek isIPv6 (clk 0), fun _ => rfl⟩
  | none =>
    have hsec := p.secured_secure realIP isIPv6 now (clk 0)
    generalize p.secure realIP isIPv6 now (clk 0) = s at hsec ⊢
    rcases s with ⟨q, f | info | _⟩
    · exact .inl ⟨q, f, hsec, fun _ => rfl⟩
    · exact .inr (.inl ⟨q, info, hsec, fun _ => rfl⟩)
    · exact .inr (.inr ⟨q, hsec, fun _ => rfl⟩)

/-- The same of the outcome of the loop. -/
theorem fill_cons_cases {isIPv6 : Bool} {now : Time} {realIP : IP} {rest : List IP}
    {clk : ℕ → Time} {found : Found} {out : IPPool × Option Found}
    (h : fill isIPv6 now (realIP :: rest) clk p found = out) :
    (∃ q f, p.Secured realIP isIPv6 now (clk 0) q (.existing f) ∧
      fill isIPv6 now rest clk q (found.reuse realIP f) = out) ∨
    (∃ q info, p.Secured realIP isIPv6 now (clk 0) q (.allocated info) ∧
      fill isIPv6 now rest (fun n => clk (n + 1)) q (found.allocated realIP info) = out) ∨
    ∃ q, p.Secured realIP isIPv6 now (clk 0) q .exhausted ∧
      (q.rollback found.newMappings.entries, none) = out := by
  rcases p.fill_pass isIPv6 now realIP clk found with
    ⟨q, f, hsec, heq⟩ | ⟨q, info, hsec, heq⟩ | ⟨q, hsec, heq⟩
  · exact .inl ⟨q, f, hsec, (heq rest).symm.trans h⟩
  · exact .inr (.inl ⟨q, info, hsec, (heq rest).symm.trans h⟩)
  · exact .inr (.inr ⟨q, hsec, (heq rest).symm.trans h⟩)

/-- **Where the loop stops**: it has handled the reals before this one, which has no live mapping
then, and for which no fake is free. -/
theorem fill_eq_none {isIPv6 : Bool} {now : Time} {reals : List IP} {clk : ℕ → Time}
    {found : Found} {p' : IPPool} (h : fill isIPv6 now reals clk p found = (p', none)) :
    ∃ done ip rest q found', reals = done ++ ip :: rest ∧
      fill isIPv6 now done clk p found = (q, some found') ∧ (∀ f, ¬ q.Live now ip f) ∧
      (q.vacate ip).findFake ip isIPv6 = none ∧
      p' = (q.vacate ip).rollback found'.newMappings.entries := by
  induction reals generalizing p clk found with
  | nil => cases h
  | cons realIP reals ih =>
    rcases p.fill_pass isIPv6 now realIP clk found with
      ⟨q, f, -, heq⟩ | ⟨q, info, -, heq⟩ | ⟨q, hsec, heq⟩
    · obtain ⟨done, ip, rest, q', found', rfl, hdone, hstop⟩ := ih q ((heq reals).symm.trans h)
      exact ⟨realIP :: done, ip, rest, q', found', rfl, (heq done).trans hdone, hstop⟩
    · obtain ⟨done, ip, rest, q', found', rfl, hdone, hstop⟩ := ih q ((heq reals).symm.trans h)
      exact ⟨realIP :: done, ip, rest, q', found', rfl, (heq done).trans hdone, hstop⟩
    · cases hsec with
      | exhausted dead full =>
        refine ⟨[], realIP, reals, p, found, rfl, rfl, dead, full, ?_⟩
        exact (Prod.ext_iff.1 ((heq reals).symm.trans h)).1.symm

/-- The reals in the order of their 16-byte forms. -/
def sortReals (reals : List IP) : List IP :=
  reals.insertionSort fun a b => a.to16 ≤ b.to16

/-- `GetFakeIPsForReals`: `none` is the answer `false`. -/
def getFakeIPsForReals (reals : List IP) (isIPv6 : Bool) (now : Time) (clk : ℕ → Time) :
    IPPool × Option Found :=
  if reals = [] then (p, none) else fill isIPv6 now (sortReals reals) clk p ⟨∅, ∅⟩

end IPPool

end NextPath.Pool
