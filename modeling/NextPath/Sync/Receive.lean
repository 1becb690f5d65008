import NextPath.Pool.Effects

/-!
# Mappings from peers

The part of `handleConnection` that takes the mappings of a message: each is dropped, or its
version is observed and it is added to the pool. A fake must lie in the network that the node
advertises for its family, which `NewSyncManager` reads back from the text the pool prints.
-/

namespace NextPath

open Net

/-- `UintToIP`. -/
def uintToIP (ip : UInt32) : Bytes := dotted (bytes32 ip)

/-- `GetPoolNet`. -/
def Pool.PoolRange.getPoolNet (c : Pool.PoolRange) : Bytes :=
  uintToIP c.poolStart ++ chr '/' :: numeral 10 c.cidrMask

/-- `GetPoolNet6`. -/
def Pool.PoolRange.getPoolNet6 (c : Pool.PoolRange) : Bytes := cidrText c.poolStart6 c.cidrMask6

namespace Sync

open Pool

/-- `Mapping`. -/
structure Mapping where
  fakeIP : IP
  realIP : IP
  version : UInt64
  deriving DecidableEq

/-- The fields `parsedNetV4` and `parsedNetV6` of `SyncManager`. -/
structure Subnets where
  parsedNetV4 : Option IPNet
  parsedNetV6 : Option IPNet

/-- The networks `NewSyncManager` makes of the texts of a pool. -/
def Subnets.ofPool (c : PoolRange) : Subnets := ⟨parseCIDR c.getPoolNet, parseCIDR c.getPoolNet6⟩

/-- `isInSubnet`. -/
def isInSubnet (nets : Subnets) (ip : IP) : Bool :=
  if ip = [] then false
  else
    match if ip.to4 ≠ [] then nets.parsedNetV4 else nets.parsedNetV6 with
    | some n => n.contains ip
    | none => false

/-- One mapping of a message, received at `t` and added at `t'`. The flag says that the pool has
accepted it, so that it is passed on to the kernel. -/
def receive (nets : Subnets) (p : IPPool) (m : Mapping) (t t' : Time) : IPPool × Bool :=
  if m.fakeIP = [] ∨ m.realIP = [] then (p, false)
  else if !isInSubnet nets m.fakeIP then (p, false)
  else if p.getVersion m.fakeIP > m.version then (p, false)
  else (p.observeVersion m.version t).addMapping m.realIP m.fakeIP m.version (t' + mappingTTL)

/-- A mapping is dropped, rejected after its version was observed, or bound in the pool. -/
theorem receive_effect (nets : Subnets) (p : IPPool) (m : Mapping) (t t' : Time) :
    receive nets p m t t' = (p, false) ∨
    receive nets p m t t' = (p.observeVersion m.version t, false) ∨
    (receive nets p m t t').2 = true ∧
      Binds p (receive nets p m t t').1 (toIPKey m.fakeIP) (toIPKey m.realIP) m.version := by
  simp only [receive]
  split_ifs
  · exact .inl rfl
  · exact .inl rfl
  · exact .inl rfl
  · refine .inr ((addMapping_effect _ m.realIP m.fakeIP m.version _).imp_right ?_)
    rintro ⟨hok, -, hbinds⟩
    exact ⟨hok, hbinds.realOf, hbinds.versionOf⟩

/-- A mapping with addresses of one family, the fake in the subnet of the node. -/
structure Mapping.Valid (nets : Subnets) (m : Mapping) : Prop where
  wellFormed_fakeIP : m.fakeIP.WellFormed
  wellFormed_realIP : m.realIP.WellFormed
  isInSubnet : isInSubnet nets m.fakeIP = true
  sameFamily : (toIPKey m.fakeIP).isIPv6 = (toIPKey m.realIP).isIPv6

instance (nets : Subnets) (m : Mapping) : Decidable (m.Valid nets) :=
  decidable_of_iff (m.fakeIP.WellFormed ∧ m.realIP.WellFormed ∧ isInSubnet nets m.fakeIP = true ∧
    (toIPKey m.fakeIP).isIPv6 = (toIPKey m.realIP).isIPv6)
    ⟨fun h => ⟨h.1, h.2.1, h.2.2.1, h.2.2.2⟩, fun h => ⟨h.1, h.2, h.3, h.4⟩⟩

/-- A valid mapping gets as far as the versions. -/
theorem receive_of_valid {nets : Subnets} {m : Mapping} (h : m.Valid nets) (p : IPPool)
    (t t' : Time) :
    receive nets p m t t' =
      if p.getVersion m.fakeIP > m.version then (p, false)
      else (p.observeVersion m.version t).addMapping m.realIP m.fakeIP m.version
        (t' + mappingTTL) := by
  have hne : ¬ (m.fakeIP = [] ∨ m.realIP = []) :=
    not_or.2 ⟨h.wellFormed_fakeIP.ne_nil, h.wellFormed_realIP.ne_nil⟩
  rw [receive, if_neg hne, if_neg (by rw [h.isInSubnet]; decide)]

end Sync

end NextPath
