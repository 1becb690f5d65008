import Mathlib.Data.Nat.Log
import NextPath.Foundations.Maps
import NextPath.Net.Prefix

/-!
# The state of the address pool

`IPPool` maps real addresses to fake ones and back. The real-to-fake direction and the expiry
times are spread over 64 shards by a hash of the real address; the fake-to-real direction and the
versions are global. This module has the state, the hashes and the constructor
(`newIPPoolWithConfig`); the operations are in `Pool.Operations` and `Pool.Allocation`.

`fakeOf`, `expiryOf`, `realOf` and `versionOf` are the four maps read at the place where the
operations read them: a real address in the shard its bytes hash to. `slot` is what any shard has
for a real, and `modifyShard` is an update of one shard.
-/

namespace NextPath.Pool

open Net

/-! ## Time -/

/-- A reading of the clock or an expiry time, in nanoseconds from the Unix epoch. -/
abbrev Time := ℤ

/-- `time.Minute`. -/
def minute : Time := 60 * 10 ^ 9

/-- `MappingTTL`. -/
def mappingTTL : Time := 120 * minute

/-- `time.Time{}`, the start of the year 1: what a lookup of a missing expiry gives. -/
def zeroTime : Time := -62135596800 * 10 ^ 9

/-- `uint64(t.UnixNano())`. -/
def unixNano (t : Time) : UInt64 := UInt64.ofInt t

/-! ## The maps -/

/-- `cacheShard`. -/
structure CacheShard where
  realToFake : Map IPKey IPKey
  expiries : Map IPKey Time
  deriving DecidableEq

/-- The part of `IPPool` that is set once: the two ranges the fakes are taken from. -/
structure PoolRange where
  poolStart : UInt32
  poolSize : UInt32
  cidrMask : ℕ
  poolStart6 : Bytes
  poolSize6 : UInt32
  cidrMask6 : ℕ
  poolSize_ne_zero : poolSize ≠ 0
  poolSize6_ne_zero : poolSize6 ≠ 0
  length_poolStart6 : poolStart6.length = 16

/-- `IPPool`, without its locks. -/
structure IPPool extends PoolRange where
  shards : Fin 64 → CacheShard
  globalFakeToReal : Map IPKey IPKey
  globalVersions : Map IPKey UInt64
  hlc : UInt64

/-! ## Hashes -/

/-- `fnv1aBytes`. -/
def fnv1aBytes (data : Bytes) : UInt32 :=
  let h := data.foldl (fun h b => (h ^^^ b.toUInt32) * 16777619) 2166136261
  let h := (h ^^^ (h >>> 16)) * 0x85ebca6b
  let h := (h ^^^ (h >>> 13)) * 0xc2b2ae35
  h ^^^ (h >>> 16)

/-- `normalizeIP`. -/
def normalizeIP (ip : IP) : IP := if ip.to4 ≠ [] then ip.to4 else ip.to16

/-- `getShardIndex`. -/
def getShardIndex (ip : IP) : Fin 64 :=
  Fin.ofNat 64 (fnv1aBytes (normalizeIP ip) % 64).toNat

/-- The shard a key belongs to: that of the address it stands for. -/
def shardOf (k : IPKey) : Fin 64 := getShardIndex k.toIP

theorem normalizeIP_to16 {ip : IP} (h : ip.WellFormed) : normalizeIP ip.to16 = normalizeIP ip := by
  rw [normalizeIP, normalizeIP, IP.to4_to16 ip h, IP.to16_to16 ip h]

theorem toIPKey_normalizeIP {ip : IP} (h : ip.WellFormed) :
    toIPKey (normalizeIP ip) = toIPKey ip := by
  rw [normalizeIP]
  split_ifs with h4
  · exact toIPKey_to4 h4
  · exact toIPKey_to16 h

/-- **An address is sharded by its key**, whichever form it is given in. -/
theorem getShardIndex_eq {ip : IP} (h : ip.WellFormed) :
    getShardIndex ip = shardOf (toIPKey ip) := by
  rw [shardOf, toIP_toIPKey h, getShardIndex, getShardIndex, normalizeIP_to16 h]

/-! ## Construction -/

/-- `IPPoolConfig`. -/
structure IPPoolConfig where
  poolSizeV4 : UInt32
  poolSizeV6 : UInt32

def defaultPoolSizeV4 : UInt32 := 131072

def defaultPoolSizeV6 : UInt32 := 1048576

/-- The base network with `.0` appended until it has four fields. -/
def padQuad (ipStr : Bytes) : Bytes :=
  ipStr ++ (List.replicate (4 - (ipStr.splitOn (chr '.')).length) (str ".0")).flatten

/-- The start of the IPv4 range: the masked base, or 198.18.0.0 when that is zero or no IPv4
address. -/
def startV4 (baseSubnetV4 : Bytes) (cidrMask : ℕ) : UInt32 :=
  let ipStr := padQuad (if baseSubnetV4 = [] then str "198.18" else baseSubnetV4)
  let ip4 := (parseIP ipStr).to4
  let poolStart := if ip4 = [] then 0 else be32 (ip4.mask (Net.cidrMask cidrMask 4))
  if poolStart = 0 then (198 : UInt32) <<< 24 ||| (18 : UInt32) <<< 16 else poolStart

/-- The sixteen bytes of the IPv6 base, before masking. -/
def baseV6 (baseSubnetV6 : Bytes) : IP :=
  let ip := (parseIP (if baseSubnetV6 = [] then str "fd00:18::" else baseSubnetV6)).to16
  if ip = [] then [0xfd, 0x00, 0, 0x18, 0, 0, 0, 0, 0, 0, 0, 0, 0, 0, 0, 0] else ip

theorem length_baseV6 (s : Bytes) : (baseV6 s).length = 16 := by
  simp only [baseV6]
  by_cases h : (parseIP (if s = [] then str "fd00:18::" else s)).to16 = []
  · rw [if_pos h]
    rfl
  · rw [if_neg h]
    exact (IP.length_to16_or _).resolve_right h

/-- `NewIPPoolWithConfig`. `math.Ceil(math.Log2(n))` is exact on 32-bit sizes. -/
def newIPPoolWithConfig (baseSubnetV4 baseSubnetV6 : Bytes) (cfg : IPPoolConfig) : IPPool :=
  let poolSize := if cfg.poolSizeV4 = 0 then defaultPoolSizeV4 else cfg.poolSizeV4
  let cidrMask := 32 - Nat.clog 2 poolSize.toNat
  let poolSize6 := if cfg.poolSizeV6 = 0 then defaultPoolSizeV6 else cfg.poolSizeV6
  let cidrMask6 := 128 - Nat.clog 2 poolSize6.toNat
  { poolStart := startV4 baseSubnetV4 cidrMask
    poolSize
    cidrMask
    poolStart6 := (baseV6 baseSubnetV6).mask (Net.cidrMask cidrMask6 16)
    poolSize6
    cidrMask6
    poolSize_ne_zero := by simp only [poolSize]; split_ifs with h <;> simp_all [defaultPoolSizeV4]
    poolSize6_ne_zero := by
      simp only [poolSize6]; split_ifs with h <;> simp_all [defaultPoolSizeV6]
    length_poolStart6 := by
      rw [IP.mask_of_length (by rw [length_baseV6, length_cidrMask])]
      simp [length_baseV6]
    shards := fun _ => ⟨∅, ∅⟩
    globalFakeToReal := ∅
    globalVersions := ∅
    hlc := 0 }

namespace IPPool

/-! ## Reading and updating the maps -/

variable (p : IPPool)

/-- What a shard holds for a real: its fake and its expiry. -/
def slot (i : Fin 64) (k : IPKey) : Option IPKey × Option Time :=
  ((p.shards i).realToFake.lookup k, (p.shards i).expiries.lookup k)

/-- The fake a real is mapped to. -/
def fakeOf (r : IPKey) : Option IPKey := (p.shards (shardOf r)).realToFake.lookup r

/-- When the mapping of a real expires. -/
def expiryOf (r : IPKey) : Option Time := (p.shards (shardOf r)).expiries.lookup r

/-- The real a fake stands for. -/
def realOf (f : IPKey) : Option IPKey := p.globalFakeToReal.lookup f

/-- The version of the mapping of a fake. -/
def versionOf (f : IPKey) : Option UInt64 := p.globalVersions.lookup f

/-- The pool with one shard changed. -/
def modifyShard (i : Fin 64) (g : CacheShard → CacheShard) : IPPool :=
  { p with shards := Function.update p.shards i (g (p.shards i)) }

end IPPool

end NextPath.Pool
