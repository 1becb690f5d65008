import NextPath.Pool.Probing
import NextPath.Sync.Receive

/-!
# The fakes and the advertised networks

The pool takes its fakes from two ranges and advertises two networks, each the smallest of a power
of two that has room for the range. A fake lies in the network of its family if the start of the
range does and the range does not leave it. The constructor masks the start, except where it falls
back to 198.18.0.0, and the IPv4 candidate that ends in 0 or 255 is moved by one.

* `isInSubnet_v4_iff`, `isInSubnet_v6_iff`: which addresses lie in the networks;
* `Regular`: the ranges that do not leave their network;
* `Regular.findFake`: of such a range every fake that is allocated lies in the network of the family
  asked for.
-/

namespace NextPath.Sync

open Net Pool Probing

/-! ## The networks -/

theorem getPoolNet_eq (c : PoolRange) :
    c.getPoolNet = cidrText (bytes32 c.poolStart) c.cidrMask := by
  have h4 : IP.to4 (bytes32 c.poolStart) = bytes32 c.poolStart := IP.to4_of_length rfl
  rw [PoolRange.getPoolNet, cidrText, IP.string, if_neg (bytes32_ne_nil _), if_neg (by simp),
    if_pos (by rw [h4]; exact bytes32_ne_nil _), h4, uintToIP]

/-- The IPv4 network that is printed, read back. -/
theorem exists_poolNet (c : PoolRange) (hm : c.cidrMask ≤ 32) :
    ∃ net, parseCIDR c.getPoolNet = some net ∧ ∀ ip : IP, ip.to4 ≠ [] →
      (net.contains ip = true ↔
        beNat ip.to4 / 2 ^ (32 - c.cidrMask) = c.poolStart.toNat / 2 ^ (32 - c.cidrMask)) := by
  have haddr : IP.to4 (bytes32 c.poolStart) = bytes32 c.poolStart := IP.to4_of_length rfl
  rw [getPoolNet_eq, parseCIDR_cidrText (.inl rfl)]
  simp only [haddr, if_neg (bytes32_ne_nil c.poolStart), length_bytes32, if_pos hm]
  refine ⟨_, rfl, fun ip h4 => ?_⟩
  have hnum : ip.number = ip.to4 := if_neg h4
  rw [IPNet.contains_iff_of_length_four rfl hm, hnum, beNat_bytes32]
  exact and_iff_right (IP.length_to4_of_ne_nil h4)

/-- **The IPv4 network** holds the addresses with the same quotient by the size of its block. -/
theorem isInSubnet_v4_iff (c : PoolRange) (hm : c.cidrMask ≤ 32) {ip : IP} (h4 : ip.to4 ≠ []) :
    isInSubnet (Subnets.ofPool c) ip = true ↔
      beNat ip.to4 / 2 ^ (32 - c.cidrMask) = c.poolStart.toNat / 2 ^ (32 - c.cidrMask) := by
  have hne : ip ≠ [] := (IP.wellFormed_of_to4_ne_nil h4).ne_nil
  obtain ⟨net, hnet, hcontains⟩ := exists_poolNet c hm
  rw [isInSubnet, if_neg hne, if_pos h4, Subnets.ofPool, hnet]
  exact hcontains ip h4

/-- **The IPv6 network**, where the base is no IPv4 address. -/
theorem isInSubnet_v6_iff (c : PoolRange) (h6 : IP.to4 c.poolStart6 = []) (hm : c.cidrMask6 ≤ 128)
    (hm' : 96 ≤ c.cidrMask6) {ip : IP} (h4 : ip.to4 = []) :
    isInSubnet (Subnets.ofPool c) ip = true ↔ ip.length = 16 ∧
      beNat ip / 2 ^ (128 - c.cidrMask6) = beNat c.poolStart6 / 2 ^ (128 - c.cidrMask6) := by
  have hlen := c.length_poolStart6
  have hnum : ip.number = ip := if_pos h4
  by_cases hne : ip = []
  · subst hne
    simp [isInSubnet]
  · rw [isInSubnet, if_neg hne, if_neg (not_not.2 h4), Subnets.ofPool, PoolRange.getPoolNet6,
      parseCIDR_cidrText (.inr hlen)]
    simp only [h6, if_true, hlen, if_pos hm]
    rw [IPNet.contains_iff_of_length_sixteen hlen h6 hm hm', hnum]

/-! ## Regular ranges -/

/-- What the constructor makes sure of: the masks are those of the sizes, and the IPv6 base is
masked. -/
structure Masked (c : PoolRange) : Prop where
  cidrMask : c.cidrMask = 32 - Nat.clog 2 c.poolSize.toNat
  cidrMask6 : c.cidrMask6 = 128 - Nat.clog 2 c.poolSize6.toNat
  poolStart6 : 2 ^ (128 - c.cidrMask6) ∣ beNat c.poolStart6

/-- The ranges that stay in their network: the IPv4 start is at the beginning of a block, the range
has more than one address unless that one ends in neither 0 nor 255, and the IPv6 base is no IPv4
address. -/
structure Regular (c : PoolRange) : Prop where
  aligned : 2 ^ (32 - c.cidrMask) ∣ c.poolStart.toNat
  size : c.poolSize = 1 → c.poolStart % 256 ≠ 0 ∧ c.poolStart % 256 ≠ 255
  v6 : c.poolStart6.take 12 ≠ v4InV6Prefix

instance (c : PoolRange) : Decidable (Regular c) :=
  decidable_of_iff (2 ^ (32 - c.cidrMask) ∣ c.poolStart.toNat ∧
    (c.poolSize = 1 → c.poolStart % 256 ≠ 0 ∧ c.poolStart % 256 ≠ 255) ∧
    c.poolStart6.take 12 ≠ v4InV6Prefix)
    ⟨fun h => ⟨h.1, h.2.1, h.2.2⟩, fun h => ⟨h.1, h.2, h.3⟩⟩

theorem clog_le_of_uint32 (n : UInt32) : Nat.clog 2 n.toNat ≤ 32 :=
  Nat.clog_le_of_le_pow (by have := n.toNat_lt; omega)

theorem masked_new (base4 base6 : Bytes) (cfg : IPPoolConfig) :
    Masked (newIPPoolWithConfig base4 base6 cfg).toPoolRange := by
  refine ⟨rfl, rfl, ?_⟩
  simp only [newIPPoolWithConfig]
  set m := 128 - Nat.clog 2 (if cfg.poolSizeV6 = 0 then defaultPoolSizeV6 else cfg.poolSizeV6).toNat
  have hlen := length_baseV6 base6
  have hmask := beNat_zipWith_cidrMask (baseV6 base6) m (by omega)
  rw [hlen] at hmask
  rw [IP.mask_of_length (by rw [hlen, length_cidrMask]), hmask]
  exact Dvd.intro_left _ rfl

section Regular

variable {c : PoolRange}

theorem Masked.size_le (hc : Masked c) : c.poolSize.toNat ≤ 2 ^ (32 - c.cidrMask) := by
  have hle := clog_le_of_uint32 c.poolSize
  rw [hc.cidrMask, show 32 - (32 - Nat.clog 2 c.poolSize.toNat) = Nat.clog 2 c.poolSize.toNat by
    omega]
  exact Nat.le_pow_clog (by omega) _

theorem Masked.size6_le (hc : Masked c) : c.poolSize6.toNat ≤ 2 ^ (128 - c.cidrMask6) := by
  have hle := clog_le_of_uint32 c.poolSize6
  rw [hc.cidrMask6, show 128 - (128 - Nat.clog 2 c.poolSize6.toNat) =
    Nat.clog 2 c.poolSize6.toNat by omega]
  exact Nat.le_pow_clog (by omega) _

/-- An IPv4 address of the block lies in the network. -/
theorem isInSubnet_of_block (hc : Masked c) (h : Regular c) {x : UInt32} {k : ℕ}
    (hk : k < 2 ^ (32 - c.cidrMask)) (hx : x.toNat = c.poolStart.toNat + k) :
    isInSubnet (Subnets.ofPool c) (IPKey.v4 x).toIP = true := by
  have hm : c.cidrMask ≤ 32 := by rw [hc.cidrMask]; omega
  have h4 := to4_toIP_v4 x
  rw [isInSubnet_v4_iff c hm (by rw [h4]; exact bytes32_ne_nil x), h4, beNat_bytes32, hx]
  exact add_div_of_lt h.aligned hk

/-- The address a hash is moved to when it ends in 0 or 255 is in the block as well. -/
theorem isInSubnet_natural (hc : Masked c) (h : Regular c) (off : UInt32) :
    isInSubnet (Subnets.ofPool c) (IPKey.v4
      (let ipVal := c.poolStart + off % c.poolSize
      if ipVal % 256 = 0 then ipVal + 1 else if ipVal % 256 = 255 then ipVal - 1
        else ipVal)).toIP = true := by
  obtain ⟨hsum, hk⟩ := toNat_add_mod (by omega) h.aligned c.poolSize_ne_zero hc.size_le off
  set ipVal := c.poolStart + off % c.poolSize
  by_cases hone : c.poolSize = 1
  · -- the one address of the range is not moved
    have hip : ipVal = c.poolStart := by
      have hk0 : off.toNat % c.poolSize.toNat = 0 := by simp [hone, Nat.mod_one]
      exact UInt32.toNat_inj.1 (by omega)
    obtain ⟨h0, h255⟩ := h.size hone
    rw [← hip] at h0 h255
    simp only [if_neg h0, if_neg h255]
    exact isInSubnet_of_block hc h hk hsum
  · have hclog : 1 ≤ 32 - c.cidrMask := by
      have hle := clog_le_of_uint32 c.poolSize
      have hsize : 1 < c.poolSize.toNat := by
        have h0 : c.poolSize.toNat ≠ 0 := fun e => c.poolSize_ne_zero (UInt32.toNat_inj.1 e)
        have h1 : c.poolSize.toNat ≠ 1 := fun e => hone (UInt32.toNat_inj.1 e)
        omega
      have := Nat.clog_pos (b := 2) (by omega) hsize
      rw [hc.cidrMask]
      omega
    obtain ⟨k, hk, hval, -⟩ := exists_offset_inward hclog (by omega) h.aligned hk hsum
    exact isInSubnet_of_block hc h hk hval

theorem Regular.to4_fake6 (h : Regular c) (val : UInt32) : IP.to4 (c.fake6 val) = [] := by
  have htake : (c.fake6 val).take 12 = c.poolStart6.take 12 :=
    List.take_left' (by simp [c.length_poolStart6])
  rw [IP.to4, if_neg (by rw [c.length_fake6]; omega), htake, if_neg fun e => h.v6 e.2]

theorem Regular.to4_poolStart6 (h : Regular c) : IP.to4 c.poolStart6 = [] := by
  rw [IP.to4, if_neg (by rw [c.length_poolStart6]; omega), if_neg fun e => h.v6 e.2]

/-- **An IPv6 candidate lies in the network**: it differs from the base in the last four bytes, and
there by an offset inside the block. -/
theorem isInSubnet_fake6 (hc : Masked c) (h : Regular c) (off : UInt32) :
    isInSubnet (Subnets.ofPool c) (c.fake6 (c.startVal + off % c.poolSize6)) = true := by
  have hle := clog_le_of_uint32 c.poolSize6
  have hm : c.cidrMask6 ≤ 128 ∧ 96 ≤ c.cidrMask6 := by rw [hc.cidrMask6]; omega
  have hstart : 2 ^ (128 - c.cidrMask6) ∣ c.startVal.toNat :=
    c.dvd_startVal_iff (by omega) |>.1 hc.poolStart6
  obtain ⟨hsum, hk⟩ := toNat_add_mod (by omega) hstart c.poolSize6_ne_zero hc.size6_le off
  rw [isInSubnet_v6_iff c h.to4_poolStart6 hm.1 hm.2 (h.to4_fake6 _)]
  refine ⟨c.length_fake6 _, ?_⟩
  rw [c.beNat_fake6, hsum, ← Nat.add_assoc, ← c.beNat_poolStart6]
  exact add_div_of_lt hc.poolStart6 hk

theorem isIPv6_fake6 (h : Regular c) (val : UInt32) : (toIPKey (c.fake6 val)).isIPv6 = true := by
  rw [isIPv6_toIPKey, h.to4_fake6]
  rfl

/-- **Every fake that is allocated lies in the network of the family asked for.** -/
theorem Regular.findFake {p : IPPool} (hc : Masked p.toPoolRange) (h : Regular p.toPoolRange)
    {realIP fake : IP} {isIPv6 : Bool} (hf : p.findFake realIP isIPv6 = some fake) :
    isInSubnet (Subnets.ofPool p.toPoolRange) fake = true ∧ (toIPKey fake).isIPv6 = isIPv6 := by
  simp only [IPPool.findFake] at hf
  split_ifs at hf
  · obtain rfl := Option.some.inj hf
    cases isIPv6 with
    | false =>
      simp only [PoolRange.computeLevel1Hash, Bool.false_eq_true, if_false]
      exact ⟨isInSubnet_natural hc h _, by rw [toIPKey_toIP]; rfl⟩
    | true =>
      simp only [PoolRange.computeLevel1Hash, if_true]
      exact ⟨isInSubnet_fake6 hc h _, isIPv6_fake6 h _⟩
  · obtain ⟨attempt, -, hattempt⟩ := List.exists_of_findSome?_eq_some hf
    have hcand := (Option.filter_eq_some_iff.1 hattempt).1
    cases isIPv6 with
    | false =>
      simp only [PoolRange.candidate, Bool.false_eq_true, if_false] at hcand
      split_ifs at hcand
      obtain rfl := Option.some.inj hcand
      obtain ⟨hsum, hk⟩ := toNat_add_mod (by omega) h.aligned p.poolSize_ne_zero hc.size_le _
      exact ⟨isInSubnet_of_block hc h hk hsum, by rw [toIPKey_toIP]; rfl⟩
    | true =>
      simp only [PoolRange.candidate, if_true] at hcand
      obtain rfl := Option.some.inj hcand
      exact ⟨isInSubnet_fake6 hc h _, isIPv6_fake6 h _⟩

end Regular

end NextPath.Sync
