import NextPath.Foundations.Strings
import NextPath.Sync.Subnets

/-!
# From the environment to the pool

The engine takes the base address and the prefix length of its fakes from the environment. What is
not given has a default, a number that is no prefix length is replaced by 8, and a text that is no
number counts as not given (`prefixLength`). The constructor pads the base to four numbers, masks
it, and falls back to 198.18.0.0 if nothing is left of it: that address is at the beginning of a
network for the lengths from 15 on only.

* `cidrMask_pool`, `toNat_poolSize_pool`: the mask and the size are those of the length;
* `toNat_startV4`: the first address;
* `sound_pool_iff`: for which environments the range is aligned, fits in and stays in the network
  that is printed.
-/

namespace NextPath.Engine

open Net Pool Sync Strings

/-! ## The environment -/

/-- The environment of the process, `os.LookupEnv`. -/
abbrev Env := Bytes → Option Bytes

/-- `getEnv`. -/
def getEnv (env : Env) (key defaultVal : Bytes) : Bytes :=
  match env key with
  | some value =>
    let val := trim (trimSpace value) (str "\"'")
    if val ≠ [] then val else defaultVal
  | none => defaultVal

/-- `strconv.ParseUint(s, 10, 32)`. -/
def parseUint32 (s : Bytes) : Option ℕ := (readNumeral 10 s).filter (· < 2 ^ 32)

/-- `getIPPoolConfig`. -/
def getIPPoolConfig (env : Env) : IPPoolConfig :=
  let poolV4Str := getEnv env (str "POOL_SIZE_V4") (getEnv env (str "POOL_SIZE") [])
  let poolV6Str := getEnv env (str "POOL_SIZE_V6") []
  { poolSizeV4 :=
      if poolV4Str ≠ [] then
        match parseUint32 (trimPrefix poolV4Str (str "/")) with
        | some val =>
          if 0 < val ∧ val ≤ 32 then 1 <<< UInt32.ofNat (32 - val) else (1 : UInt32) <<< 24
        | none => 0
      else 0
    poolSizeV6 :=
      if poolV6Str ≠ [] then
        match parseUint32 (trimPrefix poolV6Str (str "/")) with
        | some val =>
          if 0 < val ∧ val ≤ 128 then
            if 31 < 128 - val then (1 : UInt32) <<< 31 else 1 <<< UInt32.ofNat (128 - val)
          else (1 : UInt32) <<< 24
        | none => 0
      else 0 }

/-- The pool that `main` builds. -/
def pool (env : Env) : IPPool :=
  newIPPoolWithConfig (getEnv env (str "FAKE_IP") (str "198.18"))
    (getEnv env (str "FAKE_IP6") (str "fd00:18::")) (getIPPoolConfig env)

theorem getEnv_ne_nil (env : Env) (key : Bytes) {defaultVal : Bytes} (h : defaultVal ≠ []) :
    getEnv env key defaultVal ≠ [] := by
  unfold getEnv
  cases env key with
  | none => exact h
  | some value =>
    simp only
    split_ifs with hval
    · exact hval
    · exact h

/-! ## The prefix length -/

/-- The prefix length that the environment asks for. -/
def prefixLength (env : Env) : ℕ :=
  let text := getEnv env (str "POOL_SIZE_V4") (getEnv env (str "POOL_SIZE") [])
  match parseUint32 (trimPrefix text (str "/")) with
  | some val => if 0 < val ∧ val ≤ 32 then val else 8
  | none => 15

theorem prefixLength_bounds (env : Env) : 1 ≤ prefixLength env ∧ prefixLength env ≤ 32 := by
  unfold prefixLength
  simp only
  split
  · split_ifs with h
    · exact h
    · omega
  · omega

theorem toNat_one_shiftLeft {k : ℕ} (hk : k < 32) :
    ((1 : UInt32) <<< UInt32.ofNat k).toNat = 2 ^ k := by
  interval_cases k <;> rfl

/-- The size is not given, or that of the prefix length. -/
theorem poolSizeV4_getIPPoolConfig (env : Env) :
    (getIPPoolConfig env).poolSizeV4 = 0 ∧ prefixLength env = 15 ∨
      (getIPPoolConfig env).poolSizeV4.toNat = 2 ^ (32 - prefixLength env) := by
  unfold getIPPoolConfig prefixLength
  by_cases htext : getEnv env (str "POOL_SIZE_V4") (getEnv env (str "POOL_SIZE") []) = []
  · rw [htext]
    exact .inl ⟨rfl, rfl⟩
  · simp only [ne_eq, htext, not_false_eq_true, if_true]
    cases parseUint32 (trimPrefix _ (str "/")) with
    | none => exact .inl ⟨rfl, rfl⟩
    | some val =>
      refine .inr ?_
      simp only
      split_ifs with hval
      · exact toNat_one_shiftLeft (by omega)
      · rfl

theorem toNat_poolSize_pool (env : Env) :
    (pool env).poolSize.toNat = 2 ^ (32 - prefixLength env) := by
  simp only [pool, newIPPoolWithConfig]
  rcases poolSizeV4_getIPPoolConfig env with ⟨hsize, hlength⟩ | hsize
  · rw [if_pos hsize, hlength]
    rfl
  · rw [if_neg, hsize]
    rintro hzero
    rw [hzero] at hsize
    exact absurd hsize.symm (by positivity)

theorem cidrMask_pool (env : Env) : (pool env).cidrMask = prefixLength env := by
  have hmask : (pool env).cidrMask = 32 - Nat.clog 2 (pool env).poolSize.toNat := rfl
  have := prefixLength_bounds env
  rw [hmask, toNat_poolSize_pool, Nat.clog_pow 2 _ (by omega)]
  omega

/-! ## The first address -/

/-- The IPv4 address that the environment gives as the base; none, or four bytes. -/
def base (env : Env) : IP :=
  (parseIP (padQuad (getEnv env (str "FAKE_IP") (str "198.18")))).to4

/-- **The first address** is the beginning of the network of the base, unless that is zero. -/
theorem toNat_startV4 {s : Bytes} (hs : s ≠ []) {m : ℕ} (hm : m ≤ 32) :
    (startV4 s m).toNat =
      let a := beNat (parseIP (padQuad s)).to4
      if a < 2 ^ (32 - m) then 3323068416 else a / 2 ^ (32 - m) * 2 ^ (32 - m) := by
  simp only [startV4, if_neg hs]
  by_cases hip : (parseIP (padQuad s)).to4 = []
  · have hpos : beNat [] < 2 ^ (32 - m) := Nat.two_pow_pos _
    rw [if_pos hip, if_pos rfl, hip, if_pos hpos]
    rfl
  · have hlen := IP.length_to4_of_ne_nil hip
    have hlt := beNat_lt (parseIP (padQuad s)).to4
    generalize (parseIP (padQuad s)).to4 = ip at hip hlen hlt ⊢
    have hmask := beNat_zipWith_cidrMask ip m (by omega)
    rw [hlen] at hmask hlt
    have hval : (be32 (ip.mask (Net.cidrMask m 4))).toNat =
        beNat ip / 2 ^ (32 - m) * 2 ^ (32 - m) := by
      rw [IP.mask_of_length (by rw [hlen, length_cidrMask]), be32, hmask, UInt32.toNat_ofNat']
      exact Nat.mod_eq_of_lt ((Nat.div_mul_le_self _ _).trans_lt hlt)
    have hzero : be32 (ip.mask (Net.cidrMask m 4)) = 0 ↔ beNat ip < 2 ^ (32 - m) := by
      rw [← UInt32.toNat_inj, hval, UInt32.toNat_zero]
      have hpos : 0 < 2 ^ (32 - m) := by positivity
      rw [Nat.mul_eq_zero, or_iff_left hpos.ne', Nat.div_eq_zero_iff, or_iff_right hpos.ne']
    rw [if_neg hip]
    simp only [hzero]
    split_ifs
    · rfl
    · exact hval

theorem toNat_poolStart_pool (env : Env) :
    (pool env).poolStart.toNat =
      let block := 2 ^ (32 - prefixLength env)
      if beNat (base env) < block then 3323068416 else beNat (base env) / block * block := by
  rw [← cidrMask_pool]
  exact toNat_startV4 (getEnv_ne_nil env _ (by decide)) (Nat.sub_le _ _)

/-- **The first address is at the beginning of its network**, unless the fallback is taken for a
length below 15. -/
theorem dvd_poolStart_pool_iff (env : Env) :
    2 ^ (32 - prefixLength env) ∣ (pool env).poolStart.toNat ↔
      (prefixLength env < 15 → 2 ^ (32 - prefixLength env) ≤ beNat (base env)) := by
  rw [toNat_poolStart_pool]
  simp only
  split_ifs with hlow
  · refine ⟨fun hdvd hshort => ?_, fun h => ?_⟩
    · -- 198.18.0.0 is an odd multiple of the seventeenth power
      have h18 : 2 ^ 18 ∣ 3323068416 := (Nat.pow_dvd_pow 2 (by omega)).trans hdvd
      exact absurd h18 (by decide)
    · have hlong : 15 ≤ prefixLength env := not_lt.1 fun hshort => absurd (h hshort) (not_le.2 hlow)
      exact (Nat.pow_dvd_pow 2 (by omega : 32 - prefixLength env ≤ 17)).trans (by decide)
  · exact iff_of_true (Nat.dvd_mul_left _ _) fun _ => not_lt.1 hlow

/-! ## The range and the network -/

/-- The range starts at the beginning of its network, it does not pass the last address, and the
network that is printed has the hash of every IPv4 address. -/
structure Sound (c : PoolRange) : Prop where
  aligned : 2 ^ (32 - c.cidrMask) ∣ c.poolStart.toNat
  bounded : c.poolStart.toNat + c.poolSize.toNat ≤ 2 ^ 32
  contained : ∃ net, parseCIDR c.getPoolNet = some net ∧
    ∀ realIP : IP, realIP.to4 ≠ [] → net.contains (c.computeLevel1Hash realIP false) = true

theorem bounded_of_aligned {env : Env}
    (h : 2 ^ (32 - prefixLength env) ∣ (pool env).poolStart.toNat) :
    (pool env).poolStart.toNat + (pool env).poolSize.toNat ≤ 2 ^ 32 := by
  have hpos : 0 < 2 ^ (32 - prefixLength env) := by positivity
  have hlt := Probing.add_lt_of_dvd h (Nat.pow_dvd_pow 2 (Nat.sub_le 32 _))
    (pool env).poolStart.toNat_lt (Nat.sub_lt hpos one_pos)
  rw [toNat_poolSize_pool]
  omega

/-- A range with more than one address that starts at the beginning of its network. -/
theorem aligned_pool {env : Env} (hlong : prefixLength env ≠ 32)
    (h : 2 ^ (32 - prefixLength env) ∣ (pool env).poolStart.toNat) :
    (pool env).Aligned false (32 - prefixLength env) := by
  obtain ⟨hone, hle⟩ := prefixLength_bounds env
  refine ⟨by omega, by omega, toNat_poolSize_pool env, ?_, ?_⟩
  · rw [if_neg Bool.false_ne_true, cidrMask_pool]
    omega
  · rwa [if_neg Bool.false_ne_true, cidrMask_pool]

/-- The hash in a range with one address. -/
theorem computeLevel1Hash_of_single {env : Env} (hlong : prefixLength env = 32) (realIP : IP) :
    (pool env).computeLevel1Hash realIP false =
      (IPKey.v4 (PoolRange.adjust false (pool env).poolStart)).toIP := by
  have hsize : (pool env).poolSize = 1 :=
    UInt32.toNat_inj.1 (by rw [toNat_poolSize_pool, hlong]; rfl)
  have hmod (x : UInt32) : x % 1 = 0 := UInt32.toNat_inj.1 (by simp)
  simp only [PoolRange.computeLevel1Hash_eq, PoolRange.withLast, PoolRange.first, PoolRange.size,
    hsize, hmod, UInt32.add_zero, Bool.false_eq_true, if_false]

theorem adjust_eq_self_iff (x : UInt32) :
    PoolRange.adjust false x = x ↔ x.toNat % 256 ≠ 0 ∧ x.toNat % 256 ≠ 255 := by
  have h0 := Probing.mod_256_eq_iff x 0
  have h255 := Probing.mod_256_eq_iff x 255
  simp only [PoolRange.adjust, Bool.false_eq_true, if_false]
  split_ifs with hz hm
  · refine iff_of_false (by simp) fun h => h.1 (h0.1 hz)
  · refine iff_of_false (fun heq => ?_) fun h => h.2 (h255.1 hm)
    have hsub := congrArg UInt32.toNat heq
    have hlt := x.toNat_lt
    rw [UInt32.toNat_sub, UInt32.toNat_one] at hsub
    omega
  · exact iff_of_true rfl ⟨fun h => hz (h0.2 h), fun h => hm (h255.2 h)⟩

/-- For the length 32 the first address ends like the base; the fallback ends in 0, and so does no
base at all. -/
theorem poolStart_mod_of_single {env : Env} (hlong : prefixLength env = 32) :
    ((pool env).poolStart.toNat % 256 ≠ 0 ∧ (pool env).poolStart.toNat % 256 ≠ 255) ↔
      beNat (base env) % 256 ≠ 0 ∧ beNat (base env) % 256 ≠ 255 := by
  rw [toNat_poolStart_pool, hlong]
  simp only [Nat.sub_self, pow_zero, Nat.div_one, Nat.mul_one]
  split_ifs with hzero
  · rw [Nat.lt_one_iff.1 hzero]
  · rfl

/-- **From the environment to the network.** The range is aligned, fits in and stays in the network
that is printed exactly if a length below 15 comes with a base that is not masked to zero, and the
length 32 with a base that ends in neither 0 nor 255. -/
theorem sound_pool_iff (env : Env) :
    Sound (pool env).toPoolRange ↔
      (prefixLength env < 15 → 2 ^ (32 - prefixLength env) ≤ beNat (base env)) ∧
      (prefixLength env = 32 → beNat (base env) % 256 ≠ 0 ∧ beNat (base env) % 256 ≠ 255) := by
  rw [← dvd_poolStart_pool_iff]
  have hmask := cidrMask_pool env
  obtain ⟨-, hle⟩ := prefixLength_bounds env
  obtain ⟨net, hnet, hcontains⟩ := exists_poolNet (pool env).toPoolRange (hmask.trans_le hle)
  rw [hmask] at hcontains
  -- which addresses the network has, by their number
  have hin (x : UInt32) : net.contains (IPKey.v4 x).toIP = true ↔
      x.toNat / 2 ^ (32 - prefixLength env) =
        (pool env).poolStart.toNat / 2 ^ (32 - prefixLength env) := by
    rw [hcontains _ (by rw [to4_toIP_v4]; exact bytes32_ne_nil x), to4_toIP_v4, beNat_bytes32]
  refine ⟨fun h => ⟨hmask ▸ h.aligned, fun hlong => ?_⟩, fun ⟨hdvd, hsingle⟩ => ?_⟩
  · -- the one address of the range must not be moved
    obtain ⟨net', hnet', hall⟩ := h.contained
    obtain rfl : net = net' := Option.some.inj (hnet.symm.trans hnet')
    have hself := hall [0, 0, 0, 0] (by decide)
    rw [computeLevel1Hash_of_single hlong, hin, hlong, Nat.sub_self, pow_zero, Nat.div_one,
      Nat.div_one, UInt32.toNat_inj, adjust_eq_self_iff] at hself
    exact (poolStart_mod_of_single hlong).1 hself
  · refine ⟨hmask ▸ hdvd, bounded_of_aligned hdvd, net, hnet, fun realIP _ => ?_⟩
    by_cases hlong : prefixLength env = 32
    · have hself := (poolStart_mod_of_single hlong).2 (hsingle hlong)
      rw [computeLevel1Hash_of_single hlong, hin, (adjust_eq_self_iff _).2 hself]
    · have haligned := aligned_pool hlong hdvd
      have hn := (haligned.naturalOffset_spec realIP).1
      rw [haligned.computeLevel1Hash_eq_address]
      refine (hin _).2 ?_
      rw [UInt32.toNat_ofNat', Nat.mod_eq_of_lt (haligned.add_lt hn)]
      exact Probing.add_div_of_lt hdvd hn

/-- A base that the length masks to zero. -/
def wideEnv : Env := fun key =>
  if key = str "FAKE_IP" then some (str "10.0")
  else if key = str "POOL_SIZE_V4" then some (str "/1") else none

/-- A range with one address, from the base that is the default. -/
def singleEnv : Env := fun key => if key = str "POOL_SIZE_V4" then some (str "32") else none

/-- **Two environments for which it does not.** The base 10.0.0.0 is masked to zero by the length 1,
and half of all addresses do not fit in from 198.18.0.0 on. With the length 32 and no base, the only
address is 198.18.0.0, but every hash is 198.18.0.1. -/
theorem unsound_pools :
    (¬ 2 ^ (32 - (pool wideEnv).cidrMask) ∣ (pool wideEnv).poolStart.toNat ∧
      2 ^ 32 < (pool wideEnv).poolStart.toNat + (pool wideEnv).poolSize.toNat) ∧
    ∃ net, parseCIDR (pool singleEnv).getPoolNet = some net ∧
      net.contains ((pool singleEnv).computeLevel1Hash [1, 1, 1, 1] false) = false := by
  have hout : (parseCIDR (pool singleEnv).getPoolNet).map
      (·.contains ((pool singleEnv).computeLevel1Hash [1, 1, 1, 1] false)) = some false := by
    decide +kernel
  exact ⟨⟨by decide +kernel, by decide +kernel⟩, Option.map_eq_some_iff.1 hout⟩

end NextPath.Engine
