import NextPath.Foundations.Probing
import NextPath.Pool.Allocation

/-!
# Which fake is allocated

A fake is given by an offset into the range of its family: it is the first address of the range with
the offset added to its last four bytes (`PoolRange.address`). The code computes such addresses with
32-bit words, from a hash of the real (`computeLevel1Hash`) and from the attempts after it
(`candidate`), once for each family. On a range whose start is a multiple of its size, a power of
two, none of these computations wraps (`NoWrap`), and the search is a probing of the ring of offsets
from the one of the hash on (`findFake_eq_probe`).

* `computeLevel1Hash_eq_address`, `candidate_eq`: the two ways to a fake.
* `probing_exact`: a call for one address that has no live mapping.
-/

namespace NextPath.Pool

open Net Probing

namespace PoolRange

variable (c : PoolRange)

/-! ## The two families -/

/-- The number of addresses of a family. -/
def size (isIPv6 : Bool) : UInt32 := if isIPv6 then c.poolSize6 else c.poolSize

/-- The last four bytes of the first address of a family. -/
def first (isIPv6 : Bool) : UInt32 := if isIPv6 then c.startVal else c.poolStart

/-- The address of a family with the given last four bytes. -/
def withLast (isIPv6 : Bool) (val : UInt32) : IP :=
  if isIPv6 then c.fake6 val else (IPKey.v4 val).toIP

/-- The last four bytes of an address of a family. -/
def last (isIPv6 : Bool) (ip : IP) : UInt32 := if isIPv6 then be32 (ip.drop 12) else be32 ip.to4

/-- The address at an offset. -/
def address (isIPv6 : Bool) (k : ℕ) : IP :=
  c.withLast isIPv6 (UInt32.ofNat ((c.first isIPv6).toNat + k))

/-- The IPv4 addresses that end in 0 or 255 are not used. -/
def usable (isIPv6 : Bool) (k : ℕ) : Bool :=
  isIPv6 || ((c.poolStart.toNat + k) % 256 != 0 && (c.poolStart.toNat + k) % 256 != 255)

/-- The hash of a real. -/
def hash (realIP : IP) (isIPv6 : Bool) : UInt32 :=
  fnv1aBytes (if isIPv6 then realIP.to16 else realIP.to4)

/-- The step away from an IPv4 address that is not used. -/
def adjust (isIPv6 : Bool) (val : UInt32) : UInt32 :=
  if isIPv6 then val
  else if val % 256 = 0 then val + 1 else if val % 256 = 255 then val - 1 else val

/-- The offset of the hash, as the probing computes it. -/
def naturalOffset (realIP : IP) (isIPv6 : Bool) : UInt32 :=
  last isIPv6 (c.computeLevel1Hash realIP isIPv6) - c.first isIPv6

theorem computeLevel1Hash_eq (realIP : IP) (isIPv6 : Bool) :
    c.computeLevel1Hash realIP isIPv6 = c.withLast isIPv6
      (adjust isIPv6 (c.first isIPv6 + hash realIP isIPv6 % c.size isIPv6)) := by
  cases isIPv6 with
  | false =>
    simp only [computeLevel1Hash, withLast, adjust, first, hash, size, Bool.false_eq_true, if_false]
  | true => simp only [computeLevel1Hash, withLast, adjust, first, hash, size, if_true]

theorem candidate_computeLevel1Hash (realIP : IP) (isIPv6 : Bool) (attempt : ℕ) :
    c.candidate (c.computeLevel1Hash realIP isIPv6) isIPv6 attempt =
      let val := c.first isIPv6 +
        (c.naturalOffset realIP isIPv6 + UInt32.ofNat attempt) % c.size isIPv6
      if isIPv6 = false ∧ (val % 256 = 0 ∨ val % 256 = 255) then none
      else some (c.withLast isIPv6 val) := by
  cases isIPv6 with
  | false => simp [candidate, naturalOffset, first, size, withLast, last]
  | true => simp [candidate, naturalOffset, first, size, withLast, last]

theorem maxAttempts_eq (isIPv6 : Bool) : c.maxAttempts isIPv6 = min (c.size isIPv6).toNat 1024 :=
  rfl

theorem length_fake6 (val : UInt32) : (c.fake6 val).length = 16 := by
  simp [fake6, c.length_poolStart6]

theorem last_withLast (isIPv6 : Bool) (val : UInt32) :
    last isIPv6 (c.withLast isIPv6 val) = val := by
  cases isIPv6 with
  | false => simp [last, withLast, to4_toIP_v4]
  | true =>
    have hdrop : (c.fake6 val).drop 12 = bytes32 val :=
      List.drop_left' (by simp [c.length_poolStart6])
    simp [last, withLast, hdrop]

/-! ## The numbers of the addresses -/

theorem toNat_startVal : beNat (c.poolStart6.drop 12) = c.startVal.toNat := by
  have hlt := beNat_lt (c.poolStart6.drop 12)
  rw [startVal, be32, UInt32.toNat_ofNat', Nat.mod_eq_of_lt]
  simpa [c.length_poolStart6] using hlt

/-- The IPv6 base is its first twelve bytes and the last four. -/
theorem beNat_poolStart6 :
    beNat c.poolStart6 = beNat (c.poolStart6.take 12) * 2 ^ 32 + c.startVal.toNat := by
  conv_lhs => rw [← List.take_append_drop 12 c.poolStart6, beNat_append, c.toNat_startVal]
  simp [c.length_poolStart6]

theorem beNat_fake6 (val : UInt32) :
    beNat (c.fake6 val) = beNat (c.poolStart6.take 12) * 2 ^ 32 + val.toNat := by
  rw [fake6, beNat_append, beNat_bytes32, length_bytes32]
  norm_num

theorem dvd_startVal_iff {j : ℕ} (hj : j ≤ 32) :
    2 ^ j ∣ beNat c.poolStart6 ↔ 2 ^ j ∣ c.startVal.toNat := by
  have hdvd : 2 ^ j ∣ beNat (c.poolStart6.take 12) * 2 ^ 32 :=
    (Nat.pow_dvd_pow 2 hj).trans (Dvd.intro_left _ rfl)
  rw [c.beNat_poolStart6, Nat.dvd_add_right hdvd]

/-! ## Aligned ranges -/

/-- The range of a family has `2 ^ j` addresses, at least two, and starts at the beginning of the
network of its mask, which has as many. -/
structure Aligned (isIPv6 : Bool) (j : ℕ) : Prop where
  one_le : 1 ≤ j
  le : j ≤ 31
  size : (c.size isIPv6).toNat = 2 ^ j
  mask : if isIPv6 then c.cidrMask6 = 128 - j else c.cidrMask = 32 - j
  start : if isIPv6 then 2 ^ (128 - c.cidrMask6) ∣ beNat c.poolStart6
    else 2 ^ (32 - c.cidrMask) ∣ c.poolStart.toNat

/-- No addition or subtraction of 32-bit words on the way to a fake wraps. -/
structure NoWrap (realIP : IP) (isIPv6 : Bool) : Prop where
  /-- The hash of the real is added to the first address. -/
  hash : (c.first isIPv6).toNat + (PoolRange.hash realIP isIPv6 % c.size isIPv6).toNat < 2 ^ 32
  /-- An IPv4 address that ends in 0 is moved up. -/
  up : (c.first isIPv6 + PoolRange.hash realIP isIPv6 % c.size isIPv6) % 256 = 0 →
    isIPv6 = false →
    (c.first isIPv6 + PoolRange.hash realIP isIPv6 % c.size isIPv6).toNat + 1 < 2 ^ 32
  /-- An IPv4 address that ends in 255 is moved down. -/
  down : (c.first isIPv6 + PoolRange.hash realIP isIPv6 % c.size isIPv6) % 256 = 255 →
    1 ≤ (c.first isIPv6 + PoolRange.hash realIP isIPv6 % c.size isIPv6).toNat
  /-- The first address is subtracted from the result. -/
  offset : (c.first isIPv6).toNat ≤ (last isIPv6 (c.computeLevel1Hash realIP isIPv6)).toNat
  /-- The number of the attempt is added to the offset. -/
  attempt : ∀ i < c.maxAttempts isIPv6, (c.naturalOffset realIP isIPv6).toNat + i < 2 ^ 32
  /-- The remainder is added to the first address. -/
  candidate : ∀ i < c.maxAttempts isIPv6, (c.first isIPv6).toNat +
    ((c.naturalOffset realIP isIPv6 + UInt32.ofNat i) % c.size isIPv6).toNat < 2 ^ 32

section Aligned

variable {c} {isIPv6 : Bool} {j : ℕ}

theorem Aligned.dvd_first (h : c.Aligned isIPv6 j) : 2 ^ j ∣ (c.first isIPv6).toNat := by
  obtain ⟨hone, hle, -, hmask, hstart⟩ := h
  cases isIPv6 with
  | false =>
    simp only [Bool.false_eq_true, if_false] at hmask hstart
    rwa [hmask, show 32 - (32 - j) = j by omega] at hstart
  | true =>
    simp only [if_true] at hmask hstart
    rw [hmask, show 128 - (128 - j) = j by omega] at hstart
    exact (c.dvd_startVal_iff (by omega)).1 hstart

theorem Aligned.size_ne_zero (h : c.Aligned isIPv6 j) : c.size isIPv6 ≠ 0 := by
  intro h0
  have := h.size
  rw [h0] at this
  exact absurd this.symm (by positivity)

theorem Aligned.add_lt (h : c.Aligned isIPv6 j) {k : ℕ} (hk : k < 2 ^ j) :
    (c.first isIPv6).toNat + k < 2 ^ 32 :=
  add_lt_of_dvd h.dvd_first (Nat.pow_dvd_pow 2 (by have := h.le; omega))
    (c.first isIPv6).toNat_lt hk

/-- An offset computed with words. -/
theorem Aligned.toNat_add (h : c.Aligned isIPv6 j) (off : UInt32) :
    (c.first isIPv6 + off % c.size isIPv6).toNat = (c.first isIPv6).toNat + off.toNat % 2 ^ j := by
  have := (toNat_add_mod (by have := h.le; omega) h.dvd_first h.size_ne_zero h.size.le off).1
  rwa [h.size] at this

theorem withLast_eq_address {val : UInt32} {k : ℕ}
    (hval : val.toNat = (c.first isIPv6).toNat + k) :
    c.withLast isIPv6 val = c.address isIPv6 k := by
  rw [address, ← hval, UInt32.ofNat_toNat]

/-- **The hash leads to an address that is used.** -/
theorem Aligned.adjust_spec (h : c.Aligned isIPv6 j) (off : UInt32) :
    ∃ k < 2 ^ j, (adjust isIPv6 (c.first isIPv6 + off % c.size isIPv6)).toNat =
      (c.first isIPv6).toNat + k ∧ c.usable isIPv6 k = true := by
  have hsum := h.toNat_add off
  have hk : off.toNat % 2 ^ j < 2 ^ j := Nat.mod_lt _ (by positivity)
  cases isIPv6 with
  | true => exact ⟨_, hk, hsum, rfl⟩
  | false =>
    obtain ⟨k, hk, hval, hends⟩ := exists_offset_inward h.one_le (by have := h.le; omega)
      h.dvd_first hk hsum
    exact ⟨k, hk, hval, by simpa [usable, first] using hends⟩

/-- **The offset of the hash.** -/
theorem Aligned.naturalOffset_spec (h : c.Aligned isIPv6 j) (realIP : IP) :
    (c.naturalOffset realIP isIPv6).toNat < 2 ^ j ∧
      c.usable isIPv6 (c.naturalOffset realIP isIPv6).toNat = true ∧
      (last isIPv6 (c.computeLevel1Hash realIP isIPv6)).toNat =
        (c.first isIPv6).toNat + (c.naturalOffset realIP isIPv6).toNat := by
  obtain ⟨k, hk, hval, huse⟩ := h.adjust_spec (hash realIP isIPv6)
  have hlast : (last isIPv6 (c.computeLevel1Hash realIP isIPv6)).toNat =
      (c.first isIPv6).toNat + k := by
    rw [c.computeLevel1Hash_eq, last_withLast, hval]
  have hoff : (c.naturalOffset realIP isIPv6).toNat = k := by
    rw [naturalOffset, UInt32.toNat_sub_of_le _ _ (by rw [UInt32.le_iff_toNat_le]; omega)]
    omega
  rw [hoff]
  exact ⟨hk, huse, hlast⟩

theorem Aligned.computeLevel1Hash_eq_address (h : c.Aligned isIPv6 j) (realIP : IP) :
    c.computeLevel1Hash realIP isIPv6 =
      c.address isIPv6 (c.naturalOffset realIP isIPv6).toNat := by
  have hlast := (h.naturalOffset_spec realIP).2.2
  rw [c.computeLevel1Hash_eq, last_withLast] at hlast
  rw [c.computeLevel1Hash_eq, withLast_eq_address hlast]

theorem Aligned.maxAttempts_eq (h : c.Aligned isIPv6 j) :
    c.maxAttempts isIPv6 = min (2 ^ j) 1024 := by
  rw [c.maxAttempts_eq, h.size]

/-- The sum of the offset and the attempt, computed with words. -/
theorem Aligned.toNat_attempt (h : c.Aligned isIPv6 j) (realIP : IP) {i : ℕ}
    (hi : i < c.maxAttempts isIPv6) :
    (c.naturalOffset realIP isIPv6 + UInt32.ofNat i).toNat =
      (c.naturalOffset realIP isIPv6).toNat + i ∧
    (c.naturalOffset realIP isIPv6).toNat + i < 2 ^ 32 := by
  have hn := (h.naturalOffset_spec realIP).1
  have hpow : 2 ^ j ≤ 2 ^ 31 := Nat.pow_le_pow_right (by omega) h.le
  rw [h.maxAttempts_eq] at hi
  have hi' : i < 1024 := hi.trans_le (min_le_right _ _)
  rw [UInt32.toNat_add, UInt32.toNat_ofNat', Nat.mod_eq_of_lt (show i < 2 ^ 32 by omega),
    Nat.mod_eq_of_lt (show (c.naturalOffset realIP isIPv6).toNat + i < 2 ^ 32 by omega)]
  exact ⟨rfl, by omega⟩

/-- **The candidate of an attempt.** -/
theorem Aligned.candidate_eq (h : c.Aligned isIPv6 j) (realIP : IP) {i : ℕ}
    (hi : i < c.maxAttempts isIPv6) :
    c.candidate (c.computeLevel1Hash realIP isIPv6) isIPv6 i =
      let k := ((c.naturalOffset realIP isIPv6).toNat + i) % 2 ^ j
      if c.usable isIPv6 k = true then some (c.address isIPv6 k) else none := by
  have hval := h.toNat_add (c.naturalOffset realIP isIPv6 + UInt32.ofNat i)
  rw [(h.toNat_attempt realIP hi).1] at hval
  rw [candidate_computeLevel1Hash]
  set val := c.first isIPv6 + (c.naturalOffset realIP isIPv6 + UInt32.ofNat i) % c.size isIPv6
  set k := ((c.naturalOffset realIP isIPv6).toNat + i) % 2 ^ j
  simp only [withLast_eq_address hval]
  have huse : c.usable isIPv6 k = true ↔
      ¬ (isIPv6 = false ∧ (val % 256 = 0 ∨ val % 256 = 255)) := by
    cases isIPv6 with
    | true => simp [usable]
    | false =>
      have hfirst : c.first false = c.poolStart := rfl
      rw [mod_256_eq_iff, mod_256_eq_iff, hval, hfirst]
      simp [usable, not_or]
  by_cases hskip : isIPv6 = false ∧ (val % 256 = 0 ∨ val % 256 = 255)
  · rw [if_pos hskip, if_neg fun hu => huse.1 hu hskip]
  · rw [if_neg hskip, if_pos (huse.2 hskip)]

/-- None of the computations wraps. -/
theorem Aligned.noWrap (h : c.Aligned isIPv6 j) (realIP : IP) : c.NoWrap realIP isIPv6 := by
  obtain ⟨-, -, hlast⟩ := h.naturalOffset_spec realIP
  have hmod (off : UInt32) : (off % c.size isIPv6).toNat = off.toNat % 2 ^ j := by
    rw [UInt32.toNat_mod, h.size]
  have hrem (off : UInt32) : off.toNat % 2 ^ j < 2 ^ j := Nat.mod_lt _ (by positivity)
  generalize hv : c.first isIPv6 + hash realIP isIPv6 % c.size isIPv6 = val
  refine ⟨?_, fun h0 _ => ?_, fun h255 => ?_, by omega, fun i hi => (h.toNat_attempt realIP hi).2,
    fun i hi => ?_⟩
  · rw [hmod]
    exact h.add_lt (hrem _)
  · rw [hv] at h0 ⊢
    have h0' : val.toNat % 256 = 0 := (mod_256_eq_iff val 0).1 h0
    have := val.toNat_lt
    omega
  · rw [hv] at h255 ⊢
    have h255' : val.toNat % 256 = 255 := (mod_256_eq_iff val 255).1 h255
    omega
  · rw [hmod]
    exact h.add_lt (hrem _)

end Aligned

/-! ## Numbers -/

/-- The number of an address of a family. -/
def number (isIPv6 : Bool) (ip : IP) : ℕ := if isIPv6 then beNat ip else beNat ip.to4

/-- The number of the first address of a family. -/
def start (isIPv6 : Bool) : ℕ := if isIPv6 then beNat c.poolStart6 else c.poolStart.toNat

/-- The addresses of the offsets follow the start. -/
theorem Aligned.number_address {c : PoolRange} {isIPv6 : Bool} {j k : ℕ}
    (h : c.Aligned isIPv6 j) (hk : k < 2 ^ j) :
    number isIPv6 (c.address isIPv6 k) = c.start isIPv6 + k := by
  have hlt := h.add_lt hk
  have hnat : (UInt32.ofNat ((c.first isIPv6).toNat + k)).toNat = (c.first isIPv6).toNat + k := by
    rw [UInt32.toNat_ofNat', Nat.mod_eq_of_lt hlt]
  cases isIPv6 with
  | false =>
    simp only [number, PoolRange.start, address, withLast, Bool.false_eq_true, if_false]
    rw [to4_toIP_v4, beNat_bytes32, hnat]
    rfl
  | true =>
    simp only [number, PoolRange.start, address, withLast, if_true]
    rw [c.beNat_fake6, hnat, c.beNat_poolStart6, Nat.add_assoc]
    rfl

end PoolRange

/-! ## The search -/

/-- **The search is a probing of the ring of offsets**, from the one of the hash on. -/
theorem findFake_eq_probe {p : IPPool} {isIPv6 : Bool} {j : ℕ}
    (h : p.toPoolRange.Aligned isIPv6 j) (realIP : IP) :
    p.findFake realIP isIPv6 =
      (probe (2 ^ j) (p.naturalOffset realIP isIPv6).toNat (min (2 ^ j) 1024) fun k =>
        p.usable isIPv6 k && (p.realOf (toIPKey (p.address isIPv6 k))).isNone).map
          (p.address isIPv6) := by
  obtain ⟨hn, huse, -⟩ := h.naturalOffset_spec realIP
  have hnatural := h.computeLevel1Hash_eq_address realIP
  have hpos : 0 < min (2 ^ j) 1024 := lt_min (by positivity) (by omega)
  simp only [IPPool.findFake]
  rw [hnatural]
  split_ifs with hfree
  · rw [probe_of_start hpos hn (by simp [huse, hfree]), Option.map_some]
  · rw [← hnatural, h.maxAttempts_eq]
    refine findSome?_eq_probe fun i hi => ?_
    rw [← h.maxAttempts_eq] at hi
    rw [h.candidate_eq realIP hi]
    by_cases hk : p.usable isIPv6 (((p.naturalOffset realIP isIPv6).toNat + i) % 2 ^ j) = true
    · simp only [hk, Bool.true_and, if_true, Option.filter_some, decide_eq_true_eq,
        Option.isNone_iff_eq_none]
    · simp [hk]

/-! ## A call for one address -/

/-- A call for one address that has no live mapping is a search in the pool without its mapping. -/
theorem getFakeIPsForReals_single {p : IPPool} {realIP : IP} {now : Time}
    (hdead : ∀ f, ¬ p.Live now realIP f) (isIPv6 : Bool) (clk : ℕ → Time) :
    (p.getFakeIPsForReals [realIP] isIPv6 now clk).2.map
        (fun found => found.result.lookup realIP.string) =
      ((p.vacate realIP).findFake realIP isIPv6).map some := by
  rw [IPPool.getFakeIPsForReals, if_neg (List.cons_ne_nil _ _)]
  generalize hout : IPPool.fill isIPv6 now (IPPool.sortReals [realIP]) clk p ⟨∅, ∅⟩ = out
  rcases p.fill_cons_cases hout with ⟨q, f, hsec, rfl⟩ | ⟨q, info, hsec, rfl⟩ | ⟨q, hsec, rfl⟩
  · cases hsec with
    | kept live => exact absurd live (hdead f)
    | extended live => exact absurd live (hdead f)
  · cases hsec with
    | fresh _ find =>
      rw [find]
      simp [IPPool.fill, IPPool.Found.allocated]
  · cases hsec with
    | exhausted _ full =>
      rw [full]
      rfl

/-- **Allocation by hashing and probing.** The address has no live mapping; a slot is taken if it
has a real in the pool without the mapping of the address. The slot of the hash is in the range and
is one that is used. The fake is the first slot from there on, round the ring, that is used and not
taken, so the slot of the hash if that is not taken; there is none exactly if all that are tried are
taken, and in a small pool these are all slots. No computation wraps. -/
theorem probing_exact {p : IPPool} {isIPv6 : Bool} {j : ℕ}
    (hc : p.toPoolRange.Aligned isIPv6 j) {realIP : IP} {now : Time}
    (hdead : ∀ f, ¬ p.Live now realIP f) (clk : ℕ → Time) :
    let n := (p.naturalOffset realIP isIPv6).toNat
    let taken (k : ℕ) : Prop := (p.vacate realIP).realOf (toIPKey (p.address isIPv6 k)) ≠ none
    let call := p.getFakeIPsForReals [realIP] isIPv6 now clk
    (n < 2 ^ j ∧ p.usable isIPv6 n = true ∧
      p.computeLevel1Hash realIP isIPv6 = p.address isIPv6 n) ∧
    (∀ k < 2 ^ j, PoolRange.number isIPv6 (p.address isIPv6 k) = p.start isIPv6 + k) ∧
    (∀ p' found, call = (p', some found) → ∃ i < min (2 ^ j) 1024, ∃ k < 2 ^ j,
      k = (n + i) % 2 ^ j ∧ found.result.lookup realIP.string = some (p.address isIPv6 k) ∧
      p.usable isIPv6 k = true ∧ ¬ taken k ∧ (¬ taken n → k = n) ∧
      ∀ i' < i, p.usable isIPv6 ((n + i') % 2 ^ j) = true → taken ((n + i') % 2 ^ j)) ∧
    (call.2 = none ↔ ∀ i < min (2 ^ j) 1024,
      p.usable isIPv6 ((n + i) % 2 ^ j) = true → taken ((n + i) % 2 ^ j)) ∧
    (2 ^ j ≤ 1024 → call.2 = none → ∀ k < 2 ^ j, p.usable isIPv6 k = true → taken k) ∧
    p.NoWrap realIP isIPv6 := by
  intro n taken call
  obtain ⟨hn, huse, -⟩ := hc.naturalOffset_spec realIP
  have hrange : (p.vacate realIP).toPoolRange = p.toPoolRange := by
    rw [IPPool.vacate]
    split <;> rfl
  -- the search, in the range of the pool before the deletion
  have hfind := findFake_eq_probe (p := p.vacate realIP) (hrange ▸ hc) realIP
  rw [hrange] at hfind
  have hcall := getFakeIPsForReals_single hdead isIPv6 clk
  have hslot (k : ℕ) : (p.usable isIPv6 k &&
      ((p.vacate realIP).realOf (toIPKey (p.address isIPv6 k))).isNone) = false ↔
      (p.usable isIPv6 k = true → taken k) := by
    simp [taken, Option.isSome_iff_ne_none]
  have hnone : call.2 = none ↔ ∀ i < min (2 ^ j) 1024,
      p.usable isIPv6 ((n + i) % 2 ^ j) = true → taken ((n + i) % 2 ^ j) := by
    rw [← Option.map_eq_none_iff, hcall, Option.map_eq_none_iff, hfind, Option.map_eq_none_iff,
      probe_eq_none_iff]
    simp only [hslot]
    rfl
  refine ⟨⟨hn, huse, hc.computeLevel1Hash_eq_address realIP⟩, fun k hk => hc.number_address hk,
    fun p' found hsome => ?_, hnone, fun hsmall hfail k hk hu => ?_, hc.noWrap realIP⟩
  · rw [show (p.getFakeIPsForReals [realIP] isIPv6 now clk) = _ from hsome,
      Option.map_some] at hcall
    obtain ⟨fake, hfake, heq⟩ := Option.map_eq_some_iff.1 hcall.symm
    rw [hfind] at hfake
    obtain ⟨k, hk, rfl⟩ := Option.map_eq_some_iff.1 hfake
    obtain ⟨i, hi, rfl, hok, hbefore⟩ := exists_of_probe_eq_some hk
    obtain ⟨hu, hfree⟩ := Bool.and_eq_true_iff.1 hok
    have hpassed : ∀ i' < i, p.usable isIPv6 ((n + i') % 2 ^ j) = true →
        taken ((n + i') % 2 ^ j) := fun i' hi' => (hslot _).1 (hbefore i' hi')
    refine ⟨i, hi, _, Nat.mod_lt _ (by positivity), rfl, heq.symm, hu,
      not_not.2 (Option.isNone_iff_eq_none.1 hfree), fun hfirst => ?_, hpassed⟩
    rcases i.eq_zero_or_pos with rfl | hlater
    · exact Nat.mod_eq_of_lt hn
    · have htaken := hpassed 0 hlater
      rw [Nat.add_zero, Nat.mod_eq_of_lt hn] at htaken
      exact absurd (htaken huse) hfirst
  · obtain ⟨i, hi, rfl⟩ := exists_attempt (n := min (2 ^ j) 1024) (by omega) hn hk
    exact hnone.1 hfail i hi hu

/-- A pool with four IPv4 addresses, of which one is not used and two are taken. -/
def fourPool : IPPool :=
  (((newIPPoolWithConfig [] [] ⟨4, 4⟩).addMapping
    [8, 8, 8, 8] [198, 18, 0, 1] 1 minute).1.addMapping [9, 9, 9, 9] [198, 18, 0, 2] 2 minute).1

/-- The last fake of a pool. -/
theorem probing_fourPool :
    ∃ found, (fourPool.getFakeIPsForReals [[1, 1, 1, 1]] false minute fun _ => minute).2 =
      some found ∧ ∃ k < 4,
        found.result.lookup (IP.string [1, 1, 1, 1]) = some (fourPool.address false k) ∧
        fourPool.usable false k = true := by
  have hc : fourPool.Aligned false 2 :=
    ⟨by decide, by decide, by decide +kernel, by decide +kernel, by decide +kernel⟩
  have hfree : fourPool.fakeAt [1, 1, 1, 1] = none := by decide +kernel
  have hdead : ∀ f, ¬ fourPool.Live minute [1, 1, 1, 1] f := by
    rintro f ⟨hfake, -⟩
    simp [hfree] at hfake
  have hok : (fourPool.getFakeIPsForReals [[1, 1, 1, 1]] false minute fun _ => minute).2.isSome =
      true := by decide +kernel
  obtain ⟨found, hfound⟩ := Option.isSome_iff_exists.1 hok
  obtain ⟨-, -, hsome, -⟩ := probing_exact hc hdead fun _ => minute
  obtain ⟨i, -, k, hk, -, hresult, huse, -⟩ := hsome _ found (Prod.ext rfl hfound)
  exact ⟨found, hfound, k, hk, hresult, huse⟩

end NextPath.Pool
