import Mathlib.Tactic.Ring
import NextPath.Net.Text

/-!
# Networks

The pool advertises its two ranges as networks in CIDR notation, and the peers' mappings are
checked against the networks read back from that text. `cidrMask` is `net.CIDRMask`, `IP.mask` is
`IP.Mask`, `parseCIDR` is `net.ParseCIDR` and `IPNet.contains` is `IPNet.Contains`, all of them on
bytes as the standard library has them.

`beNat_zipWith_cidrMask` says what a mask does to the number an address stands for: it clears the
bits of the host. So a network holds the addresses with the same quotient by the size of its
range (`IPNet.contains_iff_of_length_four`, `IPNet.contains_iff_of_length_sixteen`).
-/

namespace NextPath.Net

/-! ## Masks -/

/-- A byte of a mask, with `n` ones left to place. -/
def maskByte (n : ℕ) : UInt8 := if 8 ≤ n then 0xff else ~~~(0xff >>> UInt8.ofNat n)

/-- `net.CIDRMask(n, 8*l)`. -/
def cidrMask (n : ℕ) : ℕ → Bytes
  | 0 => []
  | l + 1 => maskByte n :: cidrMask (n - 8) l

/-- `IP.Mask`. -/
def IP.mask (ip : IP) (m : Bytes) : IP :=
  let m := if m.length = 16 ∧ ip.length = 4 ∧ (m.take 12).all (· == 0xff) then m.drop 12 else m
  let ip := if m.length = 4 ∧ ip.length = 16 ∧ ip.take 12 = v4InV6Prefix then ip.drop 12 else ip
  if ip.length = m.length then List.zipWith (· &&& ·) ip m else []

@[simp] theorem length_cidrMask (n l : ℕ) : (cidrMask n l).length = l := by
  induction l generalizing n with
  | zero => rfl
  | succ l ih => simp [cidrMask, ih]

theorem IP.mask_of_length {ip : IP} {m : Bytes} (h : ip.length = m.length) :
    ip.mask m = List.zipWith (· &&& ·) ip m := by
  have h1 : ¬(m.length = 16 ∧ ip.length = 4 ∧ (m.take 12).all (· == 0xff)) := by omega
  have h2 : ¬(m.length = 4 ∧ ip.length = 16 ∧ ip.take 12 = v4InV6Prefix) := by omega
  simp only [IP.mask, if_neg h1, if_neg h2, if_pos h]

/-- A mask of four bytes is taken to the four bytes of an IPv4 address in its other form. -/
theorem IP.mask_append {b m : Bytes} (hb : b.length = 4) (hm : m.length = 4) :
    IP.mask (v4InV6Prefix ++ b) m = List.zipWith (· &&& ·) b m := by
  have hl : (v4InV6Prefix ++ b).length = 16 := by rw [List.length_append, length_v4InV6Prefix, hb]
  have h1 : ¬(m.length = 16 ∧ (v4InV6Prefix ++ b).length = 4 ∧ (m.take 12).all (· == 0xff)) := by
    omega
  have h2 : m.length = 4 ∧ (v4InV6Prefix ++ b).length = 16 ∧
      (v4InV6Prefix ++ b).take 12 = v4InV6Prefix :=
    ⟨hm, hl, List.take_left' length_v4InV6Prefix⟩
  simp only [IP.mask, if_neg h1, if_pos h2, List.drop_left' length_v4InV6Prefix]
  rw [if_pos (by omega)]

/-- A mask leaves the bytes it covers whole. -/
theorem take_zipWith_cidrMask (b : Bytes) {n k : ℕ} (h : 8 * k ≤ n) :
    (List.zipWith (· &&& ·) b (cidrMask n b.length)).take k = b.take k := by
  induction b generalizing n k with
  | nil => simp
  | cons x b ih =>
    cases k with
    | zero => simp
    | succ k =>
      have hff : x &&& maskByte n = x := by
        rw [maskByte, if_pos (by omega), ← UInt8.toNat_inj]
        simp [UInt8.toNat_and, Nat.and_two_pow_sub_one_eq_mod x.toNat 8]
      rw [List.length_cons, cidrMask, List.zipWith_cons_cons, List.take_succ_cons,
        List.take_succ_cons, hff, ih (by omega)]

/-! ## The number of a masked address -/

theorem foldl_beNat (b : Bytes) (acc : ℕ) :
    b.foldl (fun acc x => acc * 256 + x.toNat) acc = acc * 256 ^ b.length + beNat b := by
  induction b generalizing acc with
  | nil => simp [beNat]
  | cons x b ih =>
    have h0 : beNat (x :: b) = (0 * 256 + x.toNat) * 256 ^ b.length + beNat b := by
      rw [← ih, beNat, List.foldl_cons]
    rw [List.foldl_cons, ih, h0, List.length_cons, pow_succ]
    ring

theorem beNat_cons (x : UInt8) (b : Bytes) :
    beNat (x :: b) = x.toNat * 256 ^ b.length + beNat b := by
  rw [beNat, List.foldl_cons, foldl_beNat]
  simp

theorem beNat_append (a b : Bytes) : beNat (a ++ b) = beNat a * 256 ^ b.length + beNat b := by
  rw [beNat, List.foldl_append, ← beNat, foldl_beNat]

theorem beNat_lt (b : Bytes) : beNat b < 256 ^ b.length := by
  induction b with
  | nil => simp [beNat]
  | cons x b ih =>
    have hx := x.toNat_lt
    rw [beNat_cons, List.length_cons, pow_succ]
    nlinarith

theorem beNat_bytes32 (x : UInt32) : beNat (bytes32 x) = x.toNat := by
  have h := congrArg UInt32.toNat (be32_bytes32 x)
  rw [be32, UInt32.toNat_ofNat'] at h
  have hlt := beNat_lt (bytes32 x)
  rw [length_bytes32] at hlt
  omega

theorem bytes32_ne_nil (x : UInt32) : bytes32 x ≠ [] := by simp [bytes32]

theorem to4_toIP_v4 (x : UInt32) : (IPKey.v4 x).toIP.to4 = bytes32 x :=
  IP.to4_append (length_bytes32 x)

theorem beNat_injective {a b : Bytes} (hl : a.length = b.length) (h : beNat a = beNat b) :
    a = b := by
  induction a generalizing b with
  | nil => exact (List.length_eq_zero_iff.mp hl.symm).symm
  | cons x a ih =>
    cases b with
    | nil => simp at hl
    | cons y b =>
      have hl' : a.length = b.length := by simpa using hl
      rw [beNat_cons, beNat_cons, hl'] at h
      have ha := beNat_lt a
      have hb := beNat_lt b
      rw [hl'] at ha
      have hxy : x.toNat = y.toNat := by
        have := congrArg (· / 256 ^ b.length) h
        simpa [Nat.add_div_of_dvd_right, Nat.mul_div_cancel, Nat.div_eq_of_lt ha,
          Nat.div_eq_of_lt hb] using this
      rw [hxy] at h
      rw [UInt8.toNat_inj.mp hxy, ih hl' (by omega)]

theorem toNat_and_maskByte (x : UInt8) (n : ℕ) :
    (x &&& maskByte n).toNat = x.toNat / 2 ^ (8 - n) * 2 ^ (8 - n) := by
  have key : ∀ n < 9, ∀ y < 256,
      (UInt8.ofNat y &&& maskByte n).toNat = y / 2 ^ (8 - n) * 2 ^ (8 - n) := by
    decide +kernel
  have hx := key (min n 8) (by omega) x.toNat x.toNat_lt
  rw [UInt8.ofNat_toNat] at hx
  rcases Nat.lt_or_ge n 8 with h | h
  · rwa [min_eq_left h.le] at hx
  · rw [min_eq_right h] at hx
    rw [show 8 - n = 8 - 8 by omega, show maskByte n = maskByte 8 by simp [maskByte, h]]
    exact hx

/-- **A mask clears the bits of the host.** -/
theorem beNat_zipWith_cidrMask (b : Bytes) (n : ℕ) (h : n ≤ 8 * b.length) :
    beNat (List.zipWith (· &&& ·) b (cidrMask n b.length)) =
      beNat b / 2 ^ (8 * b.length - n) * 2 ^ (8 * b.length - n) := by
  induction b generalizing n with
  | nil => simp [beNat, cidrMask]
  | cons x b ih =>
    have hlt := beNat_lt b
    have h256 : 256 ^ b.length = 2 ^ (8 * b.length) := by rw [pow_mul]; norm_num
    have hih := ih (n - 8) (by simp at h; omega)
    rw [List.length_cons, cidrMask, List.zipWith_cons_cons, beNat_cons, beNat_cons, hih,
      toNat_and_maskByte]
    simp only [List.length_zipWith, length_cidrMask, min_self]
    rw [h256] at hlt ⊢
    rcases Nat.lt_or_ge n 8 with hn | hn
    · -- the mask ends in this byte, and the rest is cleared
      have e0 : n - 8 = 0 := by omega
      have e : 8 * (b.length + 1) - n = 8 * b.length + (8 - n) := by omega
      rw [e0, Nat.sub_zero, Nat.div_eq_of_lt hlt, zero_mul, add_zero, e, pow_add,
        ← Nat.div_div_eq_div_mul, Nat.mul_comm x.toNat, Nat.mul_add_div (by positivity),
        Nat.div_eq_of_lt hlt, add_zero]
      ring
    · -- this byte is kept whole, and the rest has the bits left
      have e8 : 8 - n = 0 := by omega
      have e : 8 * (b.length + 1) - n = 8 * b.length - (n - 8) := by omega
      obtain ⟨k, hk⟩ : ∃ k, 8 * b.length = (8 * b.length - (n - 8)) + k :=
        ⟨n - 8, by simp at h; omega⟩
      rw [e, e8, pow_zero, Nat.div_one, mul_one]
      set m := 8 * b.length - (n - 8)
      have h2 : x.toNat * 2 ^ (8 * b.length) = 2 ^ m * (x.toNat * 2 ^ k) := by
        rw [hk, pow_add]
        ring
      rw [h2, Nat.mul_add_div (by positivity)]
      ring

/-! ## Networks -/

/-- `net.IPNet`. -/
structure IPNet where
  ip : IP
  mask : Bytes
  deriving DecidableEq

namespace IPNet

/-- `networkNumberAndMask`. -/
def numberAndMask (n : IPNet) : Bytes × Bytes :=
  let ip := if n.ip.to4 = [] then n.ip else n.ip.to4
  if n.ip.to4 = [] ∧ n.ip.length ≠ 16 then ([], [])
  else if n.mask.length = 4 then if ip.length = 4 then (ip, n.mask) else ([], [])
  else if n.mask.length = 16 then (ip, if ip.length = 4 then n.mask.drop 12 else n.mask)
  else ([], [])

/-- `IPNet.Contains`. -/
def contains (n : IPNet) (ip : IP) : Bool :=
  let nm := n.numberAndMask
  let x := if ip.to4 = [] then ip else ip.to4
  x.length = nm.1.length ∧ List.zipWith (· &&& ·) nm.1 nm.2 = List.zipWith (· &&& ·) x nm.2

end IPNet

/-- `net.ParseCIDR`, without the address it returns along with the network. -/
def parseCIDR (s : Bytes) : Option IPNet := do
  let addr : IP ← parseAddr (s.takeWhile (· != chr '/'))
  let n ← readNumeral 10 ((s.dropWhile (· != chr '/')).drop 1)
  if n ≤ 8 * addr.length then
    some ⟨addr.to16.mask (cidrMask n addr.length), cidrMask n addr.length⟩
  else none

/-- The text of a network, `fmt.Sprintf("%s/%d", ip, n)`. -/
def cidrText (ip : IP) (n : ℕ) : Bytes := ip.string ++ chr '/' :: numeral 10 n

/-- The network read back from its text. -/
theorem parseCIDR_cidrText {ip : IP} (h : ip.WellFormed) (n : ℕ) :
    parseCIDR (cidrText ip n) =
      let addr : IP := if ip.to4 = [] then ip else ip.to4
      if n ≤ 8 * addr.length then
        some ⟨addr.to16.mask (cidrMask n addr.length), cidrMask n addr.length⟩
      else none := by
  have hs : chr '/' ∉ ip.string := notMem_string (by decide) h
  have hall : ∀ c ∈ ip.string, (c != chr '/') = true := fun c hc => by
    simp only [bne_iff_ne, ne_eq]
    rintro rfl
    exact hs hc
  have htake : (cidrText ip n).takeWhile (· != chr '/') = ip.string := by
    rw [cidrText, List.takeWhile_append_of_pos hall, List.takeWhile_cons_of_neg (by simp),
      List.append_nil]
  have hdrop : ((cidrText ip n).dropWhile (· != chr '/')).drop 1 = numeral 10 n := by
    rw [cidrText, List.dropWhile_append_of_pos hall, List.dropWhile_cons_of_neg (by simp)]
    rfl
  rw [parseCIDR, htake, hdrop, parseAddr_string h, readNumeral_numeral (by omega) (by omega)]
  rfl

/-! ## Membership -/

theorem zipWith_and_idem (a m : Bytes) :
    List.zipWith (· &&& ·) (List.zipWith (· &&& ·) a m) m = List.zipWith (· &&& ·) a m := by
  induction a generalizing m with
  | nil => simp
  | cons x a ih =>
    cases m with
    | nil => simp
    | cons y m => simp [ih, UInt8.and_assoc]

/-- Masked byte strings agree when the numbers agree above the host bits. -/
theorem zipWith_cidrMask_eq_iff {a x : Bytes} (hl : x.length = a.length) {n : ℕ}
    (hn : n ≤ 8 * a.length) :
    List.zipWith (· &&& ·) a (cidrMask n a.length) =
        List.zipWith (· &&& ·) x (cidrMask n a.length) ↔
      beNat x / 2 ^ (8 * a.length - n) = beNat a / 2 ^ (8 * a.length - n) := by
  have ha := beNat_zipWith_cidrMask a n hn
  have hx := beNat_zipWith_cidrMask x n (by omega)
  rw [hl] at hx
  constructor
  · intro e
    rw [e, hx] at ha
    exact Nat.eq_of_mul_eq_mul_right (by positivity) ha
  · intro e
    rw [e] at hx
    exact beNat_injective (by simp [hl]) (ha.trans hx.symm)

/-- The bytes `Contains` compares: the four of an IPv4 address in either form, and those of the
slice otherwise. -/
def IP.number (ip : IP) : Bytes := if ip.to4 = [] then ip else ip.to4

/-- A network whose number is a masked address holds the addresses with the same quotient. -/
theorem IPNet.contains_iff_of_number {net : IPNet} {addr : IP} {n l : ℕ} (ha : addr.length = l)
    (hnum : net.numberAndMask = (List.zipWith (· &&& ·) addr (cidrMask n l), cidrMask n l))
    (hn : n ≤ 8 * l) (ip : IP) :
    net.contains ip ↔ ip.number.length = l ∧
      beNat ip.number / 2 ^ (8 * l - n) = beNat addr / 2 ^ (8 * l - n) := by
  subst ha
  have hlen : (List.zipWith (· &&& ·) addr (cidrMask n addr.length)).length = addr.length := by simp
  simp only [IPNet.contains, hnum, hlen, decide_eq_true_eq]
  rw [show (if ip.to4 = [] then ip else ip.to4) = ip.number from rfl, zipWith_and_idem]
  exact and_congr_right fun hl => zipWith_cidrMask_eq_iff hl hn

/-- The network of an IPv4 address, as `ParseCIDR` builds it. -/
theorem IPNet.contains_iff_of_length_four {addr : IP} (ha : addr.length = 4) {n : ℕ}
    (hn : n ≤ 32) (ip : IP) :
    (IPNet.mk (addr.to16.mask (cidrMask n 4)) (cidrMask n 4)).contains ip ↔
      ip.number.length = 4 ∧
        beNat ip.number / 2 ^ (32 - n) = beNat addr / 2 ^ (32 - n) := by
  have hmask : addr.to16.mask (cidrMask n 4) = List.zipWith (· &&& ·) addr (cidrMask n 4) := by
    rw [IP.to16_of_length_four ha, IP.mask_append ha (by simp)]
  have hlen : (List.zipWith (· &&& ·) addr (cidrMask n 4)).length = 4 := by simp [ha]
  have hto4 : IP.to4 (List.zipWith (· &&& ·) addr (cidrMask n 4)) =
      List.zipWith (· &&& ·) addr (cidrMask n 4) := IP.to4_of_length hlen
  have hne : List.zipWith (· &&& ·) addr (cidrMask n 4) ≠ [] := fun e => by simp [e] at hlen
  have hnum : IPNet.numberAndMask ⟨addr.to16.mask (cidrMask n 4), cidrMask n 4⟩ =
      (List.zipWith (· &&& ·) addr (cidrMask n 4), cidrMask n 4) := by
    simp only [IPNet.numberAndMask, hmask, hto4]
    rw [if_neg (fun e => hne e.1), if_neg hne, if_pos (by simp), if_pos hlen]
  exact IPNet.contains_iff_of_number ha hnum hn ip

/-- The network of an IPv6 address, as `ParseCIDR` builds it, when the mask covers the part of an
address that tells the families apart. -/
theorem IPNet.contains_iff_of_length_sixteen {addr : IP} (ha : addr.length = 16)
    (h4 : addr.to4 = []) {n : ℕ} (hn : n ≤ 128) (hm : 96 ≤ n) (ip : IP) :
    (IPNet.mk (addr.to16.mask (cidrMask n 16)) (cidrMask n 16)).contains ip ↔
      ip.number.length = 16 ∧
        beNat ip.number / 2 ^ (128 - n) = beNat addr / 2 ^ (128 - n) := by
  have hmask : addr.to16.mask (cidrMask n 16) = List.zipWith (· &&& ·) addr (cidrMask n 16) := by
    rw [IP.to16_of_length ha, IP.mask_of_length (by simp [ha])]
  have hlen : (List.zipWith (· &&& ·) addr (cidrMask n 16)).length = 16 := by simp [ha]
  have htake : (List.zipWith (· &&& ·) addr (cidrMask n 16)).take 12 = addr.take 12 := by
    have := take_zipWith_cidrMask addr (n := n) (k := 12) (by omega)
    rwa [ha] at this
  have hto4 : IP.to4 (List.zipWith (· &&& ·) addr (cidrMask n 16)) = [] := by
    unfold IP.to4 at h4 ⊢
    rw [if_neg (by omega), htake, hlen]
    rw [if_neg (by omega), ha] at h4
    split_ifs at h4 ⊢ with h
    · have := congrArg List.length h4
      simp [ha] at this
    · rfl
  have hnum : IPNet.numberAndMask ⟨addr.to16.mask (cidrMask n 16), cidrMask n 16⟩ =
      (List.zipWith (· &&& ·) addr (cidrMask n 16), cidrMask n 16) := by
    simp only [IPNet.numberAndMask, hmask, hto4, length_cidrMask, hlen]
    rw [if_neg (by omega), if_neg (by omega), if_pos trivial, if_pos trivial,
      if_neg (by rw [hlen]; omega)]
  exact IPNet.contains_iff_of_number ha hnum hn ip

end NextPath.Net
