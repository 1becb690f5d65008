import Mathlib.Data.Set.Finite.List
import NextPath.Foundations.Laminar
import NextPath.Parser.Routes

/-!
# Networks as blocks of addresses

A network is a block of addresses, those that agree with it in its first bits, and two networks are
nested or disjoint. So the covers of `Foundations.Laminar` say what is assumed of the sets of
addresses that come from outside.

* `Prefix.mem_addresses`: the addresses of a network;
* `isLaminar_addresses`: networks are nested or disjoint;
* `IPSets.Exact`, `IPSets.Minimal`: what is assumed of the sets, and `exists_ipsets`, that there are
  such sets;
* `wellFormed_of_mem_parseIPFile`: the networks that are read from a file are valid.
-/

namespace NextPath.Parser

open Net Laminar

/-! ## Blocks of addresses -/

/-- Two addresses of one family agree in their first bits. -/
def SameBlock (bits : ℕ) (a b : Bytes) : Prop :=
  a.length = b.length ∧
    beNat a / 2 ^ (8 * b.length - bits) = beNat b / 2 ^ (8 * b.length - bits)

theorem SameBlock.refl (bits : ℕ) (a : Bytes) : SameBlock bits a a := ⟨rfl, rfl⟩

theorem SameBlock.symm {bits : ℕ} {a b : Bytes} (h : SameBlock bits a b) : SameBlock bits b a :=
  ⟨h.1.symm, by rw [h.1]; exact h.2.symm⟩

theorem SameBlock.trans {bits : ℕ} {a b c : Bytes} (h : SameBlock bits a b)
    (h' : SameBlock bits b c) : SameBlock bits a c := by
  refine ⟨h.1.trans h'.1, ?_⟩
  have hab := h.2
  rw [h'.1] at hab
  exact hab.trans h'.2

/-- Fewer bits make larger blocks. -/
theorem SameBlock.mono {k l : ℕ} {a b : Bytes} (h : SameBlock k a b) (hl : l ≤ k) :
    SameBlock l a b := by
  refine ⟨h.1, ?_⟩
  obtain ⟨d, hd⟩ : ∃ d, 8 * b.length - l = (8 * b.length - k) + d :=
    Nat.exists_eq_add_of_le (by omega)
  rw [hd, pow_add, ← Nat.div_div_eq_div_mul, ← Nat.div_div_eq_div_mul, h.2]

theorem exists_beNat_eq (l : ℕ) : ∀ n < 256 ^ l, ∃ b : Bytes, b.length = l ∧ beNat b = n := by
  induction l with
  | zero =>
    intro n hn
    exact ⟨[], rfl, by simp at hn; simp [beNat, hn]⟩
  | succ l ih =>
    intro n hn
    obtain ⟨b, hb, hbn⟩ := ih (n % 256 ^ l) (Nat.mod_lt _ (by positivity))
    have hx : n / 256 ^ l < 256 := by
      rw [Nat.div_lt_iff_lt_mul (by positivity)]
      rwa [pow_succ, mul_comm] at hn
    refine ⟨UInt8.ofNat (n / 256 ^ l) :: b, by simp [hb], ?_⟩
    rw [beNat_cons, hbn, hb, UInt8.toNat_ofNat', Nat.mod_eq_of_lt hx]
    exact Nat.div_add_mod' n (256 ^ l)

/-- A block that is no single address has addresses that differ in the next bit. -/
theorem exists_sameBlock_not {k : ℕ} {b : Bytes} (hk : k < 8 * b.length) :
    ∃ b', SameBlock k b' b ∧ ¬ SameBlock (k + 1) b' b := by
  set m := 8 * b.length - (k + 1) with hm
  have hm' : 8 * b.length - k = m + 1 := by omega
  have hlt := beNat_lt b
  have h256 : 256 ^ b.length = 2 ^ (k + 1) * 2 ^ m := by
    rw [← pow_add, show k + 1 + m = 8 * b.length by omega, pow_mul]
    norm_num
  set q := beNat b / 2 ^ m with hq
  have hqlt : q < 2 ^ (k + 1) := by
    rw [hq, Nat.div_lt_iff_lt_mul (by positivity), ← h256]
    exact hlt
  -- the last bit of the quotient is changed
  obtain ⟨q', hq', hne, hhalf⟩ : ∃ q' < 2 ^ (k + 1), q' ≠ q ∧ q' / 2 = q / 2 := by
    have heven : 2 ^ (k + 1) = 2 * 2 ^ k := by rw [pow_succ, mul_comm]
    rcases Nat.even_or_odd' q with ⟨c, hc | hc⟩
    · exact ⟨q + 1, by omega, by omega, by omega⟩
    · exact ⟨q - 1, by omega, by omega, by omega⟩
  have hdiv : q' * 2 ^ m / 2 ^ m = q' := Nat.mul_div_cancel _ (by positivity)
  obtain ⟨b', hlen, hb'⟩ := exists_beNat_eq b.length (q' * 2 ^ m) (by
    rw [h256]
    exact Nat.mul_lt_mul_of_pos_right hq' (by positivity))
  refine ⟨b', ⟨hlen, ?_⟩, fun h => hne ?_⟩
  · rw [hb', hm', pow_succ, ← Nat.div_div_eq_div_mul, ← Nat.div_div_eq_div_mul, hdiv, hhalf]
  · have := h.2
    rwa [hb', ← hm, hdiv] at this

/-! ## Networks as blocks -/

namespace Prefix

/-- The prefixes of `netip` that are valid. -/
def WellFormed (n : Prefix) : Prop :=
  (n.addr.length = 4 ∨ n.addr.length = 16) ∧ n.bits ≤ 8 * n.addr.length

instance (n : Prefix) : Decidable n.WellFormed := inferInstanceAs (Decidable (_ ∧ _))

/-- `Prefix.Contains`. -/
def contains (n : Prefix) (ip : Bytes) : Bool :=
  ip.length = n.addr.length ∧
    List.zipWith (· &&& ·) n.addr (cidrMask n.bits n.addr.length) =
      List.zipWith (· &&& ·) ip (cidrMask n.bits n.addr.length)

/-- The addresses of a network. -/
def addresses (n : Prefix) : Set Bytes := {ip | n.contains ip = true}

variable {n : Prefix}

theorem mem_addresses (h : n.WellFormed) {ip : Bytes} :
    ip ∈ n.addresses ↔ SameBlock n.bits ip n.addr := by
  change n.contains ip = true ↔ _
  rw [contains, decide_eq_true_eq]
  exact and_congr_right fun hl => zipWith_cidrMask_eq_iff hl h.2

theorem addr_mem_addresses (h : n.WellFormed) : n.addr ∈ n.addresses :=
  (mem_addresses h).2 (.refl _ _)

theorem WellFormed.shorten (h : n.WellFormed) {bits : ℕ} (hbits : bits ≤ n.bits) :
    (n.shorten bits).WellFormed := by
  have hlen : (n.shorten bits).addr.length = n.addr.length := by simp [Prefix.shorten]
  exact ⟨by rw [hlen]; exact h.1, by rw [hlen]; exact hbits.trans h.2⟩

theorem mem_addresses_shorten (h : n.WellFormed) {bits : ℕ} (hbits : bits ≤ n.bits) {ip : Bytes} :
    ip ∈ (n.shorten bits).addresses ↔ SameBlock bits ip n.addr := by
  have hlen : (n.shorten bits).addr.length = n.addr.length := by simp [Prefix.shorten]
  have hblock : SameBlock bits (n.shorten bits).addr n.addr := by
    refine ⟨hlen, ?_⟩
    change beNat (List.zipWith (· &&& ·) n.addr (cidrMask bits n.addr.length)) / _ = _
    rw [beNat_zipWith_cidrMask _ _ (hbits.trans h.2), Nat.mul_div_cancel _ (by positivity)]
  rw [mem_addresses (h.shorten hbits)]
  exact ⟨fun hip => hip.trans hblock, fun hip => hip.trans hblock.symm⟩

/-- A network inside another one is not the longer of the two prefixes. -/
theorem bits_le_of_subset {m : Prefix} (hn : n.WellFormed) (hm : m.WellFormed)
    (hsub : n.addresses ⊆ m.addresses) : m.bits ≤ n.bits := by
  by_contra hlt
  have haddr := (mem_addresses hm).1 (hsub (addr_mem_addresses hn))
  have hlen : n.bits < 8 * n.addr.length := by
    have := hm.2
    rw [← haddr.1] at this
    omega
  obtain ⟨ip, hin, hout⟩ := exists_sameBlock_not hlen
  have hip := (mem_addresses hm).1 (hsub ((mem_addresses hn).2 hin))
  exact hout ((hip.trans haddr.symm).mono (by omega))

end Prefix

/-- **Networks are nested or disjoint.** -/
theorem isLaminar_addresses : IsLaminar Prefix.addresses {n | n.WellFormed} where
  nonempty n hn := ⟨n.addr, Prefix.addr_mem_addresses hn⟩
  nested n hn m hm ip hipn hipm := by
    have key {i j : Prefix} (hi : i.WellFormed) (hj : j.WellFormed) (hipi : ip ∈ i.addresses)
        (hipj : ip ∈ j.addresses) (hle : j.bits ≤ i.bits) : i.addresses ⊆ j.addresses := by
      intro x hx
      rw [Prefix.mem_addresses hi] at hx hipi
      rw [Prefix.mem_addresses hj] at hipj ⊢
      exact ((hx.trans hipi.symm).mono hle).trans hipj
    rcases le_total m.bits n.bits with hle | hle
    · exact .inl (key hn hm hipn hipm hle)
    · exact .inr (key hm hn hipm hipn hle)

/-- The addresses of a list of networks. -/
def covered (nets : List Prefix) : Set Bytes := span Prefix.addresses nets

@[simp] theorem mem_covered {nets : List Prefix} {ip : Bytes} :
    ip ∈ covered nets ↔ ∃ n ∈ nets, ip ∈ n.addresses := Iff.rfl

theorem covered_nil : covered [] = ∅ := by
  ext ip
  simp

/-! ## The sets of addresses -/

namespace IPSets

variable (ipset : IPSets)

/-- `IPSetBuilder` computes unions and differences, and `Prefixes` gives disjoint networks that make
up the set. -/
def Exact : Prop :=
  ∀ inc exc : List Prefix, (∀ n ∈ inc ++ exc, n.WellFormed) →
    Cover Prefix.addresses {n | n.WellFormed} (covered inc \ covered exc) (ipset inc exc)

/-- `collapseIPNets` gives disjoint networks that make up the union. -/
def Collapses : Prop :=
  ∀ nets : List Prefix, (∀ n ∈ nets, n.WellFormed) →
    Cover Prefix.addresses {n | n.WellFormed} (covered nets) (collapseIPNets ipset nets)

/-- `collapseIPNets` gives as few disjoint networks as make up the union. -/
def Minimal : Prop :=
  ∀ nets : List Prefix, (∀ n ∈ nets, n.WellFormed) →
    MinimalCover Prefix.addresses {n | n.WellFormed} (covered nets) (collapseIPNets ipset nets)

variable {ipset}

theorem Exact.collapses (h : ipset.Exact) : ipset.Collapses := fun nets hnets => by
  have hcover := h nets [] (by simpa using hnets)
  rwa [covered_nil, Set.sdiff_empty] at hcover

theorem Minimal.collapses (h : ipset.Minimal) : ipset.Collapses := fun nets hnets =>
  (h nets hnets).toCover

end IPSets

/-- The network of one address. -/
def Prefix.single (ip : Bytes) : Prefix := ⟨ip, 8 * ip.length⟩

theorem mem_addresses_single {ip ip' : Bytes} (h : (Prefix.single ip).WellFormed) :
    ip' ∈ (Prefix.single ip).addresses ↔ ip' = ip := by
  rw [Prefix.mem_addresses h]
  constructor
  · rintro ⟨hlen, hdiv⟩
    change beNat ip' / 2 ^ (8 * ip.length - 8 * ip.length) =
      beNat ip / 2 ^ (8 * ip.length - 8 * ip.length) at hdiv
    rw [Nat.sub_self, pow_zero, Nat.div_one, Nat.div_one] at hdiv
    exact beNat_injective hlen hdiv
  · rintro rfl
    exact .refl _ _

/-- A set of addresses is covered by networks of one address each, as there are finitely many. -/
theorem exists_cover {s : Set Bytes} (hs : ∀ ip ∈ s, ip.length = 4 ∨ ip.length = 16) :
    ∃ l, Cover Prefix.addresses {n | n.WellFormed} s l := by
  have hbyte : Finite UInt8 := Finite.of_injective UInt8.toFin fun _ _ h => UInt8.toFin_inj.1 h
  have hfin : s.Finite := ((List.finite_length_eq UInt8 4).union
    (List.finite_length_eq UInt8 16)).subset fun ip hip => hs ip hip
  have hmem {ip : Bytes} : ip ∈ hfin.toFinset.toList ↔ ip ∈ s := by simp
  have hwf {ip : Bytes} (hip : ip ∈ s) : (Prefix.single ip).WellFormed := ⟨hs ip hip, le_rfl⟩
  refine ⟨hfin.toFinset.toList.map Prefix.single, ?_, ?_, ?_⟩
  · simp only [List.forall_mem_map, hmem]
    exact fun ip hip => hwf hip
  · ext ip
    simp only [mem_span, List.mem_map, exists_exists_and_eq_and, hmem]
    constructor
    · rintro ⟨ip', hip', hin⟩
      rwa [(mem_addresses_single (hwf hip')).1 hin]
    · exact fun hip => ⟨ip, hip, (mem_addresses_single (hwf hip)).2 rfl⟩
  · rw [List.pairwise_map]
    refine (hfin.toFinset.nodup_toList).imp_of_mem fun {a b} ha hb hne => ?_
    rw [Set.disjoint_left]
    intro ip hipa hipb
    rw [mem_addresses_single (hwf (hmem.1 ha))] at hipa
    rw [mem_addresses_single (hwf (hmem.1 hb))] at hipb
    exact hne (hipa.symm.trans hipb)

theorem length_of_mem_covered {nets : List Prefix} (h : ∀ n ∈ nets, n.WellFormed) {ip : Bytes}
    (hip : ip ∈ covered nets) : ip.length = 4 ∨ ip.length = 16 := by
  obtain ⟨n, hn, hin⟩ := hip
  rw [((Prefix.mem_addresses (h n hn)).1 hin).1]
  exact (h n hn).1

/-- **What is assumed of the sets can be met.** -/
theorem exists_ipsets : ∃ ipset : IPSets, ipset.Exact ∧ ipset.Minimal := by
  classical
  have hex (inc exc : List Prefix) : ∃ l, (∀ n ∈ inc ++ exc, n.WellFormed) →
      MinimalCover Prefix.addresses {n | n.WellFormed} (covered inc \ covered exc) l := by
    by_cases hwf : ∀ n ∈ inc ++ exc, n.WellFormed
    · have hinc : ∀ n ∈ inc, n.WellFormed := fun n hn => hwf n (List.mem_append_left _ hn)
      obtain ⟨l, hl⟩ := exists_cover (s := covered inc \ covered exc) fun ip hip =>
        length_of_mem_covered hinc hip.1
      obtain ⟨l', hl'⟩ := exists_minimalCover hl
      exact ⟨l', fun _ => hl'⟩
    · exact ⟨[], fun h => absurd h hwf⟩
  choose ipset hipset using hex
  have hexact : IPSets.Exact ipset := fun inc exc hwf => (hipset inc exc hwf).toCover
  refine ⟨ipset, hexact, fun nets hnets => ?_⟩
  have hmin := hipset nets [] (by simpa using hnets)
  rwa [covered_nil, Set.sdiff_empty] at hmin

/-! ## Lists that are read -/

theorem length_of_parseIPv4 {s b : Bytes} (h : parseIPv4 s = some b) : b.length = 4 := by
  simp only [parseIPv4] at h
  split at h
  · simp only [bind, Option.bind_eq_some_iff, pure] at h
    obtain ⟨w, -, x, -, y, -, z, -, h⟩ := h
    rw [← Option.some.inj h]
    rfl
  · simp at h

theorem length_ungroups (gs : List ℕ) : (ungroups gs).length = 2 * gs.length := by
  induction gs with
  | nil => rfl
  | cons g gs ih =>
    rw [ungroups, List.flatMap_cons, ← ungroups, List.length_append, ih, List.length_cons]
    change 2 + 2 * gs.length = 2 * (gs.length + 1)
    omega

theorem length_of_parseAddr {s b : Bytes} (h : parseAddr s = some b) :
    b.length = 4 ∨ b.length = 16 := by
  simp only [parseAddr] at h
  split at h
  · simp at h
  · split_ifs at h
    · exact .inl (length_of_parseIPv4 h)
    · right
      simp only [parseIPv6] at h
      split at h
      · simp only [bind, Option.bind_eq_some_iff] at h
        obtain ⟨gs, -, h⟩ := h
        split_ifs at h with hgs
        rw [← Option.some.inj h, length_ungroups, hgs]
      · simp only [bind, Option.bind_eq_some_iff] at h
        obtain ⟨gl, -, gr, -, h⟩ := h
        split_ifs at h with hgs
        rw [← Option.some.inj h, length_ungroups]
        simp only [List.length_append, List.length_replicate]
        omega

/-- **The networks read from a file are valid.** -/
theorem wellFormed_of_mem_parseIPFile {content : Bytes} {n : Prefix}
    (h : n ∈ parseIPFile content) : n.WellFormed := by
  have hparse {s : Bytes} (hs : parsePrefix s = some n) : n.WellFormed := by
    simp only [parsePrefix, bind, Option.bind_eq_some_iff] at hs
    obtain ⟨⟨ip, bitsStr⟩, -, addr, haddr, bits, -, hs⟩ := hs
    split_ifs at hs with hbits
    rw [← Option.some.inj hs]
    exact ⟨length_of_parseAddr haddr, hbits.2⟩
  obtain ⟨text, -, htext⟩ := List.mem_filterMap.1 h
  simp only [parseIPLine] at htext
  split_ifs at htext
  · exact hparse htext
  · exact hparse htext
  · exact hparse htext

end NextPath.Parser
