import Mathlib.Data.List.Range
import Mathlib.Data.Nat.ModEq
import Mathlib.Tactic.Ring
import Mathlib.Tactic.Linarith

/-!
# Aligned ranges and probing

A range of `size` numbers whose start is a multiple of a block that has room for it stays inside the
block, and so below any bound that is a multiple of the block (`add_lt_of_dvd`, `add_div_of_lt`); on
32-bit words the sum of the start and an offset does not wrap (`toNat_add_mod`), nor does it leave
the block when it is moved off the ends of its last byte (`exists_offset_inward`).

`probe` looks for a slot in such a range: it tries `n` slots from a given one on, round the ring,
and takes the first that will do.
-/

namespace NextPath.Probing

/-! ## Blocks -/

/-- What an offset inside the block does to a start at the beginning of the block. -/
theorem add_div_of_lt {start k block : ℕ} (hstart : block ∣ start) (hk : k < block) :
    (start + k) / block = start / block := by
  obtain ⟨q, rfl⟩ := hstart
  rw [Nat.mul_add_div (by omega), Nat.div_eq_of_lt hk, Nat.add_zero,
    Nat.mul_div_cancel_left _ (by omega)]

theorem add_lt_of_dvd {start k block bound : ℕ} (hstart : block ∣ start) (hbound : block ∣ bound)
    (hlt : start < bound) (hk : k < block) : start + k < bound := by
  obtain ⟨q, rfl⟩ := hstart
  obtain ⟨n, rfl⟩ := hbound
  have hq : q < n := Nat.lt_of_mul_lt_mul_left hlt
  calc block * q + k < block * q + block := by omega
    _ = block * (q + 1) := by ring
    _ ≤ block * n := Nat.mul_le_mul_left block hq

/-- An offset below a size that fits the block keeps the sum in the block of the start. -/
theorem toNat_add_mod {start size : UInt32} {j : ℕ} (hj : j ≤ 32)
    (hstart : 2 ^ j ∣ start.toNat) (hsize : size ≠ 0) (hle : size.toNat ≤ 2 ^ j) (off : UInt32) :
    (start + off % size).toNat = start.toNat + off.toNat % size.toNat ∧
      off.toNat % size.toNat < 2 ^ j := by
  have hpos : 0 < size.toNat := Nat.pos_of_ne_zero fun h => hsize (UInt32.toNat_inj.1 h)
  have hk : off.toNat % size.toNat < 2 ^ j := (Nat.mod_lt _ hpos).trans_le hle
  have hlt := add_lt_of_dvd hstart (Nat.pow_dvd_pow 2 hj) start.toNat_lt hk
  refine ⟨?_, hk⟩
  rw [UInt32.toNat_add, UInt32.toNat_mod, Nat.mod_eq_of_lt hlt]

theorem mod_256_eq_iff (val b : UInt32) : val % 256 = b ↔ val.toNat % 256 = b.toNat := by
  rw [← UInt32.toNat_inj, UInt32.toNat_mod]
  rfl

/-- **Moving a word off the ends of its byte keeps it in the block.** The block is even, so that a
word that ends in 0 is not its last, nor one that ends in 255 its first. -/
theorem exists_offset_inward {start val : UInt32} {j k : ℕ} (hone : 1 ≤ j) (hj : j ≤ 32)
    (hstart : 2 ^ j ∣ start.toNat) (hk : k < 2 ^ j) (hval : val.toNat = start.toNat + k) :
    ∃ k' < 2 ^ j,
      (if val % 256 = 0 then val + 1 else if val % 256 = 255 then val - 1 else val).toNat =
        start.toNat + k' ∧
      (start.toNat + k') % 256 ≠ 0 ∧ (start.toNat + k') % 256 ≠ 255 := by
  have heven : 2 ∣ 2 ^ j := dvd_pow_self 2 (by omega)
  have hstart' := heven.trans hstart
  split_ifs with h0 h255
  · have h0' : val.toNat % 256 = 0 := (mod_256_eq_iff val 0).1 h0
    have hnext : k + 1 < 2 ^ j := lt_of_le_of_ne hk fun he => by omega
    have hlt := add_lt_of_dvd hstart (Nat.pow_dvd_pow 2 hj) start.toNat_lt hnext
    refine ⟨k + 1, hnext, ?_, by omega⟩
    rw [UInt32.toNat_add, UInt32.toNat_one]
    omega
  · have h255' : val.toNat % 256 = 255 := (mod_256_eq_iff val 255).1 h255
    have hle : (1 : UInt32) ≤ val := by
      rw [UInt32.le_iff_toNat_le, UInt32.toNat_one]
      omega
    refine ⟨k - 1, by omega, ?_, by omega⟩
    rw [UInt32.toNat_sub_of_le _ _ hle, UInt32.toNat_one]
    omega
  · have h0' : val.toNat % 256 ≠ 0 := fun he => h0 ((mod_256_eq_iff val 0).2 he)
    have h255' : val.toNat % 256 ≠ 255 := fun he => h255 ((mod_256_eq_iff val 255).2 he)
    exact ⟨k, hk, hval, by omega⟩

/-! ## Probing -/

variable {size start n k : ℕ} {ok : ℕ → Bool}

/-- The first slot that will do, of the `n` slots from `start` on. -/
def probe (size start n : ℕ) (ok : ℕ → Bool) : Option ℕ :=
  ((List.range n).find? fun i => ok ((start + i) % size)).map fun i => (start + i) % size

/-- A search that fails at the slots that will not do. -/
theorem findSome?_eq_probe {α : Type} {f : ℕ → Option α} {g : ℕ → α}
    (h : ∀ i < n, f i = if ok ((start + i) % size) = true then some (g ((start + i) % size))
      else none) :
    (List.range n).findSome? f = (probe size start n ok).map g := by
  have hlist (l : List ℕ) (hl : ∀ i ∈ l, i < n) : l.findSome? f =
      ((l.find? fun i => ok ((start + i) % size)).map fun i => (start + i) % size).map g := by
    induction l with
    | nil => rfl
    | cons i l ih =>
      rw [List.findSome?_cons, h i (hl i List.mem_cons_self), List.find?_cons]
      cases ok ((start + i) % size) with
      | true => rfl
      | false => exact ih fun i' hi' => hl i' (List.mem_cons_of_mem i hi')
  exact hlist _ fun i hi => List.mem_range.1 hi

theorem probe_eq_none_iff :
    probe size start n ok = none ↔ ∀ i < n, ok ((start + i) % size) = false := by
  rw [probe, Option.map_eq_none_iff, List.find?_eq_none]
  simp

/-- The slot that is found is one that will do, and those that were tried before it will not. -/
theorem exists_of_probe_eq_some (h : probe size start n ok = some k) :
    ∃ i < n, k = (start + i) % size ∧ ok k = true ∧
      ∀ i' < i, ok ((start + i') % size) = false := by
  obtain ⟨i, hi, rfl⟩ := Option.map_eq_some_iff.1 h
  obtain ⟨hok, hmem, hbefore⟩ := List.find?_range_eq_some.1 hi
  exact ⟨i, List.mem_range.1 hmem, rfl, hok, fun i' hi' => by simpa using hbefore i' hi'⟩

/-- The slot the probing starts from is taken if it will do. -/
theorem probe_of_start (hn : 0 < n) (hstart : start < size) (hok : ok start = true) :
    probe size start n ok = some start := by
  obtain ⟨n, rfl⟩ := Nat.exists_eq_add_of_lt hn
  rw [probe, Nat.zero_add, List.range_succ_eq_map, List.find?_cons_of_pos]
  · simp [Nat.mod_eq_of_lt hstart]
  · simpa [Nat.mod_eq_of_lt hstart] using hok

/-- As many attempts as there are slots reach every slot. -/
theorem exists_attempt (hn : size ≤ n) (hstart : start < size) (hk : k < size) :
    ∃ i < n, (start + i) % size = k := by
  by_cases hle : start ≤ k
  · refine ⟨k - start, by omega, ?_⟩
    rw [Nat.add_sub_cancel' hle, Nat.mod_eq_of_lt hk]
  · refine ⟨size + k - start, by omega, ?_⟩
    rw [Nat.add_sub_cancel' (by omega), Nat.add_mod_left, Nat.mod_eq_of_lt hk]

end NextPath.Probing
