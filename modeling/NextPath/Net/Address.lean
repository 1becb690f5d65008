import Mathlib.Tactic.IntervalCases
import Mathlib.Order.Lattice
import NextPath.Foundations.Bytes

/-!
# Addresses as byte slices, and the keys they are stored under

`net.IP` is a byte slice of any length: four bytes or sixteen for an address, an IPv4 address
having both forms. `toIPKey` collapses the two forms and is what every map of the pool is keyed
by; a slice of another length has the key of the IPv6 address `::`.

* `toIPKey_toIP`: a key is the key of the address it stands for.
* `toIP_toIPKey`: an address of four or sixteen bytes is recovered, in its sixteen-byte
  form, from its key; so on such addresses the key is the address.
* Keys are ordered as the conflict resolution orders them, by their sixteen bytes.
-/

namespace NextPath.Net

/-- `net.IP`. -/
abbrev IP := Bytes

/-- The first twelve bytes of the sixteen-byte form of an IPv4 address. -/
def v4InV6Prefix : Bytes := [0, 0, 0, 0, 0, 0, 0, 0, 0, 0, 0xff, 0xff]

@[simp] theorem length_v4InV6Prefix : v4InV6Prefix.length = 12 := rfl

namespace IP

/-- `IP.To4`: the four bytes of an IPv4 address in either form, `nil` for anything else. -/
def to4 (ip : IP) : IP :=
  if ip.length = 4 then ip
  else if ip.length = 16 ∧ ip.take 12 = v4InV6Prefix then ip.drop 12
  else []

/-- `IP.To16`: the sixteen-byte form of an address, `nil` for a slice of another length. -/
def to16 (ip : IP) : IP :=
  if ip.length = 4 then v4InV6Prefix ++ ip
  else if ip.length = 16 then ip
  else []

/-- The lengths an address has. -/
def WellFormed (ip : IP) : Prop := ip.length = 4 ∨ ip.length = 16

instance (ip : IP) : Decidable ip.WellFormed := inferInstanceAs (Decidable (_ ∨ _))

/-- `IP.Equal`: an IPv4 address and its sixteen-byte form are equal. -/
def equal (ip x : IP) : Bool :=
  if ip.length = x.length then ip = x
  else if ip.length = 4 ∧ x.length = 16 then x.take 12 = v4InV6Prefix ∧ ip = x.drop 12
  else if ip.length = 16 ∧ x.length = 4 then ip.take 12 = v4InV6Prefix ∧ ip.drop 12 = x
  else false

theorem to4_of_length {ip : IP} (h : ip.length = 4) : to4 ip = ip := by simp [to4, h]

theorem to16_of_length_four {ip : IP} (h : ip.length = 4) : to16 ip = v4InV6Prefix ++ ip := by
  simp [to16, h]

theorem to16_of_length {ip : IP} (h : ip.length = 16) : to16 ip = ip := by simp [to16, h]

theorem length_to4 (ip : IP) : (to4 ip).length = 4 ∨ to4 ip = [] := by
  unfold to4
  split_ifs with h4 h16
  · exact Or.inl h4
  · exact Or.inl (by rw [List.length_drop, h16.1])
  · exact Or.inr rfl

theorem length_to4_of_ne_nil {ip : IP} (h : to4 ip ≠ []) : (to4 ip).length = 4 :=
  (length_to4 ip).resolve_right h

theorem length_to16_or (ip : IP) : (to16 ip).length = 16 ∨ to16 ip = [] := by
  unfold to16
  split_ifs with h4 h16
  · exact Or.inl (by rw [List.length_append, length_v4InV6Prefix, h4])
  · exact Or.inl h16
  · exact Or.inr rfl

theorem length_to16 {ip : IP} (h : ip.WellFormed) : (to16 ip).length = 16 := by
  rcases h with h | h
  · rw [to16_of_length_four h, List.length_append, length_v4InV6Prefix, h]
  · rw [to16_of_length h, h]

@[simp] theorem to4_nil : to4 [] = [] := rfl

/-- The prefix and four bytes have those four bytes as their IPv4 address. -/
theorem to4_append {b : Bytes} (h : b.length = 4) : to4 (v4InV6Prefix ++ b) = b := by
  have hl : (v4InV6Prefix ++ b).length = 16 := by rw [List.length_append, length_v4InV6Prefix, h]
  unfold to4
  rw [if_neg (by omega), if_pos ⟨hl, List.take_left' length_v4InV6Prefix⟩,
    List.drop_left' length_v4InV6Prefix]

/-- An IPv4 address, in either form, is its prefix and its four bytes. -/
theorem to16_eq_of_to4_ne_nil {ip : IP} (h : to4 ip ≠ []) :
    to16 ip = v4InV6Prefix ++ to4 ip := by
  unfold to4 at h ⊢
  split_ifs at h ⊢ with h4 h16
  · exact to16_of_length_four h4
  · rw [to16_of_length h16.1]
    conv_lhs => rw [← List.take_append_drop 12 ip, h16.2]
  · exact absurd rfl h

theorem wellFormed_of_to4_ne_nil {ip : IP} (h : to4 ip ≠ []) : ip.WellFormed := by
  unfold to4 at h
  split_ifs at h with h4 h16
  · exact Or.inl h4
  · exact Or.inr h16.1
  · exact absurd rfl h

theorem wellFormed_of_to16_ne_nil {ip : IP} (h : to16 ip ≠ []) : ip.WellFormed := by
  unfold to16 at h
  split_ifs at h with h4 h16
  · exact Or.inl h4
  · exact Or.inr h16
  · exact absurd rfl h

theorem WellFormed.ne_nil {ip : IP} (h : ip.WellFormed) : ip ≠ [] := by
  rintro rfl
  rcases h with h | h <;> simp at h

/-- An address that is not an IPv4 one has sixteen bytes. -/
theorem WellFormed.length_eq {ip : IP} (h : ip.WellFormed) (h4 : to4 ip = []) :
    ip.length = 16 :=
  h.resolve_left fun hl => by
    rw [to4_of_length hl] at h4
    exact h.ne_nil h4

theorem to4_to16 (ip : IP) (h : ip.WellFormed) : to4 (to16 ip) = to4 ip := by
  rcases h with h | h
  · rw [to16_of_length_four h, to4_append h, to4_of_length h]
  · rw [to16_of_length h]

theorem to16_to16 (ip : IP) (h : ip.WellFormed) : to16 (to16 ip) = to16 ip :=
  to16_of_length (length_to16 h)

end IP

/-! ## Bytes as an integer -/

/-- The number whose big-endian bytes are given. -/
def beNat (b : Bytes) : ℕ := b.foldl (fun acc x => acc * 256 + x.toNat) 0

/-- `binary.BigEndian.Uint32`. -/
def be32 (b : Bytes) : UInt32 := UInt32.ofNat (beNat b)

/-- The four bytes of an integer, `byte(v>>24)` first. -/
def bytes32 (v : UInt32) : Bytes :=
  [(v >>> 24).toUInt8, (v >>> 16).toUInt8, (v >>> 8).toUInt8, v.toUInt8]

@[simp] theorem length_bytes32 (v : UInt32) : (bytes32 v).length = 4 := rfl

theorem toNat_be32 (a b c d : UInt8) :
    (be32 [a, b, c, d]).toNat =
      a.toNat * 2 ^ 24 + b.toNat * 2 ^ 16 + c.toNat * 2 ^ 8 + d.toNat := by
  have ha := a.toNat_lt
  have hb := b.toNat_lt
  have hc := c.toNat_lt
  have hd := d.toNat_lt
  simp only [be32, beNat, List.foldl_cons, List.foldl_nil, UInt32.toNat_ofNat']
  omega

@[simp] theorem be32_bytes32 (v : UInt32) : be32 (bytes32 v) = v := by
  apply UInt32.toNat_inj.mp
  have hv := v.toNat_lt
  rw [bytes32, toNat_be32]
  simp only [UInt32.toNat_toUInt8, UInt32.toNat_shiftRight, Nat.shiftRight_eq_div_pow,
    UInt32.toNat_ofNat, Nat.reducePow, Nat.reduceMod]
  omega

theorem bytes32_be32 {b : Bytes} (h : b.length = 4) : bytes32 (be32 b) = b := by
  match b, h with
  | [a, b, c, d], _ =>
    have ha := a.toNat_lt
    have hb := b.toNat_lt
    have hc := c.toNat_lt
    have hd := d.toNat_lt
    have hn := toNat_be32 a b c d
    simp only [bytes32, List.cons.injEq, and_true, ← UInt8.toNat_inj, UInt32.toNat_toUInt8,
      UInt32.toNat_shiftRight, Nat.shiftRight_eq_div_pow, UInt32.toNat_ofNat, hn,
      Nat.reducePow, Nat.reduceMod]
    omega

/-! ## Keys -/

/-- The bytes an IPv6 key holds: sixteen, and not those of an IPv4 address. -/
abbrev V6 := { b : Bytes // b.length = 16 ∧ IP.to4 b = [] }

/-- `IPKey`. The source has one field for each family and a flag that says which is in use; the
field of the other family is zero. -/
inductive IPKey
  | v4 (addr : UInt32)
  | v6 (addr : V6)
  deriving DecidableEq

/-- The sixteen zero bytes, which `copy` leaves in place when there is nothing to copy. -/
def zero6 : V6 := ⟨List.replicate 16 0, by decide⟩

/-- `ToIPKey`. -/
def toIPKey (ip : IP) : IPKey :=
  if h : ip.to4 ≠ [] then .v4 (be32 ip.to4)
  else if h' : ip.length = 16 then .v6 ⟨ip, h', not_not.mp h⟩
  else .v6 zero6

namespace IPKey

/-- The flag of the source. -/
def isIPv6 : IPKey → Bool
  | v4 _ => false
  | v6 _ => true

/-- `IPKey.ToIP`. -/
def toIP : IPKey → IP
  | v4 a => v4InV6Prefix ++ bytes32 a
  | v6 b => b.1

@[simp] theorem length_toIP (k : IPKey) : k.toIP.length = 16 := by
  cases k with
  | v4 a => simp [toIP]
  | v6 b => exact b.2.1

theorem wellFormed_toIP (k : IPKey) : k.toIP.WellFormed := Or.inr k.length_toIP

@[simp] theorem to16_toIP (k : IPKey) : k.toIP.to16 = k.toIP := IP.to16_of_length k.length_toIP

end IPKey

theorem toIPKey_of_to4_ne_nil {ip : IP} (h : ip.to4 ≠ []) : toIPKey ip = .v4 (be32 ip.to4) :=
  dif_pos h

theorem toIPKey_of_to4_eq_nil {ip : IP} (h : ip.to4 = []) (h16 : ip.length = 16) :
    toIPKey ip = .v6 ⟨ip, h16, h⟩ := by
  rw [toIPKey, dif_neg (not_not.mpr h), dif_pos h16]

/-- **A key is the key of the address it stands for.** -/
@[simp] theorem toIPKey_toIP (k : IPKey) : toIPKey k.toIP = k := by
  cases k with
  | v4 a =>
    have h4 : IP.to4 (v4InV6Prefix ++ bytes32 a) = bytes32 a := IP.to4_append (length_bytes32 a)
    rw [IPKey.toIP, toIPKey_of_to4_ne_nil (by rw [h4]; simp [bytes32]), h4, be32_bytes32]
  | v6 b => exact toIPKey_of_to4_eq_nil b.2.2 b.2.1

/-- **An address is recovered from its key**, in its sixteen-byte form. -/
theorem toIP_toIPKey {ip : IP} (h : ip.WellFormed) : (toIPKey ip).toIP = ip.to16 := by
  by_cases h4 : ip.to4 = []
  · have h16 := h.length_eq h4
    rw [toIPKey_of_to4_eq_nil h4 h16, IPKey.toIP, IP.to16_of_length h16]
  · rw [toIPKey_of_to4_ne_nil h4, IPKey.toIP, bytes32_be32 (IP.length_to4_of_ne_nil h4),
      IP.to16_eq_of_to4_ne_nil h4]

/-- Addresses with the same key are the same address. -/
theorem toIPKey_eq_iff {ip ip' : IP} (h : ip.WellFormed) (h' : ip'.WellFormed) :
    toIPKey ip = toIPKey ip' ↔ ip.to16 = ip'.to16 := by
  constructor
  · intro e
    rw [← toIP_toIPKey h, ← toIP_toIPKey h', e]
  · intro e
    have := congrArg toIPKey ((toIP_toIPKey h).trans (e.trans (toIP_toIPKey h').symm))
    simpa using this

theorem toIPKey_to16 {ip : IP} (h : ip.WellFormed) : toIPKey ip.to16 = toIPKey ip := by
  rw [← toIP_toIPKey h, toIPKey_toIP]

theorem toIPKey_to4 {ip : IP} (h : ip.to4 ≠ []) : toIPKey ip.to4 = toIPKey ip := by
  have h4 : IP.to4 ip.to4 = ip.to4 := IP.to4_of_length (IP.length_to4_of_ne_nil h)
  rw [toIPKey_of_to4_ne_nil h, toIPKey_of_to4_ne_nil (by rwa [h4]), h4]

theorem isIPv6_toIPKey (ip : IP) : (toIPKey ip).isIPv6 = decide (ip.to4 = []) := by
  unfold toIPKey
  split_ifs with h h'
  · simp [IPKey.isIPv6, h]
  · simp [IPKey.isIPv6, not_not.mp h]
  · simp [IPKey.isIPv6, not_not.mp h]

namespace IPKey

theorem toIP_injective : Function.Injective toIP := fun k k' h => by
  have := congrArg toIPKey h
  simpa using this

/-- Keys are compared by the sixteen bytes of their addresses. -/
instance : LinearOrder IPKey := LinearOrder.lift' toIP toIP_injective

theorem lt_iff (k k' : IPKey) : k < k' ↔ k.toIP < k'.toIP := Iff.rfl

end IPKey

end NextPath.Net
