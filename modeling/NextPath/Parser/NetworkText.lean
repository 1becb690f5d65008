import NextPath.Parser.Networks
import NextPath.Parser.Routes

/-!
# Networks read back

`Prefix.String` writes a network into the compiled lists, and other programs read it from there. It
is read back as the network it was written from, by `netip.ParsePrefix` (`parsePrefix_string`) and,
as far as it is checked there, by `net.ParseCIDR` (`isSome_parseCIDR_string`). An IPv4 address in
the form of an IPv6 address is written with its dotted quad and keeps its form.
-/

namespace NextPath.Parser

open Strings Net

/-! ## The dotted quad after other groups -/

theorem seven_le_length_dotted {b : Bytes} (h : b.length = 4) : 7 ≤ (dotted b).length := by
  match b, h with
  | [x, y, z, w], _ =>
    have hpos (n : UInt8) : 0 < (numeral 10 n.toNat).length :=
      List.length_pos_iff.2 (numeral_ne_nil _)
    have hx := hpos x
    have hy := hpos y
    have hz := hpos z
    have hw := hpos w
    have hlen : (dotted [x, y, z, w]).length = (numeral 10 x.toNat).length +
        (numeral 10 y.toNat).length + (numeral 10 z.toNat).length +
        (numeral 10 w.toNat).length + 3 := by
      simp [dotted, joinWith]
      omega
    omega

theorem notMem_dotted {c : UInt8} (hc : isTextChar c = false) (b : Bytes) : c ∉ dotted b := by
  rw [dotted, show (fun x : UInt8 => numeral 10 x.toNat) = numeral 10 ∘ UInt8.toNat from rfl,
    ← List.map_map]
  exact notMem_joinWith_numeral hc (by decide) (by omega) (by omega)

theorem colon_notMem_dotted (b : Bytes) : chr ':' ∉ dotted b := by
  intro hm
  rcases mem_joinWith hm with e | ⟨f, hf, hcf⟩
  · exact absurd e (by decide)
  · obtain ⟨x, -, rfl⟩ := List.mem_map.1 hf
    exact notMem_numeral (by omega) (by omega) rfl _ hcf

/-- The groups after the ellipsis. -/
theorem parseGroups_mapped {b : Bytes} (h : b.length = 4) :
    parseGroups true (str "ffff:" ++ dotted b) = some (65535 :: groups b) := by
  have hhex : hexField (dotted b) = none := by
    have hlen := seven_le_length_dotted h
    rw [hexField, if_neg (by omega)]
  have hsplit : (str "ffff:" ++ dotted b).splitOn (chr ':') = [str "ffff", dotted b] := by
    change (str "ffff" ++ chr ':' :: dotted b).splitOn (chr ':') = _
    rw [List.splitOn_append_cons_self, List.splitOn_eq_singleton (by decide),
      List.splitOn_eq_singleton (colon_notMem_dotted b)]
    rfl
  have hffff : hexField (str "ffff") = some 65535 := by decide
  have hne : str "ffff:" ++ dotted b ≠ [] := by simp [str]
  rw [parseGroups, if_neg hne, hsplit]
  simp [parseFields, hffff, hhex, parseIPv4_dotted h]

/-- The text of an IPv4 address in the form of an IPv6 address is read back in that form. -/
theorem parseAddr_mapped {b : Bytes} (h : b.length = 4) :
    parseAddr (str "::ffff:" ++ dotted b) = some (v4InV6Prefix ++ b) := by
  have hell : splitEllipsis (str "::ffff:" ++ dotted b) = some ([], str "ffff:" ++ dotted b) := rfl
  have hmark : (str "::ffff:" ++ dotted b).find? isMark = some (chr ':') := rfl
  have hlen : (groups b).length = 2 := length_groups (k := 2) h
  have hbytes : ungroups ([] ++ List.replicate 5 0 ++ 65535 :: groups b) = v4InV6Prefix ++ b := by
    change v4InV6Prefix ++ ungroups (groups b) = _
    rw [ungroups_groups (k := 2) h]
  have hsix : parseIPv6 (str "::ffff:" ++ dotted b) = some (v4InV6Prefix ++ b) := by
    have hleft : parseGroups false [] = some [] := rfl
    simp only [parseIPv6, hell, hleft, parseGroups_mapped h, Option.bind_eq_bind,
      Option.bind_some, List.length_nil, List.length_cons, hlen]
    rw [if_pos (by omega)]
    exact congrArg some hbytes
  rw [parseAddr, hmark]
  simp only [show chr ':' ≠ chr '.' from by decide, if_false, if_true, hsix]

/-! ## Addresses -/

/-- **The text of an address is read back in its form.** -/
theorem parseAddr_addrString {addr : Bytes} (h : addr.length = 4 ∨ addr.length = 16) :
    parseAddr (addrString addr) = some addr := by
  unfold addrString
  split_ifs with h4 hmapped
  · exact parseAddr_dotted h4
  · have h16 : addr.length = 16 := h.resolve_left h4
    rw [parseAddr_mapped (by simp [h16]), ← hmapped, List.take_append_drop]
  · have h16 : addr.length = 16 := h.resolve_left h4
    rw [parseAddr_string6 (length_groups (k := 8) h16) (groups_lt addr),
      ungroups_groups (k := 8) h16]

theorem notMem_addrString {c : UInt8} (hc : isTextChar c = false) {addr : Bytes}
    (h : addr.length = 4 ∨ addr.length = 16) : c ∉ addrString addr := by
  unfold addrString
  split_ifs with h4 hmapped
  · exact notMem_dotted hc addr
  · intro hm
    rcases List.mem_append.1 hm with hm | hm
    · have hall : (str "::ffff:").all isTextChar = true := by decide
      rw [List.all_eq_true.1 hall c hm] at hc
      exact Bool.noConfusion hc
    · exact notMem_dotted hc _ hm
  · have hne : IP.to4 addr = [] := by
      rw [IP.to4, if_neg h4, if_neg (fun hand => hmapped hand.2)]
    have hstring : IP.string addr = string6 (groups addr) := by
      have h16 : addr.length = 16 := h.resolve_left h4
      have hnil : addr ≠ [] := by
        rintro rfl
        simp at h16
      rw [IP.string, if_neg hnil, if_neg (fun hand => hand.2 h16), if_neg (not_not.2 hne)]
    rw [← hstring]
    exact notMem_string hc h

/-! ## Networks -/

theorem notMem_numeral_ten {c : UInt8} (hc : isTextChar c = false) (n : ℕ) : c ∉ numeral 10 n := by
  have hsingle : numeral 10 n = joinWith (chr '.') ([n].map (numeral 10)) := by simp [joinWith]
  rw [hsingle]
  exact notMem_joinWith_numeral hc (by decide) (by omega) (by omega)

namespace Prefix

variable {n : Prefix}

theorem notMem_text {c : UInt8} (hc : isTextChar c = false) (hslash : c ≠ chr '/')
    (h : n.WellFormed) : c ∉ n.string := by
  intro hm
  rcases List.mem_append.1 hm with hm | hm
  · exact notMem_addrString hc h.1 hm
  · rcases List.mem_cons.1 hm with hm | hm
    · exact hslash hm
    · exact notMem_numeral_ten hc _ hm

/-- **A network is read back.** -/
theorem parsePrefix_string (h : n.WellFormed) : parsePrefix n.string = some n := by
  have hcut : cutLast (chr '/') n.string = some (addrString n.addr, numeral 10 n.bits) :=
    cutLast_append _ (notMem_numeral_ten (by decide) _)
  have hlead : (numeral 10 n.bits).length ≤ 1 ∨ (numeral 10 n.bits).head? ≠ some (chr '0') := by
    by_cases hone : (numeral 10 n.bits).length = 1
    · exact .inl hone.le
    · exact .inr (numeral_head (by omega) (by omega) _ hone)
  simp only [parsePrefix, hcut, Option.bind_eq_bind, Option.bind_some, parseAddr_addrString h.1,
    readNumeral_numeral (by omega : 1 < 10) (by omega : 10 ≤ 16)]
  rw [if_pos ⟨hlead, h.2⟩]

/-- `net.ParseCIDR` takes it for a network. -/
theorem isSome_parseCIDR_string (h : n.WellFormed) : (parseCIDR n.string).isSome = true := by
  have hall : ∀ c ∈ addrString n.addr, (c != chr '/') = true := by
    intro c hc
    simp only [bne_iff_ne, ne_eq]
    rintro rfl
    exact notMem_addrString (by decide) h.1 hc
  have htake : n.string.takeWhile (· != chr '/') = addrString n.addr := by
    rw [string, List.takeWhile_append_of_pos hall, List.takeWhile_cons_of_neg (by simp),
      List.append_nil]
  have hdrop : (n.string.dropWhile (· != chr '/')).drop 1 = numeral 10 n.bits := by
    rw [string, List.dropWhile_append_of_pos hall, List.dropWhile_cons_of_neg (by simp)]
    rfl
  simp only [parseCIDR, htake, hdrop, parseAddr_addrString h.1, Option.bind_eq_bind,
    Option.bind_some, readNumeral_numeral (by omega : 1 < 10) (by omega : 10 ≤ 16)]
  rw [if_pos h.2]
  rfl

end Prefix

end NextPath.Parser
