import Mathlib.Data.List.TakeWhile
import NextPath.Foundations.Numerals
import NextPath.Net.Address

/-!
# The text of an address

The engine links the addresses it collects, the fakes it allocates and the mappings it takes
back through maps keyed by the text of an address: `IP.string` is `IP.String` and `parseIP` is
`net.ParseIP`. An IPv4 address is written as a dotted quad, in whichever form it is held; an
IPv6 address as eight groups of hexadecimal digits, the first of its longest runs of at least two
zero groups being written `::`.

`parseIP_string`: the text of an address is read back as that address, in its sixteen-byte form.
-/

namespace NextPath.Net

/-! ## Writing -/

/-- Fields joined by a separator. -/
def joinWith (sep : UInt8) (fields : List Bytes) : Bytes := [sep].intercalate fields

/-- The dotted quad of four bytes. -/
def dotted (b : Bytes) : Bytes := joinWith (chr '.') (b.map fun x => numeral 10 x.toNat)

/-- The sixteen-bit groups of a byte string. -/
def groups : Bytes → List ℕ
  | a :: b :: rest => (a.toNat * 256 + b.toNat) :: groups rest
  | _ => []

/-- The bytes of a list of groups. -/
def ungroups (gs : List ℕ) : Bytes := gs.flatMap fun g => [UInt8.ofNat (g / 256), UInt8.ofNat g]

/-- The number of zero groups from position `i` on. -/
def zeroRun (gs : List ℕ) (i : ℕ) : ℕ := ((gs.drop i).takeWhile (· == 0)).length

/-- The run that is written `::`, as its start and its length: the first of the longest runs, and
only if it has at least two groups. No run has length zero. -/
def ellipsis (gs : List ℕ) : ℕ × ℕ :=
  (List.range 8).foldl (fun best i =>
    if 2 ≤ zeroRun gs i ∧ best.2 < zeroRun gs i then (i, zeroRun gs i) else best) (0, 0)

/-- Groups in hexadecimal, separated by colons. -/
def hexGroups (gs : List ℕ) : Bytes := joinWith (chr ':') (gs.map (numeral 16))

/-- The text of an IPv6 address. -/
def string6 (gs : List ℕ) : Bytes :=
  let run := ellipsis gs
  if run.2 = 0 then hexGroups gs
  else hexGroups (gs.take run.1) ++ str "::" ++ hexGroups (gs.drop (run.1 + run.2))

/-- `IP.String`. A slice that is no address is written out in hexadecimal after a `?`. -/
def IP.string (ip : IP) : Bytes :=
  if ip = [] then str "<nil>"
  else if ip.length ≠ 4 ∧ ip.length ≠ 16 then
    str "?" ++ ip.flatMap fun x => [digitChar (x.toNat / 16), digitChar (x.toNat % 16)]
  else if ip.to4 ≠ [] then dotted ip.to4
  else string6 (groups ip)

/-! ## Reading -/

/-- A field of a dotted quad: a number up to 255 without leading zeros. -/
def octet (f : Bytes) : Option UInt8 := do
  let n ← readNumeral 10 f
  if n < 256 ∧ (f.length = 1 ∨ f.head? ≠ some (digitChar 0)) then some (UInt8.ofNat n) else none

/-- The four bytes of a dotted quad. -/
def parseIPv4 (s : Bytes) : Option Bytes :=
  match s.splitOn (chr '.') with
  | [a, b, c, d] => do return [← octet a, ← octet b, ← octet c, ← octet d]
  | _ => none

/-- A group of one to four hexadecimal digits. -/
def hexField (f : Bytes) : Option ℕ := if f.length ≤ 4 then readNumeral 16 f else none

/-- The groups of colon-separated fields; a dotted quad may stand for the last two. -/
def parseFields (quad : Bool) : List Bytes → Option (List ℕ)
  | [] => some []
  | [f] =>
    match hexField f with
    | some g => some [g]
    | none => if quad then (parseIPv4 f).map groups else none
  | f :: fs => do return (← hexField f) :: (← parseFields quad fs)

/-- The groups of one side of an ellipsis; the side may be empty. -/
def parseGroups (quad : Bool) (s : Bytes) : Option (List ℕ) :=
  if s = [] then some [] else parseFields quad (s.splitOn (chr ':'))

/-- The text before and after the first `::`. -/
def splitEllipsis : Bytes → Option (Bytes × Bytes)
  | [] => none
  | c :: rest =>
    if c = chr ':' ∧ rest.head? = some (chr ':') then some ([], rest.tail)
    else (splitEllipsis rest).map fun p => (c :: p.1, p.2)

/-- The sixteen bytes of an IPv6 address: eight groups, or fewer around an ellipsis that stands
for at least one zero group. -/
def parseIPv6 (s : Bytes) : Option Bytes :=
  match splitEllipsis s with
  | none => do
    let gs ← parseFields true (s.splitOn (chr ':'))
    if gs.length = 8 then some (ungroups gs) else none
  | some (l, r) => do
    let gl ← parseGroups false l
    let gr ← parseGroups true r
    if gl.length + gr.length < 8 then
      some (ungroups (gl ++ List.replicate (8 - gl.length - gr.length) 0 ++ gr))
    else none

/-- The characters `netip.ParseAddr` looks for to tell the two families and a zone apart. -/
def isMark (c : UInt8) : Bool := c == chr '.' || c == chr ':' || c == chr '%'

/-- `netip.ParseAddr`: the four bytes of a dotted quad or the sixteen of an IPv6 address. A zone
is not part of the texts it is read from here, and is refused. -/
def parseAddr (s : Bytes) : Option Bytes :=
  match s.find? isMark with
  | none => none
  | some c =>
    if c = chr '.' then parseIPv4 s
    else if c = chr ':' then parseIPv6 s
    else none

/-- `net.ParseIP`: the sixteen-byte form of the address, `nil` if there is none. -/
def parseIP (s : Bytes) : IP := ((parseAddr s).map IP.to16).getD []

/-! ## Separated fields -/

theorem mem_joinWith {sep x : UInt8} {fs : List Bytes} (h : x ∈ joinWith sep fs) :
    x = sep ∨ ∃ f ∈ fs, x ∈ f := by
  induction fs with
  | nil => simp [joinWith] at h
  | cons f fs ih =>
    cases fs with
    | nil => exact Or.inr ⟨f, by simp, by simpa [joinWith] using h⟩
    | cons f' fs =>
      simp only [joinWith, List.intercalate_cons_cons, List.mem_append, List.mem_singleton] at h
      rcases h with (h | h) | h
      · exact Or.inr ⟨f, by simp, h⟩
      · exact Or.inl h
      · rcases ih h with h | ⟨g, hg, hx⟩
        · exact Or.inl h
        · exact Or.inr ⟨g, List.mem_cons_of_mem _ hg, hx⟩

theorem joinWith_cons_cons (sep : UInt8) (f f' : Bytes) (fs : List Bytes) :
    joinWith sep (f :: f' :: fs) = f ++ sep :: joinWith sep (f' :: fs) := by
  simp [joinWith, List.intercalate_cons_cons]

theorem splitOn_joinWith {sep : UInt8} {fs : List Bytes} (h : ∀ f ∈ fs, sep ∉ f) (hne : fs ≠ []) :
    (joinWith sep fs).splitOn sep = fs :=
  List.splitOn_intercalate sep h hne

/-- The value of a character that separates fields is that of no digit. -/
theorem digitChar_ne {d : ℕ} (h : d < 16) : isMark (digitChar d) = false := by
  interval_cases d <;> rfl

theorem isMark_numeral {b : ℕ} (hb : 1 < b) (hb' : b ≤ 16) {n : ℕ} {c : UInt8}
    (hc : c ∈ numeral b n) : isMark c = false := by
  obtain ⟨d, hd, rfl⟩ := numeral_digits hb n c hc
  exact digitChar_ne (by omega)

theorem notMem_numeral {b : ℕ} (hb : 1 < b) (hb' : b ≤ 16) {c : UInt8} (hc : isMark c = true)
    (n : ℕ) : c ∉ numeral b n := fun h => by
  rw [isMark_numeral hb hb' h] at hc
  exact Bool.false_ne_true hc

/-- The first mark of a text that holds one kind of mark only. -/
theorem find?_isMark {s : Bytes} {c : UInt8} (h : ∀ x ∈ s, isMark x = true → x = c)
    (hc : c ∈ s) (hm : isMark c = true) : s.find? isMark = some c := by
  cases hf : s.find? isMark with
  | none => exact absurd hm (List.find?_eq_none.mp hf c hc)
  | some x => rw [h x (List.mem_of_find?_eq_some hf) (List.find?_some hf)]

/-! ## The dotted quad -/

theorem octet_numeral (x : UInt8) : octet (numeral 10 x.toNat) = some x := by
  have hx := x.toNat_lt
  have hlen : (numeral 10 x.toNat).length = 1 ∨
      (numeral 10 x.toNat).head? ≠ some (digitChar 0) := by
    by_cases h : (numeral 10 x.toNat).length = 1
    · exact Or.inl h
    · exact Or.inr (numeral_head (by omega) (by omega) _ h)
  rw [octet, readNumeral_numeral (by omega) (by omega)]
  simp [hlen, hx]

theorem parseIPv4_dotted {b : Bytes} (h : b.length = 4) : parseIPv4 (dotted b) = some b := by
  match b, h with
  | [x, y, z, w], _ =>
    unfold parseIPv4 dotted
    rw [splitOn_joinWith (fun f hf => ?_) (by simp)]
    · simp [octet_numeral]
    · obtain ⟨x, -, rfl⟩ := List.mem_map.mp hf
      exact notMem_numeral (by omega) (by omega) rfl _

theorem parseAddr_dotted {b : Bytes} (h : b.length = 4) : parseAddr (dotted b) = some b := by
  have hf : (dotted b).find? isMark = some (chr '.') := by
    refine find?_isMark (fun x hx hm => ?_) ?_ rfl
    · rcases mem_joinWith hx with e | ⟨f, hf, hxf⟩
      · exact e
      · obtain ⟨y, -, rfl⟩ := List.mem_map.mp hf
        rw [isMark_numeral (by omega) (by omega) hxf] at hm
        exact absurd hm Bool.false_ne_true
    · match b, h with
      | [x, y, z, w], _ => simp [dotted, joinWith_cons_cons]
  simp [parseAddr, hf, parseIPv4_dotted h]

/-! ## Groups -/

theorem ungroups_groups : ∀ {b : Bytes} {k : ℕ}, b.length = 2 * k → ungroups (groups b) = b
  | [], _, _ => rfl
  | [_], k, h => by simp at h; omega
  | x :: y :: rest, k, h => by
    have hr : rest.length = 2 * (k - 1) := by simp at h; omega
    have hx := x.toNat_lt
    have hy := y.toNat_lt
    have h1 : UInt8.ofNat ((x.toNat * 256 + y.toNat) / 256) = x := by
      rw [← UInt8.toNat_inj, UInt8.toNat_ofNat']
      omega
    have h2 : UInt8.ofNat (x.toNat * 256 + y.toNat) = y := by
      rw [← UInt8.toNat_inj, UInt8.toNat_ofNat']
      omega
    have ih := ungroups_groups hr
    simp only [ungroups] at ih
    simp [groups, ungroups, h1, h2, ih]

theorem length_groups : ∀ {b : Bytes} {k : ℕ}, b.length = 2 * k → (groups b).length = k
  | [], k, h => by simp [groups] at h ⊢; omega
  | [_], k, h => by simp at h; omega
  | x :: y :: rest, k, h => by
    have := length_groups (b := rest) (k := k - 1) (by simp at h; omega)
    simp only [groups, List.length_cons, this]
    simp at h
    omega

theorem groups_lt : ∀ (b : Bytes), ∀ g ∈ groups b, g < 65536
  | [], g, h => by simp [groups] at h
  | [_], g, h => by simp [groups] at h
  | x :: y :: rest, g, h => by
    rcases List.mem_cons.mp h with rfl | h
    · have hx := x.toNat_lt
      have hy := y.toNat_lt
      omega
    · exact groups_lt rest g h

theorem hexField_numeral {g : ℕ} (h : g < 65536) : hexField (numeral 16 g) = some g := by
  have hl : (numeral 16 g).length ≤ 4 := length_numeral_le (b := 16) (k := 3) (by omega) (by omega)
  rw [hexField, if_pos hl, readNumeral_numeral (by omega) (by omega)]

theorem parseFields_numeral (quad : Bool) {gs : List ℕ} (h : ∀ g ∈ gs, g < 65536) :
    parseFields quad (gs.map (numeral 16)) = some gs := by
  induction gs with
  | nil => rfl
  | cons g gs ih =>
    have hg := hexField_numeral (h g (by simp))
    have ih := ih fun g' hg' => h g' (by simp [hg'])
    cases gs with
    | nil => simp [parseFields, hg]
    | cons g' gs =>
      rw [List.map_cons] at ih
      simp [parseFields, hg, ih]

theorem notMem_hexFields (gs : List ℕ) : ∀ f ∈ gs.map (numeral 16), chr ':' ∉ f := by
  intro f hf
  obtain ⟨g, -, rfl⟩ := List.mem_map.mp hf
  exact notMem_numeral (by omega) (by omega) rfl g

theorem parseGroups_hexGroups (quad : Bool) {gs : List ℕ} (h : ∀ g ∈ gs, g < 65536) :
    parseGroups quad (hexGroups gs) = some gs := by
  cases gs with
  | nil => rfl
  | cons g gs =>
    have hne : hexGroups (g :: gs) ≠ [] := by
      cases gs with
      | nil => simpa [hexGroups, joinWith] using numeral_ne_nil g
      | cons g' gs => simp [hexGroups, joinWith_cons_cons]
    rw [parseGroups, if_neg hne, hexGroups, splitOn_joinWith (notMem_hexFields _) (by simp),
      parseFields_numeral quad h]

/-! ## The ellipsis -/

theorem str_ellipsis : str "::" = [chr ':', chr ':'] := by decide

theorem splitEllipsis_append {f : Bytes} (h : chr ':' ∉ f) (t : Bytes) :
    splitEllipsis (f ++ t) = (splitEllipsis t).map fun p => (f ++ p.1, p.2) := by
  induction f with
  | nil => simp
  | cons c f ih =>
    have hc : ¬(c = chr ':' ∧ (f ++ t).head? = some (chr ':')) :=
      fun e => h (by simp [e.1])
    rw [List.cons_append, splitEllipsis, if_neg hc, ih fun e => h (by simp [e]), Option.map_map]
    rfl

/-- A colon that is followed by a field is no ellipsis. -/
theorem splitEllipsis_colon {f t : Bytes} (h : chr ':' ∉ f) (hne : f ≠ []) :
    splitEllipsis (chr ':' :: (f ++ t)) =
      (splitEllipsis (f ++ t)).map fun p => (chr ':' :: p.1, p.2) := by
  have hh : (f ++ t).head? ≠ some (chr ':') := by
    cases f with
    | nil => exact absurd rfl hne
    | cons c f =>
      intro e
      rw [List.cons_append, List.head?_cons, Option.some.injEq] at e
      exact h (by simp [e])
  rw [splitEllipsis, if_neg fun e => hh e.2]

/-- Fields carry no ellipsis: the first one of a text that starts with fields is in the rest. -/
theorem splitEllipsis_joinWith {fs : List Bytes} (h : ∀ f ∈ fs, chr ':' ∉ f)
    (hne : ∀ f ∈ fs, f ≠ []) (t : Bytes) :
    splitEllipsis (joinWith (chr ':') fs ++ t) =
      (splitEllipsis t).map fun p => (joinWith (chr ':') fs ++ p.1, p.2) := by
  induction fs with
  | nil => simp [joinWith]
  | cons f fs ih =>
    have hf := h f (by simp)
    cases fs with
    | nil =>
      have : joinWith (chr ':') [f] = f := by simp [joinWith]
      rw [this, splitEllipsis_append hf]
    | cons f' fs =>
      have ih := ih (fun g hg => h g (by simp [hg])) fun g hg => hne g (by simp [hg])
      obtain ⟨u, hu⟩ : ∃ u, joinWith (chr ':') (f' :: fs) = f' ++ u := by
        cases fs with
        | nil => exact ⟨[], by simp [joinWith]⟩
        | cons f'' fs => exact ⟨_, joinWith_cons_cons _ _ _ _⟩
      rw [joinWith_cons_cons, List.append_assoc, splitEllipsis_append hf, List.cons_append, hu,
        List.append_assoc, splitEllipsis_colon (h f' (by simp)) (hne f' (by simp)),
        ← List.append_assoc, ← hu, ih, Option.map_map, Option.map_map]
      simp [Function.comp_def]

/-- What the search for the ellipsis finds: nothing, or a run of at least two zero groups. -/
theorem ellipsis_spec (gs : List ℕ) :
    (ellipsis gs).2 = 0 ∨ (2 ≤ (ellipsis gs).2 ∧ (ellipsis gs).2 = zeroRun gs (ellipsis gs).1) := by
  unfold ellipsis
  -- the run found so far, over the positions searched so far
  generalize List.range 8 = is
  suffices key : ∀ (best : ℕ × ℕ), (best.2 = 0 ∨ (2 ≤ best.2 ∧ best.2 = zeroRun gs best.1)) →
      (fun r : ℕ × ℕ => r.2 = 0 ∨ (2 ≤ r.2 ∧ r.2 = zeroRun gs r.1))
        (is.foldl (fun best i =>
          if 2 ≤ zeroRun gs i ∧ best.2 < zeroRun gs i then (i, zeroRun gs i) else best) best) from
    key (0, 0) (Or.inl rfl)
  induction is with
  | nil => exact fun best h => h
  | cons i is ih =>
    intro best h
    rw [List.foldl_cons]
    apply ih
    split_ifs with hi
    · exact Or.inr ⟨hi.1, rfl⟩
    · exact h

theorem takeWhile_zero (gs : List ℕ) :
    gs.takeWhile (· == 0) = List.replicate (gs.takeWhile (· == 0)).length 0 :=
  List.eq_replicate_of_mem fun g hg => by simpa using List.mem_takeWhile_imp hg

/-- The groups around a run of zero groups. -/
theorem eq_take_zeroRun_drop (gs : List ℕ) (i : ℕ) :
    gs = gs.take i ++ List.replicate (zeroRun gs i) 0 ++ gs.drop (i + zeroRun gs i) := by
  have h1 : gs.drop i = List.replicate (zeroRun gs i) 0 ++ (gs.drop i).dropWhile (· == 0) := by
    conv_lhs => rw [← List.takeWhile_append_dropWhile (p := (· == 0)) (l := gs.drop i)]
    rw [takeWhile_zero]
    rfl
  have h2 : (gs.drop i).dropWhile (· == 0) = gs.drop (i + zeroRun gs i) := by
    rw [← List.drop_drop]
    conv_rhs => rw [h1]
    rw [List.drop_left' (by simp)]
  rw [← h2, List.append_assoc, ← h1, List.take_append_drop]

/-- The groups of an address are read back from its text. -/
theorem parseIPv6_string6 {gs : List ℕ} (hl : gs.length = 8) (h : ∀ g ∈ gs, g < 65536) :
    parseIPv6 (string6 gs) = some (ungroups gs) := by
  have hfields : ∀ l : List ℕ, ∀ f ∈ l.map (numeral 16), f ≠ [] := fun l f hf => by
    obtain ⟨g, -, rfl⟩ := List.mem_map.mp hf
    exact numeral_ne_nil g
  unfold string6
  rcases ellipsis_spec gs with h0 | ⟨h2, hz⟩
  · simp only [h0, if_true]
    have hs := splitEllipsis_joinWith (notMem_hexFields gs) (hfields gs) []
    rw [List.append_nil, splitEllipsis, Option.map_none] at hs
    have hgs : gs ≠ [] := fun e => by simp [e] at hl
    rw [parseIPv6, hexGroups, hs]
    simp only
    rw [splitOn_joinWith (notMem_hexFields gs) (by simpa using hgs), parseFields_numeral true h]
    simp [hl]
  · simp only [show (ellipsis gs).2 ≠ 0 by omega, if_false]
    have hsplit := eq_take_zeroRun_drop gs (ellipsis gs).1
    rw [← hz] at hsplit
    set i := (ellipsis gs).1
    set l := (ellipsis gs).2
    have hlen : (gs.take i).length + l + (gs.drop (i + l)).length = 8 := by
      have := congrArg List.length hsplit
      simp only [List.length_append, List.length_replicate] at this
      omega
    have hs := splitEllipsis_joinWith (notMem_hexFields (gs.take i)) (hfields _)
      (str "::" ++ hexGroups (gs.drop (i + l)))
    have hcc : splitEllipsis (str "::" ++ hexGroups (gs.drop (i + l))) =
        some ([], hexGroups (gs.drop (i + l))) := by
      rw [str_ellipsis]
      simp [splitEllipsis]
    rw [hcc, Option.map_some, List.append_nil] at hs
    rw [parseIPv6, List.append_assoc, hexGroups, hs]
    simp only
    rw [show joinWith (chr ':') ((gs.take i).map (numeral 16)) = hexGroups (gs.take i) from rfl,
      parseGroups_hexGroups false fun g hg => h g (List.mem_of_mem_take hg),
      parseGroups_hexGroups true fun g hg => h g (List.mem_of_mem_drop hg)]
    have hcount : 8 - (gs.take i).length - (gs.drop (i + l)).length = l := by omega
    simp only [Option.bind_eq_bind, Option.bind_some]
    rw [if_pos (by omega), hcount, ← hsplit]

theorem parseAddr_string6 {gs : List ℕ} (hl : gs.length = 8) (h : ∀ g ∈ gs, g < 65536) :
    parseAddr (string6 gs) = some (ungroups gs) := by
  have hg : ∀ (l : List ℕ) (x), x ∈ hexGroups l → isMark x = true → x = chr ':' :=
    fun l x hx hm => by
      rcases mem_joinWith hx with e | ⟨f, hf, hxf⟩
      · exact e
      · obtain ⟨y, -, rfl⟩ := List.mem_map.mp hf
        rw [isMark_numeral (by omega) (by omega) hxf] at hm
        exact absurd hm Bool.false_ne_true
  have hf : (string6 gs).find? isMark = some (chr ':') := by
    refine find?_isMark (fun x hx hm => ?_) ?_ rfl
    · unfold string6 at hx
      simp only at hx
      split_ifs at hx
      · exact hg _ x hx hm
      · rw [List.mem_append, List.mem_append] at hx
        rcases hx with (hx | hx) | hx
        · exact hg _ x hx hm
        · rw [str_ellipsis] at hx
          simpa using hx
        · exact hg _ x hx hm
    · unfold string6
      simp only
      split_ifs
      · match gs, hl with
        | a :: b :: gs, _ => simp [hexGroups, joinWith_cons_cons]
      · simp [str_ellipsis]
  simp [parseAddr, hf, parseIPv6_string6 hl h, show chr ':' ≠ chr '.' from by decide]

/-- What the text of an address is read as: the four bytes of an IPv4 address, in whichever form
it is held, and the sixteen of any other. -/
theorem parseAddr_string {ip : IP} (h : ip.WellFormed) :
    parseAddr ip.string = some (if ip.to4 = [] then ip else ip.to4) := by
  have hlen : ¬(ip.length ≠ 4 ∧ ip.length ≠ 16) := fun e => h.elim e.1 e.2
  rw [IP.string, if_neg h.ne_nil, if_neg hlen]
  by_cases h4 : ip.to4 = []
  · have h16 := h.length_eq h4
    rw [if_neg (not_not.mpr h4), if_pos h4,
      parseAddr_string6 (length_groups (k := 8) h16) (groups_lt ip), ungroups_groups (k := 8) h16]
  · rw [if_pos h4, if_neg h4, parseAddr_dotted (IP.length_to4_of_ne_nil h4)]

/-- **The text of an address is read back as that address.** -/
theorem parseIP_string {ip : IP} (h : ip.WellFormed) : parseIP ip.string = ip.to16 := by
  rw [parseIP, parseAddr_string h, Option.map_some, Option.getD_some]
  by_cases h4 : ip.to4 = []
  · rw [if_pos h4]
  · rw [if_neg h4, IP.to16_of_length_four (IP.length_to4_of_ne_nil h4),
      IP.to16_eq_of_to4_ne_nil h4]

/-- Both forms of an address have the same text. -/
theorem string_to16 {ip : IP} (h : ip.WellFormed) : IP.string ip.to16 = ip.string := by
  have h16 := IP.length_to16 h
  have hlen : ¬(ip.length ≠ 4 ∧ ip.length ≠ 16) := fun e => h.elim e.1 e.2
  rw [IP.string, IP.string, if_neg (IP.WellFormed.ne_nil (Or.inr h16)), if_neg h.ne_nil,
    if_neg hlen, if_neg fun e => e.2 h16, IP.to4_to16 ip h]
  by_cases h4 : ip.to4 = []
  · rw [IP.to16_of_length (h.length_eq h4)]
  · rw [if_pos h4, if_pos h4]

/-- The characters of the texts of addresses. -/
def isTextChar (c : UInt8) : Bool :=
  c == chr '.' || c == chr ':' || (List.range 16).any fun d => c == digitChar d

theorem notMem_joinWith_numeral {c sep : UInt8} {b : ℕ} {ns : List ℕ} (hc : isTextChar c = false)
    (hs : isTextChar sep = true) (hb : 1 < b) (hb' : b ≤ 16) :
    c ∉ joinWith sep (ns.map (numeral b)) := by
  intro hm
  rcases mem_joinWith hm with rfl | ⟨f, hf, hcf⟩
  · exact absurd (hc.symm.trans hs) (by decide)
  · obtain ⟨n, -, rfl⟩ := List.mem_map.mp hf
    obtain ⟨d, hd, rfl⟩ := numeral_digits hb n _ hcf
    have : isTextChar (digitChar d) = true := by
      have hany : ((List.range 16).any fun d' => digitChar d == digitChar d') = true :=
        List.any_eq_true.2 ⟨d, List.mem_range.2 (hd.trans_le hb'), beq_self_eq_true _⟩
      rw [isTextChar, hany, Bool.or_true]
    exact absurd (hc.symm.trans this) (by decide)

/-- The text of an address has no other characters. -/
theorem notMem_string {c : UInt8} (hc : isTextChar c = false) {ip : IP} (h : ip.WellFormed) :
    c ∉ ip.string := by
  have hlen : ¬(ip.length ≠ 4 ∧ ip.length ≠ 16) := fun e => h.elim e.1 e.2
  have hcolon (ns : List ℕ) : c ∉ hexGroups ns :=
    notMem_joinWith_numeral hc (by decide) (by omega) (by omega)
  rw [IP.string, if_neg h.ne_nil, if_neg hlen]
  split_ifs
  · rw [dotted, show (fun x : UInt8 => numeral 10 x.toNat) = numeral 10 ∘ UInt8.toNat from rfl,
      ← List.map_map]
    exact notMem_joinWith_numeral hc (by decide) (by omega) (by omega)
  · simp only [string6]
    split_ifs
    · exact hcolon _
    · rw [List.mem_append, List.mem_append, str_ellipsis]
      rintro ((hm | hm) | hm)
      · exact hcolon _ hm
      · obtain rfl : c = chr ':' := by simpa using hm
        exact absurd hc (by decide)
      · exact hcolon _ hm

/-- A slice with the text of an address is an address. -/
theorem wellFormed_of_string_eq {ip ip' : IP} (h : ip.WellFormed) (e : ip.string = ip'.string) :
    ip'.WellFormed := by
  by_contra h'
  have hlen : ip'.length ≠ 4 ∧ ip'.length ≠ 16 := not_or.1 h'
  rw [IP.string.eq_def ip', if_pos hlen] at e
  split_ifs at e
  · have : chr '<' ∈ ip.string := e ▸ by decide
    exact notMem_string (by decide) h this
  · have : chr '?' ∈ ip.string := e ▸ List.mem_append_left _ (by decide)
    exact notMem_string (by decide) h this

/-- The text of a slice that is no address is not read as one. -/
theorem parseIP_string_of_not_wellFormed {ip : IP} (h : ¬ ip.WellFormed) :
    parseIP ip.string = [] := by
  have hlen : ip.length ≠ 4 ∧ ip.length ≠ 16 := not_or.1 h
  have hnone : ip.string.find? isMark = none := by
    rw [IP.string, if_pos hlen]
    split_ifs
    · decide
    · rw [List.find?_eq_none]
      intro c hc
      rcases List.mem_append.1 hc with hc | hc
      · obtain rfl : c = chr '?' := by simpa [str, chr] using hc
        decide
      · obtain ⟨x, -, hx⟩ := List.mem_flatMap.1 hc
        have hlt := x.toNat_lt
        rcases List.mem_pair.1 hx with rfl | rfl
        · rw [digitChar_ne (by omega)]
          exact Bool.false_ne_true
        · rw [digitChar_ne (by omega)]
          exact Bool.false_ne_true
  rw [parseIP, parseAddr, hnone]
  rfl

theorem toIPKey_parseIP_string {ip : IP} (h : ip.WellFormed) :
    toIPKey (parseIP ip.string) = toIPKey ip := by
  rw [parseIP_string h, toIPKey_to16 h]

/-- Addresses with the same text are the same address. -/
theorem string_eq_iff {ip ip' : IP} (h : ip.WellFormed) (h' : ip'.WellFormed) :
    ip.string = ip'.string ↔ toIPKey ip = toIPKey ip' := by
  constructor
  · intro e
    rw [← toIPKey_parseIP_string h, ← toIPKey_parseIP_string h', e]
  · intro e
    rw [toIPKey_eq_iff h h'] at e
    rw [← string_to16 h, ← string_to16 h', e]

end NextPath.Net
