import Mathlib.Data.List.Infix
import Mathlib.Data.List.TakeWhile
import NextPath.Foundations.Bytes

/-!
# The string functions of the standard library

The functions of package `strings` that the list compiler uses, on byte strings. They are exact on
every input with one exception: the table by which `ToLower` maps the letters outside ASCII is a
parameter (`Unicode.lower`). `TrimSpace` knows the white space of Unicode by its encodings.
-/

namespace NextPath.Strings

/-! ## Tests -/

/-- `strings.HasSuffix`. -/
def hasSuffix (s suffix : Bytes) : Bool := suffix.isSuffixOf s

/-- `strings.HasPrefix`. -/
def hasPrefix (s p : Bytes) : Bool := p.isPrefixOf s

/-- `strings.Contains`: some tail starts with the text sought. -/
def contains (s sub : Bytes) : Bool := s.tails.any (hasPrefix · sub)

/-- `strings.ContainsAny`, for ASCII characters. -/
def containsAny (s chars : Bytes) : Bool := s.any (chars.contains ·)

/-! ## Trimming -/

/-- `strings.TrimPrefix`. -/
def trimPrefix (s p : Bytes) : Bytes := if hasPrefix s p then s.drop p.length else s

/-- `strings.TrimRight`, for ASCII characters. -/
def trimRight (s cutset : Bytes) : Bytes := (s.reverse.dropWhile (cutset.contains ·)).reverse

/-- `strings.TrimLeft`, for ASCII characters. -/
def trimLeft (s cutset : Bytes) : Bytes := s.dropWhile (cutset.contains ·)

/-- `strings.Trim`, for ASCII characters. -/
def trim (s cutset : Bytes) : Bytes := trimRight (trimLeft s cutset) cutset

/-- The encodings of the white space of `unicode.IsSpace`: the ASCII ones, U+0085, U+00A0, U+1680,
U+2000 to U+200A, U+2028, U+2029, U+202F, U+205F and U+3000. -/
def whiteSpace : List Bytes :=
  [[9], [10], [11], [12], [13], [32], [0xc2, 0x85], [0xc2, 0xa0], [0xe1, 0x9a, 0x80]] ++
    ([0x80, 0x81, 0x82, 0x83, 0x84, 0x85, 0x86, 0x87, 0x88, 0x89, 0x8a, 0xa8, 0xa9, 0xaf].map
      fun b => [0xe2, 0x80, b]) ++ [[0xe2, 0x81, 0x9f], [0xe3, 0x80, 0x80]]

/-- Drops from the front of a string what is in the list, at most `n` times. -/
def dropRunes (runes : List Bytes) : ℕ → Bytes → Bytes
  | 0, s => s
  | n + 1, s =>
    match runes.find? (hasPrefix s ·) with
    | some r => dropRunes runes n (s.drop r.length)
    | none => s

/-- `strings.TrimSpace`. -/
def trimSpace (s : Bytes) : Bytes :=
  let s := dropRunes whiteSpace s.length s
  (dropRunes (whiteSpace.map List.reverse) s.length s.reverse).reverse

/-! ## Cutting -/

/-- `strings.Fields`, from the field begun so far (reversed); the fuel is the length of the text. -/
def fieldsFrom : ℕ → Bytes → Bytes → List Bytes
  | n + 1, field, c :: s =>
    match whiteSpace.find? (hasPrefix (c :: s) ·) with
    | some r => [field.reverse].filter (· ≠ []) ++ fieldsFrom n [] ((c :: s).drop r.length)
    | none => fieldsFrom n (c :: field) s
  | _, field, _ => [field.reverse].filter (· ≠ [])

/-- `strings.Fields`. -/
def fields (s : Bytes) : List Bytes := fieldsFrom s.length [] s

/-- The text before the first of some characters: `s[:strings.IndexAny(s, chars)]`, or the whole
text if there is none. -/
def before (chars s : Bytes) : Bytes := s.takeWhile (!chars.contains ·)

/-- The text before and after the last occurrence of a character. -/
def cutLast (c : UInt8) (s : Bytes) : Option (Bytes × Bytes) :=
  if c ∈ s then
    let after := (s.reverse.takeWhile (· ≠ c)).reverse
    some (s.take (s.length - after.length - 1), after)
  else none

/-- `strings.SplitN` for a one-character separator. -/
def splitN (sep : UInt8) : ℕ → Bytes → List Bytes
  | 0, _ => []
  | 1, s => [s]
  | n + 2, s =>
    if sep ∈ s then s.takeWhile (· ≠ sep) :: splitN sep (n + 1) ((s.dropWhile (· ≠ sep)).drop 1)
    else [s]

/-- The lines `bufio.Scanner` delivers: up to the first one that with its newline exceeds the
buffer, a carriage return before the newline dropped, and no empty line after the last newline. -/
def scanLines (maxTokenSize : ℕ) (s : Bytes) : List Bytes :=
  let lines := s.splitOn (chr '\n')
  let lines := if lines.getLast? = some [] then lines.dropLast else lines
  (lines.takeWhile (·.length < maxTokenSize)).map fun l =>
    if l.getLast? = some (chr '\r') then l.dropLast else l

/-! ## Case -/

/-- The letters outside ASCII: `strings.ToLower` on a string that is not all ASCII. -/
structure Unicode where
  lower : Bytes → Bytes

/-- The lower case of an ASCII character. -/
def lowerByte (c : UInt8) : UInt8 := if chr 'A' ≤ c ∧ c ≤ chr 'Z' then c + 32 else c

/-- Every byte is below `utf8.RuneSelf`. -/
def isASCII (s : Bytes) : Bool := s.all (· < 0x80)

/-- `strings.ToLower`. -/
def toLower (u : Unicode) (s : Bytes) : Bytes :=
  if isASCII s then s.map lowerByte else u.lower s

theorem hasSuffix_iff {s suffix : Bytes} : hasSuffix s suffix = true ↔ suffix <:+ s :=
  List.isSuffixOf_iff_suffix

theorem toNat_lowerByte (c : UInt8) :
    (lowerByte c).toNat = if 65 ≤ c.toNat ∧ c.toNat ≤ 90 then c.toNat + 32 else c.toNat := by
  have hcapital : chr 'A' ≤ c ∧ c ≤ chr 'Z' ↔ 65 ≤ c.toNat ∧ c.toNat ≤ 90 := by
    rw [UInt8.le_iff_toNat_le, UInt8.le_iff_toNat_le]
    rfl
  rw [lowerByte]
  simp only [hcapital]
  split_ifs with h
  · rw [UInt8.toNat_add]
    exact Nat.mod_eq_of_lt (by change c.toNat + 32 < 256; omega)
  · rfl

theorem lowerByte_eq_dot {c : UInt8} : lowerByte c = chr '.' ↔ c = chr '.' := by
  have hdot : (chr '.').toNat = 46 := rfl
  rw [← UInt8.toNat_inj, ← UInt8.toNat_inj, toNat_lowerByte, hdot]
  split_ifs <;> omega

theorem lowerByte_lowerByte (c : UInt8) : lowerByte (lowerByte c) = lowerByte c := by
  rw [← UInt8.toNat_inj, toNat_lowerByte, toNat_lowerByte]
  split_ifs <;> omega

/-! ## Tests as relations -/

theorem hasPrefix_iff {s p : Bytes} : hasPrefix s p = true ↔ p <+: s :=
  List.isPrefixOf_iff_prefix

theorem contains_iff {s sub : Bytes} : contains s sub = true ↔ sub <:+: s := by
  simp only [contains, List.any_eq_true, List.mem_tails, hasPrefix_iff,
    List.infix_iff_prefix_suffix]
  exact exists_congr fun t => and_comm

theorem not_contains_of_notMem {s sub : Bytes} {c : UInt8} (hc : c ∈ sub) (hs : c ∉ s) :
    contains s sub = false := by
  rw [← Bool.not_eq_true, contains_iff]
  exact fun h => hs (h.subset hc)

theorem not_hasPrefix_of_notMem {s p : Bytes} {c : UInt8} (hc : c ∈ p) (hs : c ∉ s) :
    hasPrefix s p = false := by
  rw [← Bool.not_eq_true, hasPrefix_iff]
  exact fun h => hs (h.subset hc)

theorem before_eq_self {chars s : Bytes} (h : ∀ c ∈ s, c ∉ chars) : before chars s = s :=
  List.takeWhile_eq_self_iff.2 fun c hc => by simpa using h c hc

/-! ## White space -/

section DropRunes

variable {runes : List Bytes}

theorem dropRunes_eq_self {n : ℕ} {s : Bytes} (h : ∀ r ∈ runes, ¬ r <+: s) :
    dropRunes runes n s = s := by
  cases n with
  | zero => rfl
  | succ n =>
    have hnone : runes.find? (hasPrefix s ·) = none :=
      List.find?_eq_none.2 fun r hr hp => h r hr (hasPrefix_iff.1 hp)
    rw [dropRunes, hnone]

theorem dropRunes_isSuffix (runes : List Bytes) (n : ℕ) (s : Bytes) :
    dropRunes runes n s <:+ s := by
  induction n generalizing s with
  | zero => exact List.suffix_rfl
  | succ n ih =>
    rw [dropRunes]
    split
    · exact (ih _).trans (List.drop_suffix _ _)
    · exact List.suffix_rfl

/-- With enough steps nothing of the list is left at the front. -/
theorem not_isPrefix_dropRunes (hne : [] ∉ runes) {n : ℕ} {s : Bytes} (hn : s.length ≤ n) :
    ∀ r ∈ runes, ¬ r <+: dropRunes runes n s := by
  induction n generalizing s with
  | zero =>
    obtain rfl : s = [] := List.length_eq_zero_iff.1 (by omega)
    intro r hr hp
    exact hne (List.prefix_nil.1 hp ▸ hr)
  | succ n ih =>
    rw [dropRunes]
    cases hf : runes.find? (hasPrefix s ·) with
    | none => exact fun r hr hp => List.find?_eq_none.1 hf r hr (hasPrefix_iff.2 hp)
    | some r =>
      have hr : r ≠ [] := fun h => hne (h ▸ List.mem_of_find?_eq_some hf)
      have hpos : 0 < r.length := List.length_pos_iff.2 hr
      have hpre : r <+: s := hasPrefix_iff.1 (List.find?_some hf)
      have hlen := hpre.length_le
      exact ih (by rw [List.length_drop]; omega)

/-- What follows a byte that no member of the list has is left alone, and so is the byte. -/
theorem isSuffix_dropRunes {c : UInt8} (hc : ∀ r ∈ runes, c ∉ r) (n : ℕ) (y z : Bytes) :
    c :: z <:+ dropRunes runes n (y ++ c :: z) := by
  induction n generalizing y with
  | zero => exact List.suffix_append y _
  | succ n ih =>
    rw [dropRunes]
    cases hf : runes.find? (hasPrefix (y ++ c :: z) ·) with
    | none => exact List.suffix_append y _
    | some r =>
      have hr : r ∈ runes := List.mem_of_find?_eq_some hf
      have hpre : r <+: y ++ c :: z := hasPrefix_iff.1 (List.find?_some hf)
      have hlen : r.length ≤ y.length := by
        by_contra hlt
        have hy : y ++ [c] <+: y ++ c :: z := ⟨z, by simp⟩
        have hle : (y ++ [c]).length ≤ r.length := by
          rw [List.length_append, List.length_singleton]
          omega
        have hyr : y ++ [c] <+: r := List.prefix_of_prefix_length_le hy hpre hle
        exact hc r hr (hyr.subset (by simp))
      simp only [List.drop_append_of_le_length hlen]
      exact ih _

/-- A byte that is a member of the list and part of no other one is dropped. -/
theorem dropRunes_cons {c : UInt8} (hc : [c] ∈ runes) (honly : ∀ r ∈ runes, c ∈ r → r = [c])
    (hne : [] ∉ runes) (n : ℕ) (s : Bytes) :
    dropRunes runes (n + 1) (c :: s) = dropRunes runes n s := by
  have hfind : runes.find? (hasPrefix (c :: s) ·) = some [c] := by
    cases hf : runes.find? (hasPrefix (c :: s) ·) with
    | none => exact absurd (hasPrefix_iff.2 ⟨s, rfl⟩) (List.find?_eq_none.1 hf [c] hc)
    | some r =>
      have hr : r ∈ runes := List.mem_of_find?_eq_some hf
      have hpre : r <+: c :: s := hasPrefix_iff.1 (List.find?_some hf)
      cases r with
      | nil => exact absurd hr hne
      | cons d r =>
        obtain ⟨rfl, -⟩ := List.cons_prefix_cons.1 hpre
        rw [honly _ hr List.mem_cons_self]
  rw [dropRunes, hfind]
  rfl

end DropRunes

theorem trimSpace_eq_self {s : Bytes} (hfront : ∀ r ∈ whiteSpace, ¬ r <+: s)
    (hback : ∀ r ∈ whiteSpace, ¬ r <:+ s) : trimSpace s = s := by
  have hback' : ∀ r ∈ whiteSpace.map List.reverse, ¬ r <+: s.reverse := by
    simp only [List.forall_mem_map, List.reverse_prefix]
    exact hback
  simp only [trimSpace, dropRunes_eq_self hfront, dropRunes_eq_self hback', List.reverse_reverse]

theorem trimSpace_isPrefix (s : Bytes) : trimSpace s <+: dropRunes whiteSpace s.length s := by
  rw [trimSpace, ← List.reverse_suffix, List.reverse_reverse]
  exact dropRunes_isSuffix _ _ _

theorem trimSpace_isInfix (s : Bytes) : trimSpace s <:+: s :=
  (trimSpace_isPrefix s).isInfix.trans (dropRunes_isSuffix _ _ _).isInfix

theorem not_isPrefix_trimSpace (s : Bytes) : ∀ r ∈ whiteSpace, ¬ r <+: trimSpace s := by
  -- what is left is the front of a text that starts with no white space
  intro r hr hp
  exact not_isPrefix_dropRunes (by decide) (le_refl s.length) r hr (hp.trans (trimSpace_isPrefix s))

theorem not_isSuffix_trimSpace (s : Bytes) : ∀ r ∈ whiteSpace, ¬ r <:+ trimSpace s := by
  intro r hr hp
  rw [trimSpace, ← List.reverse_prefix, List.reverse_reverse] at hp
  exact not_isPrefix_dropRunes (by decide) (by rw [List.length_reverse]) r.reverse
    (List.mem_map_of_mem hr) hp

/-- **`TrimSpace` leaves nothing for another one to trim.** -/
theorem trimSpace_trimSpace (s : Bytes) : trimSpace (trimSpace s) = trimSpace s :=
  trimSpace_eq_self (not_isPrefix_trimSpace s) (not_isSuffix_trimSpace s)

/-- Of white space only the newline has a newline in it. -/
theorem eq_newline_of_mem : ∀ r ∈ whiteSpace, chr '\n' ∈ r → r = [chr '\n'] := by decide

theorem not_isPrefix_append_newline {e : Bytes} (h : ∀ r ∈ whiteSpace, ¬ r <+: e) (hne : e ≠ [])
    (z : Bytes) : ∀ r ∈ whiteSpace, ¬ r <+: e ++ chr '\n' :: z := by
  intro r hr hp
  rcases Nat.lt_or_ge e.length r.length with hlt | hle
  · have hline : e ++ [chr '\n'] <+: r :=
      List.prefix_of_prefix_length_le ⟨z, by simp⟩ hp (by rw [List.length_append]; exact hlt)
    have hlen := hline.length_le
    rw [eq_newline_of_mem r hr (hline.subset (by simp)), List.length_append] at hlen
    exact hne (List.length_eq_zero_iff.1 (by simpa using hlen))
  · exact h r hr (List.prefix_of_prefix_length_le hp (List.prefix_append e _) hle)

theorem not_isSuffix_newline_append {m : Bytes} (h : ∀ r ∈ whiteSpace, ¬ r <:+ m) (hne : m ≠ [])
    (z : Bytes) : ∀ r ∈ whiteSpace, ¬ r <:+ z ++ chr '\n' :: m := by
  intro r hr hp
  rcases Nat.lt_or_ge m.length r.length with hlt | hle
  · have hline : chr '\n' :: m <:+ r :=
      List.suffix_of_suffix_length_le (List.suffix_append z _) hp hlt
    have hlen := hline.length_le
    rw [eq_newline_of_mem r hr (hline.subset List.mem_cons_self), List.length_cons] at hlen
    exact hne (List.length_eq_zero_iff.1 (by simpa using hlen))
  · exact h r hr (List.suffix_of_suffix_length_le hp
      ((List.suffix_cons _ m).trans (List.suffix_append z _)) hle)

/-- **Two trimmed lines are a trimmed text**; what `TrimSpace` leaves of them if one is empty is the
other one. -/
theorem trimSpace_lines {e m : Bytes} (he : trimSpace e = e) (hm : trimSpace m = m) :
    trimSpace (e ++ chr '\n' :: m) =
      if e = [] then m else if m = [] then e else e ++ chr '\n' :: m := by
  have hfront (s : Bytes) (hs : trimSpace s = s) : ∀ r ∈ whiteSpace, ¬ r <+: s :=
    hs ▸ not_isPrefix_trimSpace s
  have hback (s : Bytes) (hs : trimSpace s = s) : ∀ r ∈ whiteSpace, ¬ r <:+ s :=
    hs ▸ not_isSuffix_trimSpace s
  have hback' (s : Bytes) (hs : trimSpace s = s) :
      ∀ r ∈ whiteSpace.map List.reverse, ¬ r <+: s.reverse := by
    simp only [List.forall_mem_map, List.reverse_prefix]
    exact hback s hs
  split_ifs with hnil hnil'
  · have hdrop : dropRunes whiteSpace (chr '\n' :: m).length (chr '\n' :: m) = m := by
      rw [List.length_cons, dropRunes_cons (by decide) eq_newline_of_mem (by decide),
        dropRunes_eq_self (hfront m hm)]
    rw [hnil, List.nil_append, trimSpace, hdrop, dropRunes_eq_self (hback' m hm),
      List.reverse_reverse]
  · have hrev : (e ++ [chr '\n']).reverse = chr '\n' :: e.reverse := by simp
    rw [hnil', trimSpace, dropRunes_eq_self (not_isPrefix_append_newline (hfront e he) hnil []),
      hrev, List.length_append, List.length_singleton,
      dropRunes_cons (by decide) (by decide) (by decide), dropRunes_eq_self (hback' e he),
      List.reverse_reverse]
  · exact trimSpace_eq_self (not_isPrefix_append_newline (hfront e he) hnil m)
      (not_isSuffix_newline_append (hback m hm) hnil' e)

/-- A text that starts with a byte that is no white space starts with it when it is trimmed, and
with whatever leads up to another such byte. -/
theorem isPrefix_trimSpace {y z : Bytes} {c : UInt8} (hy : ∀ r ∈ whiteSpace, ¬ r <+: y ++ c :: z)
    (hc : ∀ r ∈ whiteSpace, c ∉ r) : y ++ [c] <+: trimSpace (y ++ c :: z) := by
  have hreverse : (y ++ c :: z).reverse = z.reverse ++ c :: y.reverse := by simp
  rw [trimSpace, dropRunes_eq_self hy, ← List.reverse_suffix, List.reverse_reverse, hreverse,
    List.reverse_append, List.reverse_singleton, List.singleton_append]
  refine isSuffix_dropRunes ?_ _ _ _
  simpa only [List.forall_mem_map, List.mem_reverse] using hc

/-- A byte that is no white space is not trimmed. -/
theorem mem_trimSpace {s : Bytes} {c : UInt8} (hc : ∀ r ∈ whiteSpace, c ∉ r) (hs : c ∈ s) :
    c ∈ trimSpace s := by
  obtain ⟨y, z, rfl⟩ := List.append_of_mem hs
  have hfront : c ∈ dropRunes whiteSpace (y ++ c :: z).length (y ++ c :: z) :=
    (isSuffix_dropRunes hc _ y z).subset List.mem_cons_self
  rw [trimSpace, List.mem_reverse]
  generalize dropRunes whiteSpace (y ++ c :: z).length (y ++ c :: z) = s' at hfront
  obtain ⟨y', z', rfl⟩ := List.append_of_mem hfront
  simp only [List.reverse_append, List.reverse_cons, List.append_assoc, List.singleton_append]
  refine (isSuffix_dropRunes ?_ _ _ _).subset List.mem_cons_self
  simpa only [List.forall_mem_map, List.mem_reverse] using hc

/-- No white space anywhere. -/
def Solid (s : Bytes) : Prop := ∀ r ∈ whiteSpace, ¬ r <:+: s

theorem Solid.trimSpace {s : Bytes} (h : Solid s) : trimSpace s = s :=
  trimSpace_eq_self (fun r hr hp => h r hr hp.isInfix) fun r hr hp => h r hr hp.isInfix

theorem Solid.of_isInfix {s s' : Bytes} (h : Solid s) (hs : s' <:+: s) : Solid s' :=
  fun r hr hp => h r hr (hp.trans hs)

/-- The bytes that white space starts with. -/
theorem solid_of_forall {s : Bytes} (h : ∀ c ∈ s, 32 < c.toNat ∧ c.toNat < 128) : Solid s := by
  have hhead : ∀ r ∈ whiteSpace, ∃ c ∈ r, ¬ (32 < c.toNat ∧ c.toNat < 128) := by decide
  intro r hr hp
  obtain ⟨c, hc, hno⟩ := hhead r hr
  exact hno (h c (hp.subset hc))

theorem Solid.fieldsFrom {s : Bytes} (h : Solid s) (field : Bytes) :
    fieldsFrom s.length field s = [field.reverse ++ s].filter (· ≠ []) := by
  induction s generalizing field with
  | nil => simp [Strings.fieldsFrom]
  | cons c s ih =>
    have hnone : whiteSpace.find? (hasPrefix (c :: s) ·) = none :=
      List.find?_eq_none.2 fun r hr hp => h r hr (hasPrefix_iff.1 hp).isInfix
    rw [List.length_cons, Strings.fieldsFrom, hnone]
    simp only [ih (h.of_isInfix (List.suffix_cons c s).isInfix), List.reverse_cons,
      List.append_assoc, List.singleton_append]

/-- **A text without white space is one field.** -/
theorem Solid.fields {s : Bytes} (h : Solid s) (hne : s ≠ []) : fields s = [s] := by
  rw [Strings.fields, h.fieldsFrom, List.reverse_nil, List.nil_append]
  simp [hne]

theorem trimPrefix_isSuffix (s p : Bytes) : trimPrefix s p <:+ s := by
  rw [trimPrefix]
  split_ifs
  · exact List.drop_suffix _ _
  · exact List.suffix_rfl

/-! ## Two parts -/

theorem splitN_two_of_notMem {sep : UInt8} {s : Bytes} (h : sep ∉ s) : splitN sep 2 s = [s] := by
  rw [splitN, if_neg h]

theorem splitN_two_append {sep : UInt8} {a : Bytes} (h : sep ∉ a) (b : Bytes) :
    splitN sep 2 (a ++ sep :: b) = [a, b] := by
  have hne : ∀ c ∈ a, decide (c ≠ sep) = true := fun c hc =>
    decide_eq_true fun e => h (e ▸ hc)
  rw [splitN, if_pos (by simp), List.takeWhile_append_of_pos hne, List.dropWhile_append_of_pos hne,
    List.takeWhile_cons_of_neg (by simp), List.dropWhile_cons_of_neg (by simp), List.append_nil,
    List.drop_one, List.tail_cons, splitN]

theorem cutLast_append {c : UInt8} (a : Bytes) {b : Bytes} (h : c ∉ b) :
    cutLast c (a ++ c :: b) = some (a, b) := by
  have hne : ∀ x ∈ b.reverse, decide (x ≠ c) = true := fun x hx =>
    decide_eq_true fun e => h (e ▸ List.mem_reverse.1 hx)
  have hafter : ((a ++ c :: b).reverse.takeWhile (· ≠ c)).reverse = b := by
    rw [List.reverse_append, List.reverse_cons, List.append_assoc,
      List.takeWhile_append_of_pos hne, List.singleton_append,
      List.takeWhile_cons_of_neg (by simp), List.append_nil, List.reverse_reverse]
  have hlen : (a ++ c :: b).length - b.length - 1 = a.length := by
    rw [List.length_append, List.length_cons]
    omega
  simp only [cutLast, hafter, hlen, List.take_left, List.mem_append, List.mem_cons_self, or_true,
    if_true]

theorem exists_cutLast {c : UInt8} {s : Bytes} (h : c ∈ s) :
    ∃ a b, cutLast c s = some (a, b) ∧ s = a ++ c :: b ∧ c ∉ b := by
  obtain ⟨b, a, hs, hb⟩ := List.eq_append_cons_of_mem (List.mem_reverse.2 h)
  have hs' : s = a.reverse ++ c :: b.reverse := by
    rw [← List.reverse_reverse s, hs, List.reverse_append, List.reverse_cons, List.append_assoc,
      List.singleton_append]
  have hb' : c ∉ b.reverse := fun e => hb (List.mem_reverse.1 e)
  exact ⟨a.reverse, b.reverse, hs' ▸ cutLast_append a.reverse hb', hs', hb'⟩

/-! ## Trimming at both ends -/

theorem trimRight_isPrefix (s cutset : Bytes) : trimRight s cutset <+: s := by
  rw [trimRight, ← List.reverse_suffix, List.reverse_reverse]
  exact List.dropWhile_suffix _

theorem trim_isInfix (s cutset : Bytes) : trim s cutset <:+: s :=
  (trimRight_isPrefix _ cutset).isInfix.trans (List.dropWhile_suffix _).isInfix

/-- `Trim` leaves a text alone if and only if neither end is in the cut set. -/
theorem trim_eq_self_iff {s cutset : Bytes} :
    trim s cutset = s ↔
      (∀ c, s.head? = some c → c ∉ cutset) ∧ ∀ c, s.getLast? = some c → c ∉ cutset := by
  have hleft : trimLeft s cutset = s ↔ ∀ c, s.head? = some c → c ∉ cutset := by
    cases s with
    | nil => simp [trimLeft]
    | cons a s => simp [trimLeft, List.dropWhile_eq_self_iff]
  have hright : trimRight s cutset = s ↔ ∀ c, s.getLast? = some c → c ∉ cutset := by
    rcases List.eq_nil_or_concat s with rfl | ⟨s, a, rfl⟩
    · simp [trimRight]
    · rw [trimRight, List.reverse_eq_iff, List.dropWhile_eq_self_iff]
      simp
  rw [← hleft, ← hright]
  constructor
  · intro h
    -- nothing is cut at the back of what the front leaves, so the front leaves everything
    have hlen : (trim s cutset).length ≤ (trimLeft s cutset).length :=
      (trimRight_isPrefix _ cutset).length_le
    have hfront : trimLeft s cutset = s := by
      refine (List.dropWhile_suffix _).eq_of_length (le_antisymm ?_ ?_)
      · exact (List.dropWhile_suffix _).length_le
      · rw [h] at hlen
        exact hlen
    refine ⟨hfront, ?_⟩
    rw [trim, hfront] at h
    exact h
  · rintro ⟨hl, hr⟩
    rw [trim, hl, hr]

end NextPath.Strings
