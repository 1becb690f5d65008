import NextPath.Foundations.Paths
import NextPath.Parser.Disk
import NextPath.Parser.ReadBack

/-!
# Normal names

`normalizeDomain` cleans a name, tests its length, converts it to ASCII and checks the labels of the
result. The conversion of a label outside ASCII makes it longer, and nobody looks at the length of
the whole name again.

* `normalizeDomain_eq_nil_or`: a name is rejected, or it `Converts` to what is returned;
* `converts_iff_of_valid`: when a valid name converts;
* `IDNA.length_eq`: the length of the result, from the labels of the name;
* `normal_iff`: the result is well formed, and normalizing it changes nothing, if and only if the
  converted name is itself such a name, for which the lengths of its labels are decisive.
-/

namespace NextPath.Parser

open Strings Net

/-! ## Well-formed names -/

/-- A label of one to 63 letters, digits, underscores and inner hyphens. -/
structure IsLabel (l : Bytes) : Prop where
  pos : 1 ≤ l.length
  le : l.length ≤ 63
  bytes : ∀ c ∈ l, isAlnumOrU c = true ∨ c = chr '-'
  head : ∀ c, l.head? = some c → isAlnumOrU c = true
  last : ∀ c, l.getLast? = some c → isAlnumOrU c = true

theorem isLabel_of_isValidLabel {l : Bytes} (h : isValidLabel l = true) : IsLabel l := by
  have hbytes : ∀ c ∈ l, isAlnumOrU c = true ∨ c = chr '-' := fun c hc => by
    simpa [isLabelByte] using isLabelByte_of_mem h hc
  obtain ⟨a, ha, hal⟩ := head?_of_isValidLabel h
  obtain ⟨b, hb, hbl⟩ := getLast?_of_isValidLabel h
  simp only [isValidLabel, Bool.and_eq_true, decide_eq_true_eq] at h
  refine ⟨Nat.one_le_iff_ne_zero.2 h.1.1.1.1, h.1.1.1.2, hbytes, fun c hc => ?_, fun c hc => ?_⟩
  · rwa [← Option.some.inj (ha.symm.trans hc)]
  · rwa [← Option.some.inj (hb.symm.trans hc)]

/-- A name of at most 253 bytes with at least two labels. -/
structure WellFormed (n : Bytes) : Prop where
  length_le : n.length ≤ 253
  two_le : 2 ≤ (n.splitOn (chr '.')).length
  isLabel : ∀ l ∈ n.splitOn (chr '.'), IsLabel l

theorem two_le_length_splitOn_iff {n : Bytes} :
    2 ≤ (n.splitOn (chr '.')).length ↔ chr '.' ∈ n := by
  constructor
  · intro h
    by_contra hdot
    rw [List.splitOn_eq_singleton hdot, List.length_singleton] at h
    omega
  · intro hdot
    obtain ⟨l, s, rfl, -⟩ := List.eq_append_cons_of_mem hdot
    have hl := List.length_pos_iff.2 (List.splitOn_ne_nil (chr '.') l)
    have hs := List.length_pos_iff.2 (List.splitOn_ne_nil (chr '.') s)
    rw [List.splitOn_append_cons_self, List.length_append]
    omega

theorem contains_dot_iff {n : Bytes} : contains n (str ".") = true ↔ chr '.' ∈ n := by
  rw [contains_iff]
  exact ⟨fun h => h.subset List.mem_cons_self, fun h => by
    obtain ⟨l, s, rfl⟩ := List.append_of_mem h
    exact ⟨l, s, by rw [List.append_assoc]; rfl⟩⟩

/-! ## Conversion -/

/-- A name passes the tests of `normalizeDomain` before the conversion, which gives a valid name. -/
structure Converts (t : Tables) (s a : Bytes) : Prop where
  allowed : containsAny (trimPrefix (toLower t.toUnicode (trimSpace s)) (str "*."))
    (str "[]~:/?#\\@!$&'()*+,;=") = false
  dotted : chr '.' ∈ idnaInput t s
  length_le : (idnaInput t s).length ≤ 253
  toASCII_eq : t.toASCII (idnaInput t s) = some a
  valid : Valid a

section Conversion

variable {t : Tables} {s a : Bytes}

theorem Converts.normalizeDomain_eq (h : Converts t s a) : normalizeDomain t s = a := by
  have hvalid : (a.splitOn (chr '.')).all isValidLabel = true := List.all_eq_true.2 h.valid
  simp [normalizeDomain, ← idnaInput.eq_1, h.allowed, contains_dot_iff.2 h.dotted, h.length_le,
    h.toASCII_eq, hvalid]

/-- **A name is rejected or converted.** -/
theorem normalizeDomain_eq_nil_or (t : Tables) (s : Bytes) :
    normalizeDomain t s = [] ∨ Converts t s (normalizeDomain t s) := by
  rw [or_iff_not_imp_left]
  intro hne
  have hvalid := valid_normalizeDomain hne
  simp only [normalizeDomain, ← idnaInput.eq_1] at hne hvalid ⊢
  split_ifs at hne hvalid ⊢ with hallowed htest
  · exact absurd rfl hne
  · exact absurd rfl hne
  · rw [Bool.or_eq_true, not_or, Bool.not_eq_true', Bool.not_eq_false, decide_eq_true_eq,
      not_lt] at htest
    cases hascii : t.toASCII (idnaInput t s) with
    | none => simp [hascii] at hne
    | some a =>
      simp only [hascii] at hne hvalid ⊢
      split_ifs at hne hvalid ⊢
      · exact ⟨Bool.not_eq_true _ ▸ hallowed, contains_dot_iff.1 htest.1, htest.2, hascii, hvalid⟩
      · exact absurd rfl hne

theorem isLabelByte_lowerByte {c : UInt8} (h : isLabelByte c = true) :
    isLabelByte (lowerByte c) = true := by
  simp only [isLabelByte, Bool.or_eq_true, beq_iff_eq] at h ⊢
  rcases h with h | rfl
  · exact .inl (isAlnumOrU_lowerByte h)
  · exact .inr (by decide)

/-- No character of a valid name is one of those that `normalizeDomain` refuses. -/
theorem allowed_of_valid (h : Valid a) :
    containsAny (trimPrefix (toLower t.toUnicode (trimSpace a)) (str "*."))
      (str "[]~:/?#\\@!$&'()*+,;=") = false := by
  have hrefused : ∀ c ∈ str "[]~:/?#\\@!$&'()*+,;=", c ≠ chr '.' ∧ isLabelByte c = false := by
    decide +kernel
  rw [h.solid.trimSpace, toLower, if_pos h.isASCII, containsAny, List.any_eq_false]
  intro c hc hmem
  rw [List.contains_iff_mem] at hmem
  obtain ⟨b, hb, rfl⟩ := List.mem_map.1 ((trimPrefix_isSuffix _ _).subset hc)
  rcases h.eq_dot_or hb with rfl | hlabel
  · exact (hrefused _ hmem).1 (by decide)
  · exact Bool.false_ne_true ((hrefused _ hmem).2.symm.trans (isLabelByte_lowerByte hlabel))

/-- **When a valid name converts**: it has a dot, is not too long and its lower case converts. -/
theorem converts_iff_of_valid (h : Valid a) {b : Bytes} :
    Converts t a b ↔
      chr '.' ∈ a ∧ a.length ≤ 253 ∧ t.toASCII (a.map lowerByte) = some b ∧ Valid b := by
  have hinput := idnaInput_of_valid t h
  have hdot : chr '.' ∈ a.map lowerByte ↔ chr '.' ∈ a := by
    simp only [List.mem_map, lowerByte_eq_dot, exists_eq_right]
  constructor
  · rintro ⟨-, hdotted, hlen, hascii, hvalid⟩
    rw [hinput] at hdotted hlen hascii
    rw [List.length_map] at hlen
    exact ⟨hdot.1 hdotted, hlen, hascii, hvalid⟩
  · rintro ⟨hdotted, hlen, hascii, hvalid⟩
    refine ⟨allowed_of_valid h, ?_, ?_, ?_, hvalid⟩
    · rw [hinput, hdot]
      exact hdotted
    · rw [hinput, List.length_map]
      exact hlen
    · rw [hinput, hascii]

end Conversion

/-! ## Normal results -/

/-- The result for a text is empty or a well-formed name, and normalizing it changes nothing. -/
structure Normal (t : Tables) (s : Bytes) : Prop where
  wellFormed : normalizeDomain t s = [] ∨ WellFormed (normalizeDomain t s)
  fixed : normalizeDomain t (normalizeDomain t s) = normalizeDomain t s

/-- What is assumed of `strings.ToLower` and of `idna.ToASCII`: lower case leaves no capital of
ASCII; the conversion leaves ASCII names without `xn--` labels alone, goes label by label, takes
each label with characters outside ASCII to an `xn--` label in ASCII, brings in no capitals and,
done again, changes nothing. -/
structure IDNA (t : Tables) : Prop where
  lower : ∀ s, isASCII s = false → ∀ c ∈ t.lower s, lowerByte c = c
  ascii : ∀ d, isASCII d = true → (∀ l ∈ d.splitOn (chr '.'), hasPrefix l (str "xn--") = false) →
    t.toASCII d = some d
  labels : ∀ d a, t.toASCII d = some a → List.Forall₂
    (fun l l' => t.toASCII l = some l' ∧
      (isASCII l = false → isASCII l' = true ∧ hasPrefix l' (str "xn--") = true))
    (d.splitOn (chr '.')) (a.splitOn (chr '.'))
  capitals : ∀ d a, t.toASCII d = some a → (∀ c ∈ d, lowerByte c = c) → ∀ c ∈ a, lowerByte c = c
  idempotent : ∀ d a, t.toASCII d = some a → t.toASCII a = some a

section Normal

variable {t : Tables} {s a : Bytes}

theorem IDNA.lowerByte_of_mem_idnaInput (h : IDNA t) {c : UInt8} (hc : c ∈ idnaInput t s) :
    lowerByte c = c := by
  have hlower : c ∈ toLower t.toUnicode (trimSpace s) :=
    (trimPrefix_isSuffix _ _).subset ((trim_isInfix _ _).subset hc)
  rw [toLower] at hlower
  split_ifs at hlower with hascii
  · obtain ⟨b, -, rfl⟩ := List.mem_map.1 hlower
    exact lowerByte_lowerByte b
  · exact h.lower _ (Bool.not_eq_true _ ▸ hascii) c hlower

/-- The conversion keeps the dots, and a name it gives is in lower case. -/
theorem IDNA.of_converts (h : IDNA t) (ha : Converts t s a) :
    chr '.' ∈ a ∧ t.toASCII (a.map lowerByte) = some a := by
  constructor
  · rw [← two_le_length_splitOn_iff, ← (h.labels _ _ ha.toASCII_eq).length_eq,
      two_le_length_splitOn_iff]
    exact ha.dotted
  · have hlower : ∀ c ∈ a, lowerByte c = c :=
      h.capitals _ _ ha.toASCII_eq fun c hc => h.lowerByte_of_mem_idnaInput hc
    rw [List.map_congr_left (g := id) hlower, List.map_id]
    exact h.idempotent _ _ ha.toASCII_eq

/-- The name passes the tests before the conversion, the conversion accepts it, and each of its
labels is converted to a valid one. -/
structure Accepted (t : Tables) (s : Bytes) : Prop where
  allowed : containsAny (trimPrefix (toLower t.toUnicode (trimSpace s)) (str "*."))
    (str "[]~:/?#\\@!$&'()*+,;=") = false
  dotted : chr '.' ∈ idnaInput t s
  length_le : (idnaInput t s).length ≤ 253
  isSome : (t.toASCII (idnaInput t s)).isSome = true
  valid : ∀ l ∈ (idnaInput t s).splitOn (chr '.'), ∀ l', t.toASCII l = some l' →
    isValidLabel l' = true

/-- The lengths of the labels once they are converted, and of the dots between them. -/
def convertedLength (t : Tables) (d : Bytes) : ℕ :=
  ((d.splitOn (chr '.')).map fun l => ((t.toASCII l).getD []).length).sum + d.count (chr '.')

/-- **The length of a name that is converted** comes from its labels. -/
theorem IDNA.length_eq (h : IDNA t) {d : Bytes} (hd : t.toASCII d = some a) :
    a.length = convertedLength t d := by
  have hlabels := h.labels d a hd
  have hsum : ((a.splitOn (chr '.')).map List.length).sum =
      ((d.splitOn (chr '.')).map fun l => ((t.toASCII l).getD []).length).sum := by
    have hmap : (a.splitOn (chr '.')).map List.length =
        (d.splitOn (chr '.')).map fun l => ((t.toASCII l).getD []).length := by
      rw [← List.forall₂_eq_eq_eq, List.forall₂_map_left_iff, List.forall₂_map_right_iff]
      refine List.Forall₂.flip (hlabels.imp fun l l' hl => ?_)
      rw [flip, hl.1, Option.getD_some]
    rw [hmap]
  have hdots : a.count (chr '.') = d.count (chr '.') := by
    have := hlabels.length_eq
    rw [(Paths.length_splitOn d).1, (Paths.length_splitOn a).1] at this
    omega
  rw [(Paths.length_splitOn a).2, hsum, hdots, convertedLength]

theorem exists_of_mem_left {R : Bytes → Bytes → Prop} {as bs : List Bytes}
    (h : List.Forall₂ R as bs) {x : Bytes} (hx : x ∈ as) : ∃ y ∈ bs, R x y := by
  induction h with
  | nil => cases hx
  | cons hr _ ih =>
    rcases List.mem_cons.1 hx with rfl | hx
    · exact ⟨_, List.mem_cons_self, hr⟩
    · obtain ⟨y, hy, hr⟩ := ih hx
      exact ⟨y, List.mem_cons_of_mem _ hy, hr⟩

theorem exists_of_mem_right {R : Bytes → Bytes → Prop} {as bs : List Bytes}
    (h : List.Forall₂ R as bs) {y : Bytes} (hy : y ∈ bs) : ∃ x ∈ as, R x y :=
  exists_of_mem_left (R := flip R) (.flip h) hy

/-- A name is accepted if and only if it converts. -/
theorem IDNA.accepted_iff (h : IDNA t) : Accepted t s ↔ ∃ a, Converts t s a := by
  constructor
  · intro hs
    obtain ⟨a, ha⟩ := Option.isSome_iff_exists.1 hs.isSome
    refine ⟨a, hs.allowed, hs.dotted, hs.length_le, ha, fun l' hl' => ?_⟩
    obtain ⟨l, hl, hconv⟩ := exists_of_mem_right (h.labels _ _ ha) hl'
    exact hs.valid l hl l' hconv.1
  · rintro ⟨a, ha⟩
    refine ⟨ha.allowed, ha.dotted, ha.length_le, by rw [ha.toASCII_eq]; rfl, fun l hl l' hl' => ?_⟩
    obtain ⟨l'', hmem, hconv⟩ := exists_of_mem_left (h.labels _ _ ha.toASCII_eq) hl
    obtain rfl := Option.some.inj (hl'.symm.trans hconv.1)
    exact ha.valid l' hmem

/-- A result is normal if and only if the name that is returned converts to itself. -/
theorem normal_iff_converts :
    Normal t s ↔ ∀ a, Converts t s a →
      chr '.' ∈ a ∧ a.length ≤ 253 ∧ t.toASCII (a.map lowerByte) = some a := by
  constructor
  · rintro ⟨-, hfixed⟩ a ha
    rw [ha.normalizeDomain_eq] at hfixed
    rcases normalizeDomain_eq_nil_or t a with hnil | hconv
    · exact absurd (hfixed.symm.trans hnil) ha.valid.ne_nil
    · rw [hfixed] at hconv
      obtain ⟨hdot, hlen, hascii, -⟩ := (converts_iff_of_valid ha.valid).1 hconv
      exact ⟨hdot, hlen, hascii⟩
  · intro h
    rcases normalizeDomain_eq_nil_or t s with hnil | hconv
    · exact ⟨.inl hnil, by rw [hnil, normalizeDomain_nil]⟩
    · obtain ⟨hdot, hlen, hascii⟩ := h _ hconv
      refine ⟨.inr ⟨hlen, two_le_length_splitOn_iff.2 hdot, fun l hl =>
        isLabel_of_isValidLabel (hconv.valid l hl)⟩, ?_⟩
      exact ((converts_iff_of_valid hconv.valid).2
        ⟨hdot, hlen, hascii, hconv.valid⟩).normalizeDomain_eq

end Normal

/-- **When a result is normal.** The name that is returned must have a dot, at most 253 bytes and a
lower case that converts to it. What is assumed of the conversion gives all of this but the bound:
the length is tested before the conversion only. So a name that is accepted must have labels that
are short enough once they are converted. -/
theorem normal_iff (t : Tables) (s : Bytes) :
    (Normal t s ↔ ∀ a, Converts t s a →
      chr '.' ∈ a ∧ a.length ≤ 253 ∧ t.toASCII (a.map lowerByte) = some a) ∧
    (IDNA t → (Normal t s ↔ (Accepted t s → convertedLength t (idnaInput t s) ≤ 253))) := by
  refine ⟨normal_iff_converts, fun hidna => normal_iff_converts.trans ?_⟩
  constructor
  · intro h hs
    obtain ⟨a, ha⟩ := hidna.accepted_iff.1 hs
    rw [← hidna.length_eq ha.toASCII_eq]
    exact (h a ha).2.1
  · intro h a ha
    obtain ⟨hdot, hascii⟩ := hidna.of_converts ha
    refine ⟨hdot, ?_, hascii⟩
    rw [hidna.length_eq ha.toASCII_eq]
    exact h (hidna.accepted_iff.2 ⟨a, ha⟩)

/-! ## A conversion -/

/-- A label in ASCII: `xn--` and the bytes of the label in hexadecimal. -/
def hexLabel (l : Bytes) : Bytes := if isASCII l then l else str "xn--" ++ hexString l

/-- Tables with a conversion that is simpler than Punycode. -/
def hexTables : Tables where
  lower s := s.map lowerByte
  toASCII d := some (joinWith (chr '.') ((d.splitOn (chr '.')).map hexLabel))

theorem digitChar_plain : ∀ d < 16,
    digitChar d < 0x80 ∧ digitChar d ≠ chr '.' ∧ lowerByte (digitChar d) = digitChar d := by
  decide

/-- The characters of a converted label are plain or those of the label. -/
theorem mem_hexLabel {l : Bytes} {c : UInt8} (hc : c ∈ hexLabel l) :
    isASCII l = true ∧ c ∈ l ∨ c < 0x80 ∧ c ≠ chr '.' ∧ lowerByte c = c := by
  rw [hexLabel] at hc
  split_ifs at hc with hascii
  · exact .inl ⟨hascii, hc⟩
  · right
    rcases List.mem_append.1 hc with hc | hc
    · have hplain : ∀ c ∈ str "xn--", c < 0x80 ∧ c ≠ chr '.' ∧ lowerByte c = c := by
        decide +kernel
      exact hplain c hc
    · obtain ⟨x, -, hx⟩ := List.mem_flatMap.1 hc
      have hlt : x.toNat < 256 := x.toNat_lt
      rcases List.mem_cons.1 hx with rfl | hx
      · exact digitChar_plain _ (by omega)
      · rw [List.mem_singleton.1 hx]
        exact digitChar_plain _ (by omega)

theorem isASCII_hexLabel (l : Bytes) : isASCII (hexLabel l) = true := by
  refine List.all_eq_true.2 fun c hc => ?_
  rcases mem_hexLabel hc with ⟨hascii, hcl⟩ | ⟨hlt, -⟩
  · exact List.all_eq_true.1 hascii c hcl
  · exact decide_eq_true hlt

theorem hexLabel_hexLabel (l : Bytes) : hexLabel (hexLabel l) = hexLabel l := by
  rw [hexLabel, if_pos (isASCII_hexLabel l)]

/-- The labels of a converted name. -/
theorem splitOn_toASCII {d a : Bytes} (h : hexTables.toASCII d = some a) :
    a.splitOn (chr '.') = (d.splitOn (chr '.')).map hexLabel := by
  obtain rfl := Option.some.inj h
  refine splitOn_joinWith (fun f hf hdot => ?_) (by simp [List.splitOn_ne_nil])
  obtain ⟨l, hl, rfl⟩ := List.mem_map.1 hf
  rcases mem_hexLabel hdot with ⟨-, hdot⟩ | ⟨-, hdot, -⟩
  · exact (Paths.of_mem_splitOn hl).1 hdot
  · exact hdot rfl

theorem toASCII_eq_self {d : Bytes} (h : (d.splitOn (chr '.')).map hexLabel = d.splitOn (chr '.')) :
    hexTables.toASCII d = some d := by
  change some (joinWith (chr '.') ((d.splitOn (chr '.')).map hexLabel)) = some d
  rw [h, joinWith, List.intercalate_splitOn]

/-- **This conversion has what is assumed.** -/
theorem idna_hexTables : IDNA hexTables where
  lower s _ c hc := by
    obtain ⟨b, -, rfl⟩ := List.mem_map.1 hc
    exact lowerByte_lowerByte b
  ascii d hascii _ := by
    refine toASCII_eq_self ((List.map_congr_left (g := id) fun l hl => ?_).trans (List.map_id _))
    have hl : isASCII l = true := List.all_eq_true.2 fun c hc =>
      List.all_eq_true.1 hascii c ((Paths.of_mem_splitOn hl).2 hc)
    rw [hexLabel, if_pos hl, id]
  labels d a h := by
    rw [splitOn_toASCII h, List.forall₂_map_right_iff, List.forall₂_same]
    refine fun l hl => ⟨?_, fun hascii => ⟨isASCII_hexLabel l, hasPrefix_iff.2 ?_⟩⟩
    · change some (joinWith (chr '.') ((l.splitOn (chr '.')).map hexLabel)) = some (hexLabel l)
      rw [List.splitOn_eq_singleton (Paths.of_mem_splitOn hl).1]
      simp [joinWith]
    rw [hexLabel, if_neg (by rw [hascii]; exact Bool.false_ne_true)]
    exact List.prefix_append _ _
  capitals d a h hlower c hc := by
    obtain rfl := Option.some.inj h
    rcases mem_joinWith hc with rfl | ⟨f, hf, hcf⟩
    · decide
    · obtain ⟨l, hl, rfl⟩ := List.mem_map.1 hf
      rcases mem_hexLabel hcf with ⟨-, hcl⟩ | ⟨-, -, hplain⟩
      · exact hlower c ((Paths.of_mem_splitOn hl).2 hcl)
      · exact hplain
  idempotent d a h := by
    refine toASCII_eq_self ?_
    rw [splitOn_toASCII h, List.map_map]
    exact List.map_congr_left fun l _ => hexLabel_hexLabel l

/-- The name `*.Bücher.Example.` between blanks. -/
def bookName : Bytes := str " *.B" ++ [0xc3, 0xbc] ++ str "cher.Example. "

/-- Its result is `xn--62c3bc63686572.example`. -/
theorem normal_bookName : Normal hexTables bookName := by
  refine ((normal_iff hexTables bookName).2 idna_hexTables).2 fun _ => ?_
  have hlength : convertedLength hexTables (idnaInput hexTables bookName) = 26 := by decide +kernel
  omega

/-- Thirty-two labels `ä`: 95 bytes. -/
def longName : Bytes := joinWith (chr '.') (List.replicate 32 [0xc3, 0xa4])

/-- **A name that grows.** Each of its labels is converted to eight bytes; the result is too long,
and normalizing it once more gives nothing. -/
theorem not_normal_longName :
    IDNA hexTables ∧ longName.length = 95 ∧ ¬ Normal hexTables longName ∧
      (normalizeDomain hexTables longName).length = 287 ∧
      ¬ WellFormed (normalizeDomain hexTables longName) ∧
      normalizeDomain hexTables (normalizeDomain hexTables longName) = [] := by
  have hlen : (normalizeDomain hexTables longName).length = 287 := by decide +kernel
  have hagain : normalizeDomain hexTables (normalizeDomain hexTables longName) = [] := by
    decide +kernel
  refine ⟨idna_hexTables, by decide +kernel, fun h => ?_, hlen, fun h => ?_, hagain⟩
  · have hnil := h.fixed.symm.trans hagain
    rw [hnil] at hlen
    exact absurd hlen (by decide)
  · have hle := h.length_le
    omega

end NextPath.Parser
