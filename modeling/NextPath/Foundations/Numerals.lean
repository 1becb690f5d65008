import Mathlib.Data.Nat.Digits.Lemmas
import Mathlib.Tactic.IntervalCases
import NextPath.Foundations.Bytes

/-!
# Numerals

The digits of a number in a base up to sixteen, most significant first and without leading
zeros, and the reading of such a text. `readNumeral_numeral` says that a number is read back
from its numeral; `numeral_digits` and `numeral_head` say which texts the numerals are.
`decimal` is the numeral of an integer; `decimal_append_inj` says when it can be told from the text
that follows it.
-/

namespace NextPath

/-- The digit of a value below sixteen. -/
def digitChar (d : ℕ) : UInt8 := if d < 10 then UInt8.ofNat (48 + d) else UInt8.ofNat (87 + d)

/-- The value of a digit in base `b`; hexadecimal digits may be of either case. -/
def digitVal (b : ℕ) (c : UInt8) : Option ℕ :=
  let v :=
    if 48 ≤ c.toNat ∧ c.toNat ≤ 57 then c.toNat - 48
    else if 97 ≤ c.toNat ∧ c.toNat ≤ 102 then c.toNat - 87
    else if 65 ≤ c.toNat ∧ c.toNat ≤ 70 then c.toNat - 55
    else 16
  if v < b then some v else none

/-- The numeral of `n` in base `b`. -/
def numeral (b n : ℕ) : Bytes :=
  if n = 0 then [digitChar 0] else (b.digits n).reverse.map digitChar

/-- The value of a numeral in base `b`: none for the empty text and for one that holds anything
but digits. -/
def readNumeral (b : ℕ) (s : Bytes) : Option ℕ :=
  if s = [] then none else s.foldlM (fun acc c => (digitVal b c).map (acc * b + ·)) 0

variable {b : ℕ}

theorem toNat_digitChar {d : ℕ} (h : d < 16) :
    (digitChar d).toNat = if d < 10 then 48 + d else 87 + d := by
  interval_cases d <;> rfl

theorem digitVal_digitChar (hb : b ≤ 16) {d : ℕ} (h : d < b) :
    digitVal b (digitChar d) = some d := by
  have hc := toNat_digitChar (lt_of_lt_of_le h hb)
  unfold digitVal
  rw [hc]
  by_cases h10 : d < 10
  · have e : 48 + d - 48 = d := by omega
    simp only [h10, if_true, e, show 48 ≤ 48 + d ∧ 48 + d ≤ 57 by omega, and_self, h]
  · have e : 87 + d - 87 = d := by omega
    simp only [h10, if_false, e, show ¬(48 ≤ 87 + d ∧ 87 + d ≤ 57) by omega,
      show 97 ≤ 87 + d ∧ 87 + d ≤ 102 by omega, and_self, if_true, h]

/-- Reading digits, most significant first, onto a value already read. -/
theorem foldlM_digits (hb : b ≤ 16) (ds : List ℕ) (h : ∀ d ∈ ds, d < b) (acc : ℕ) :
    (ds.reverse.map digitChar).foldlM (fun acc c => (digitVal b c).map (acc * b + ·)) acc =
      some (acc * b ^ ds.length + Nat.ofDigits b ds) := by
  induction ds with
  | nil => simp
  | cons d ds ih =>
    have hd := digitVal_digitChar hb (h d (by simp))
    rw [List.reverse_cons, List.map_append, List.foldlM_append,
      ih fun d' hd' => h d' (by simp [hd'])]
    simp only [List.map_cons, List.map_nil, List.foldlM_cons, List.foldlM_nil, hd,
      Option.map_some, Nat.ofDigits_cons, List.length_cons, bind_pure]
    simp only [Option.bind_eq_bind, Option.bind_some, Option.some.injEq]
    rw [pow_succ]
    ring

theorem numeral_ne_nil (n : ℕ) : numeral b n ≠ [] := by
  unfold numeral
  split_ifs with h
  · simp
  · simpa [List.map_eq_nil_iff, Nat.digits_eq_nil_iff_eq_zero] using h

/-- **A number is read back from its numeral.** -/
theorem readNumeral_numeral (hb : 1 < b) (hb' : b ≤ 16) (n : ℕ) :
    readNumeral b (numeral b n) = some n := by
  rw [readNumeral, if_neg (numeral_ne_nil n)]
  unfold numeral
  split_ifs with h
  · subst h
    have := digitVal_digitChar hb' (d := 0) (by omega)
    simp [this]
  · rw [foldlM_digits hb' _ fun d hd => Nat.digits_lt_base hb hd]
    simp [Nat.ofDigits_digits]

theorem numeral_injective (hb : 1 < b) (hb' : b ≤ 16) : Function.Injective (numeral b) :=
  fun m n h => by
    have := readNumeral_numeral hb hb' m
    rw [h, readNumeral_numeral hb hb'] at this
    exact (Option.some.inj this).symm

/-- Every character of a numeral is a digit of its base. -/
theorem numeral_digits (hb : 1 < b) (n : ℕ) : ∀ c ∈ numeral b n, ∃ d < b, c = digitChar d := by
  unfold numeral
  split_ifs with h
  · simp only [List.mem_singleton, forall_eq]
    exact ⟨0, by omega, rfl⟩
  · intro c hc
    obtain ⟨d, hd, rfl⟩ := List.mem_map.mp hc
    exact ⟨d, Nat.digits_lt_base hb (List.mem_reverse.mp hd), rfl⟩

/-- A numeral of more than one digit does not start with a zero. -/
theorem numeral_head (hb : 1 < b) (hb' : b ≤ 16) (n : ℕ) (h : (numeral b n).length ≠ 1) :
    (numeral b n).head? ≠ some (digitChar 0) := by
  unfold numeral at h ⊢
  split_ifs at h ⊢ with h0
  · simp at h
  · have hne : b.digits n ≠ [] := Nat.digits_ne_nil_iff_ne_zero.mpr h0
    rw [List.head?_map, List.head?_reverse, List.getLast?_eq_some_getLast hne]
    simp only [Option.map_some, ne_eq, Option.some.injEq]
    intro e
    have hlt := Nat.digits_lt_base hb (List.getLast_mem hne)
    have e' := digitVal_digitChar hb' hlt
    rw [e, digitVal_digitChar hb' (by omega)] at e'
    exact Nat.getLast_digit_ne_zero b h0 (Option.some.inj e').symm

theorem length_numeral_le (hb : 1 < b) {n k : ℕ} (h : n < b ^ (k + 1)) :
    (numeral b n).length ≤ k + 1 := by
  unfold numeral
  split_ifs with h0
  · simp
  · rw [List.length_map, List.length_reverse]
    exact (Nat.digits_length_le_iff hb n).mpr h

/-! ## Decimal numerals in a longer text -/

/-- A decimal digit. -/
def isDigit (c : UInt8) : Bool := 48 ≤ c.toNat && c.toNat ≤ 57

/-- The numeral of an integer, as `%d` writes it. -/
def decimal (n : ℤ) : Bytes :=
  if n < 0 then chr '-' :: numeral 10 n.natAbs else numeral 10 n.natAbs

/-- The number of digits a text starts with. -/
def leadingDigits (s : Bytes) : ℕ := (s.takeWhile isDigit).length

theorem isDigit_of_mem_numeral {n : ℕ} {c : UInt8} (h : c ∈ numeral 10 n) : isDigit c = true := by
  obtain ⟨d, hd, rfl⟩ := numeral_digits (by omega) n c h
  interval_cases d <;> rfl

/-- Two runs of digits are the same if the same number of digits follows them. -/
theorem eq_of_append_digits {a a' r r' : Bytes} (ha : ∀ c ∈ a, isDigit c = true)
    (ha' : ∀ c ∈ a', isDigit c = true) (hr : leadingDigits r = leadingDigits r')
    (h : a ++ r = a' ++ r') : a = a' ∧ r = r' := by
  have hlen := congrArg leadingDigits h
  rw [leadingDigits, leadingDigits, List.takeWhile_append_of_pos ha,
    List.takeWhile_append_of_pos ha', List.length_append, List.length_append] at hlen
  rw [leadingDigits, leadingDigits] at hr
  exact List.append_inj h (by omega)

theorem numeral_append_inj {m n : ℕ} {r r' : Bytes} (hr : leadingDigits r = leadingDigits r')
    (h : numeral 10 m ++ r = numeral 10 n ++ r') : m = n ∧ r = r' := by
  obtain ⟨hnum, hrest⟩ := eq_of_append_digits (fun _ => isDigit_of_mem_numeral)
    (fun _ => isDigit_of_mem_numeral) hr h
  exact ⟨numeral_injective (by omega) (by omega) hnum, hrest⟩

theorem head_numeral_ne (n : ℕ) (r t : Bytes) : numeral 10 n ++ r ≠ chr '-' :: t := by
  intro h
  obtain ⟨c, s, hs⟩ := List.exists_cons_of_ne_nil (numeral_ne_nil n (b := 10))
  rw [hs, List.cons_append, List.cons.injEq] at h
  have hc := isDigit_of_mem_numeral (hs ▸ List.mem_cons_self : c ∈ numeral 10 n)
  rw [h.1] at hc
  exact absurd hc (by decide)

/-- **An integer is told from the text after it** by how many digits that text starts with. -/
theorem decimal_append_inj {m n : ℤ} {r r' : Bytes} (hr : leadingDigits r = leadingDigits r')
    (h : decimal m ++ r = decimal n ++ r') : m = n ∧ r = r' := by
  unfold decimal at h
  split_ifs at h with hm hn hn
  · obtain ⟨habs, hrest⟩ := numeral_append_inj hr (List.cons.inj h).2
    exact ⟨by omega, hrest⟩
  · exact absurd h.symm (head_numeral_ne _ _ _)
  · exact absurd h (head_numeral_ne _ _ _)
  · obtain ⟨habs, hrest⟩ := numeral_append_inj hr h
    exact ⟨by omega, hrest⟩

theorem leadingDigits_append {s : Bytes} (h : ∃ c ∈ s, isDigit c = false) (t : Bytes) :
    leadingDigits (s ++ t) = leadingDigits s := by
  induction s with
  | nil => simp at h
  | cons x s ih =>
    by_cases hx : isDigit x = true
    · have hs : ∃ c ∈ s, isDigit c = false := by
        obtain ⟨c, hc, hd⟩ := h
        rcases List.mem_cons.1 hc with rfl | hc
        · simp [hx] at hd
        · exact ⟨c, hc, hd⟩
      have := ih hs
      simp only [leadingDigits] at this
      simp [leadingDigits, hx, this]
    · simp [leadingDigits, hx]

end NextPath
