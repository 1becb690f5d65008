import Mathlib.Data.List.Sort
import NextPath.Foundations.Words
import NextPath.Parser.Domain

/-!
# Collapsing domains

`CollapseDomains` sorts domains by their characters from the end and drops, in one pass, each one
that is below the last one kept. It is the scan of `Foundations.Words` on reversed names
(`map_reverse_collapseDomains`), with the dot as the separator. The hyphen sorts before the dot, so
that a domain ending in `-a` comes between `a` and the domains below `a`, and hides `a` from them:

* `mem_collapseDomains_iff`: which domains are kept;
* `mem_collapseDomains_iff_of_valid`: for valid names, those all of whose parents in the list are
  `Shadowed`;
* `exists_mem_collapseDomains`: every domain is at or below one that is kept;
* `collapseInPlace_eq`: the pass writes what it keeps over the slice it reads, and is this scan all
  the same;
* `lessByIndex_eq`: the comparison that counts back from the two ends compares the reversed names.
-/

namespace NextPath.Parser

open Strings Words

/-! ## The order of names -/

/-- `n` is a subdomain of `d`. -/
def StrictlyBelow (n d : Bytes) : Prop := chr '.' :: d <:+ n

/-- `n` is `d` or a subdomain of it. -/
def Below (n d : Bytes) : Prop := n = d ∨ StrictlyBelow n d

instance (n d : Bytes) : Decidable (StrictlyBelow n d) := inferInstanceAs (Decidable (_ <:+ _))

instance (n d : Bytes) : Decidable (Below n d) := inferInstanceAs (Decidable (_ ∨ _))

theorem StrictlyBelow.trans {n d e : Bytes} (h : StrictlyBelow n d) (h' : StrictlyBelow d e) :
    StrictlyBelow n e :=
  (List.IsSuffix.trans h' (List.suffix_cons _ d)).trans h

theorem Below.trans {n d e : Bytes} (h : Below n d) (h' : Below d e) : Below n e := by
  rcases h with rfl | h
  · exact h'
  · rcases h' with rfl | h'
    · exact .inr h
    · exact .inr (h.trans h')

theorem extends_reverse_iff {d n : Bytes} :
    Extends (chr '.') d.reverse n.reverse ↔ StrictlyBelow n d := by
  rw [Extends, StrictlyBelow, ← List.reverse_prefix, List.reverse_cons]

/-! ## Sorting -/

/-- The comparison of `domainSorter.Less`, on the characters from the end. -/
def lessFromEnd : Bytes → Bytes → Bool
  | ca :: a, cb :: b => if ca ≠ cb then ca < cb else lessFromEnd a b
  | [], _ :: _ => true
  | _, [] => false

/-- `domainSorter.Less`. -/
def less (a b : Bytes) : Bool := lessFromEnd a.reverse b.reverse

/-- `sort.Sort(domainSorter(domains))`. Two domains neither of which is less are equal, so the
order of the result does not depend on the algorithm. -/
def sortDomains (domains : List Bytes) : List Bytes :=
  domains.insertionSort fun a b => less b a = false

theorem lessFromEnd_iff (a b : Bytes) : lessFromEnd a b = true ↔ a < b := by
  induction a generalizing b with
  | nil =>
    cases b with
    | nil => simp [lessFromEnd]
    | cons cb b => simp [lessFromEnd]
  | cons ca a ih =>
    cases b with
    | nil => simp [lessFromEnd]
    | cons cb b =>
      rw [lessFromEnd, List.cons_lt_cons_iff]
      by_cases h : ca = cb
      · subst h
        simp [ih]
      · simp [h]

theorem less_iff {a b : Bytes} : less a b = true ↔ a.reverse < b.reverse := lessFromEnd_iff _ _

theorem less_eq_false_iff {a b : Bytes} : less b a = false ↔ a.reverse ≤ b.reverse := by
  rw [← not_lt, ← less_iff, Bool.not_eq_true]

/-- The rounds of the loop of `domainSorter.Less` that are left, the next one with this `k`. -/
def lessLoop (a b : Bytes) : ℕ → ℕ → Bool
  | 0, _ => a.length < b.length
  | rounds + 1, k =>
    let ca := a.getD (a.length - k) 0
    let cb := b.getD (b.length - k) 0
    if ca ≠ cb then ca < cb else lessLoop a b rounds (k + 1)

/-- `domainSorter.Less` as it runs: it indexes both strings back from their ends. -/
def lessByIndex (a b : Bytes) : Bool := lessLoop a b (min a.length b.length) 1

theorem drop_reverse_eq_cons {a : Bytes} {k : ℕ} (h : k < a.length) :
    a.reverse.drop k = a.getD (a.length - (k + 1)) 0 :: a.reverse.drop (k + 1) := by
  have hk : k < a.reverse.length := by rwa [List.length_reverse]
  rw [List.drop_eq_getElem_cons hk, List.getElem_reverse, List.getD_eq_getElem?_getD,
    List.getElem?_eq_getElem (by omega), Option.getD_some]
  simp only [Nat.sub_sub, Nat.add_comm 1 k]

theorem lessLoop_eq (a b : Bytes) (rounds : ℕ) :
    ∀ k, k + rounds = min a.length b.length →
      lessLoop a b rounds (k + 1) = lessFromEnd (a.reverse.drop k) (b.reverse.drop k) := by
  induction rounds with
  | zero =>
    -- the shorter string is read to its start
    intro k hk
    rw [lessLoop]
    rcases Nat.lt_or_ge a.length b.length with h | h
    · rw [List.drop_of_length_le (l := a.reverse) (by rw [List.length_reverse]; omega),
        drop_reverse_eq_cons (a := b) (by omega), lessFromEnd, decide_eq_true h]
    · rw [List.drop_of_length_le (l := b.reverse) (by rw [List.length_reverse]; omega),
        decide_eq_false (by omega)]
      cases a.reverse.drop k <;> rfl
  | succ rounds ih =>
    intro k hk
    rw [lessLoop, ih (k + 1) (by omega), drop_reverse_eq_cons (a := a) (k := k) (by omega),
      drop_reverse_eq_cons (a := b) (k := k) (by omega), lessFromEnd]

/-- **Counting back from both ends compares the reversed strings.** -/
theorem lessByIndex_eq (a b : Bytes) : lessByIndex a b = less a b := by
  rw [lessByIndex, lessLoop_eq a b _ 0 (by omega), List.drop_zero, List.drop_zero, less]

theorem mem_sortDomains {ds : List Bytes} {d : Bytes} : d ∈ sortDomains ds ↔ d ∈ ds :=
  List.mem_insertionSort _

theorem pairwise_reverse_sortDomains (ds : List Bytes) :
    ((sortDomains ds).map List.reverse).Pairwise (· ≤ ·) := by
  rw [List.pairwise_map]
  have : Std.Total fun a b : Bytes => less b a = false :=
    ⟨fun a b => by simp only [less_eq_false_iff]; exact le_total _ _⟩
  have : IsTrans Bytes fun a b => less b a = false :=
    ⟨fun a b c => by simp only [less_eq_false_iff]; exact le_trans⟩
  exact (List.pairwise_insertionSort _ ds).imp fun h => less_eq_false_iff.1 h

/-! ## Collapsing -/

/-- The loop of `CollapseDomains`, after its first round. -/
def collapseFrom (currentSuffix : Bytes) : List Bytes → List Bytes
  | [] => []
  | d :: ds =>
    if hasSuffix d currentSuffix then collapseFrom currentSuffix ds
    else d :: collapseFrom (chr '.' :: d) ds

/-- The loop of `CollapseDomains`. -/
def collapseSorted : List Bytes → List Bytes
  | [] => []
  | d :: ds => d :: collapseFrom (chr '.' :: d) ds

/-- `CollapseDomains`. -/
def collapseDomains (domains : List Bytes) : List Bytes := collapseSorted (sortDomains domains)

/-- The loop of `CollapseDomains` as it runs: `optimized` is the front of the slice that is read,
and the kept domains are written over it. -/
structure InPlace where
  domains : List Bytes
  kept : ℕ
  currentSuffix : Bytes

/-- One round of the loop. -/
def InPlace.round (s : InPlace) (i : ℕ) : InPlace :=
  let d := s.domains.getD i []
  if i = 0 ∨ ¬ hasSuffix d s.currentSuffix then
    ⟨s.domains.set s.kept d, s.kept + 1, chr '.' :: d⟩
  else s

/-- `optimized`. -/
def InPlace.optimized (s : InPlace) : List Bytes := s.domains.take s.kept

/-- `CollapseDomains` after the sort. -/
def collapseInPlace (domains : List Bytes) : List Bytes :=
  ((List.range domains.length).foldl InPlace.round ⟨domains, 0, []⟩).optimized

theorem getD_of_drop {l ds : List Bytes} {i : ℕ} {d : Bytes} (h : l.drop i = d :: ds) :
    l.getD i [] = d ∧ i < l.length ∧ l.drop (i + 1) = ds := by
  have hget : l[i]? = some d := by rw [← List.head?_drop, h, List.head?_cons]
  refine ⟨by rw [List.getD, hget, Option.getD_some], (List.getElem?_eq_some_iff.1 hget).1, ?_⟩
  rw [← List.tail_drop, h, List.tail_cons]

theorem InPlace.round_of_keep {s : InPlace} {i : ℕ} {d : Bytes} {ds : List Bytes}
    (hrest : s.domains.drop i = d :: ds) (hkept : s.kept ≤ i)
    (hkeep : i = 0 ∨ ¬ hasSuffix d s.currentSuffix) :
    (s.round i).domains.drop (i + 1) = ds ∧ (s.round i).kept = s.kept + 1 ∧
      (s.round i).currentSuffix = chr '.' :: d ∧
      (s.round i).optimized = s.optimized ++ [d] := by
  obtain ⟨hget, hi, htail⟩ := getD_of_drop hrest
  have hround : s.round i = ⟨s.domains.set s.kept d, s.kept + 1, chr '.' :: d⟩ := by
    simp only [InPlace.round, hget, if_pos hkeep]
  rw [hround]
  refine ⟨?_, rfl, rfl, ?_⟩
  · -- the write is behind the place that is read next
    rw [List.drop_set_of_lt (by omega), htail]
  · simp only [InPlace.optimized]
    rw [List.take_add_one, List.take_set_of_le (le_refl _), List.getElem?_set_self
      (lt_of_le_of_lt hkept hi)]
    rfl

theorem InPlace.foldl_round (ds : List Bytes) :
    ∀ (s : InPlace) (i : ℕ) (k : Bytes), s.domains.drop (i + 1) = ds → s.kept ≤ i + 1 →
      s.currentSuffix = chr '.' :: k →
      ((List.range' (i + 1) ds.length).foldl InPlace.round s).optimized =
        s.optimized ++ collapseFrom (chr '.' :: k) ds := by
  induction ds with
  | nil => simp [collapseFrom]
  | cons d ds ih =>
    intro s i k hrest hkept hsuffix
    rw [List.length_cons, List.range'_succ, List.foldl_cons, collapseFrom]
    by_cases hs : hasSuffix d (chr '.' :: k)
    · obtain ⟨hget, -, htail⟩ := getD_of_drop hrest
      have hround : s.round (i + 1) = s := by
        simp only [InPlace.round, hget, hsuffix]
        rw [if_neg (by simp [hs])]
      rw [hround, if_pos hs, ih s (i + 1) k htail (by omega) hsuffix]
    · obtain ⟨hdrop, hcount, hsuf, hopt⟩ := InPlace.round_of_keep hrest hkept
        (.inr (by rwa [hsuffix]))
      rw [if_neg hs, ih _ (i + 1) d hdrop (by omega) hsuf, hopt, List.append_assoc,
        List.singleton_append]

/-- **Writing over the slice that is read loses nothing.** -/
theorem collapseInPlace_eq (ds : List Bytes) : collapseInPlace ds = collapseSorted ds := by
  cases ds with
  | nil => rfl
  | cons d ds =>
    rw [collapseInPlace, List.length_cons, List.range_eq_range', List.range'_succ,
      List.foldl_cons, collapseSorted]
    obtain ⟨hdrop, hcount, hsuf, hopt⟩ :=
      InPlace.round_of_keep (s := ⟨d :: ds, 0, []⟩) (i := 0) rfl (le_refl 0) (.inl rfl)
    rw [InPlace.foldl_round ds _ 0 d hdrop (by rw [hcount]) hsuf, hopt]
    rfl

theorem collapseFrom_sublist (suffix : Bytes) (ds : List Bytes) :
    (collapseFrom suffix ds).Sublist ds := by
  induction ds generalizing suffix with
  | nil => exact List.Sublist.refl []
  | cons d ds ih =>
    rw [collapseFrom]
    split_ifs
    · exact (ih suffix).cons d
    · exact (ih _).cons_cons d

theorem collapseDomains_sublist (ds : List Bytes) :
    (collapseDomains ds).Sublist (sortDomains ds) := by
  rw [collapseDomains]
  cases sortDomains ds with
  | nil => exact List.Sublist.refl []
  | cons d ds => exact (collapseFrom_sublist _ ds).cons_cons d

theorem map_reverse_collapseFrom (k : Bytes) (ds : List Bytes) :
    (collapseFrom (chr '.' :: k) ds).map List.reverse =
      scanFrom (chr '.') k.reverse (ds.map List.reverse) := by
  induction ds generalizing k with
  | nil => rfl
  | cons d ds ih =>
    rw [collapseFrom, List.map_cons, scanFrom]
    by_cases h : StrictlyBelow d k
    · rw [if_pos (hasSuffix_iff.2 h), if_pos (extends_reverse_iff.2 h), ih]
    · rw [if_neg fun hs => h (hasSuffix_iff.1 hs), if_neg fun he => h (extends_reverse_iff.1 he),
        List.map_cons, ih]

/-- **`CollapseDomains` is the prefix scan of the reversed names.** -/
theorem map_reverse_collapseDomains (ds : List Bytes) :
    (collapseDomains ds).map List.reverse = scan (chr '.') ((sortDomains ds).map List.reverse) := by
  rw [collapseDomains]
  cases sortDomains ds with
  | nil => rfl
  | cons d ds =>
    rw [collapseSorted, List.map_cons, map_reverse_collapseFrom, List.map_cons, scan]

theorem mem_collapseDomains {ds : List Bytes} {d : Bytes} :
    d ∈ collapseDomains ds ↔ d.reverse ∈ scan (chr '.') ((sortDomains ds).map List.reverse) := by
  rw [← map_reverse_collapseDomains, List.mem_map_of_injective List.reverse_injective]

theorem mem_map_reverse {ds : List Bytes} {d : Bytes} :
    d.reverse ∈ (sortDomains ds).map List.reverse ↔ d ∈ ds := by
  rw [List.mem_map_of_injective List.reverse_injective, mem_sortDomains]

/-- **Which domains are kept**: those below only such domains of the list as another domain
extends by a character that sorts before the dot. -/
theorem mem_collapseDomains_iff {ds : List Bytes} {d : Bytes} :
    d ∈ collapseDomains ds ↔
      d ∈ ds ∧ ∀ a ∈ ds, StrictlyBelow d a → ∃ x ∈ ds, ∃ c < chr '.', c :: a <:+ x := by
  rw [mem_collapseDomains, mem_scan_iff (pairwise_reverse_sortDomains ds), mem_map_reverse]
  have hforall {P : Bytes → Prop} : (∀ x ∈ (sortDomains ds).map List.reverse, P x) ↔
      ∀ x ∈ ds, P x.reverse := by
    simp only [List.forall_mem_map, mem_sortDomains]
  have hexists {P : Bytes → Prop} : (∃ x ∈ (sortDomains ds).map List.reverse, P x) ↔
      ∃ x ∈ ds, P x.reverse := by
    simp only [List.mem_map, mem_sortDomains, exists_exists_and_eq_and]
  have hpre (a x : Bytes) (c : UInt8) : a.reverse ++ [c] <+: x.reverse ↔ c :: a <:+ x := by
    rw [← List.reverse_prefix, List.reverse_cons]
  simp only [Exposed, Hidden, hforall, hexists, extends_reverse_iff, hpre]

/-- **Every domain is at or below one that is kept.** -/
theorem exists_mem_collapseDomains {ds : List Bytes} {d : Bytes} (hd : d ∈ ds) :
    ∃ k ∈ collapseDomains ds, Below d k := by
  obtain ⟨v, hv, h⟩ := exists_mem_scan (chr '.') _ d.reverse (mem_map_reverse.2 hd)
  refine ⟨v.reverse, mem_collapseDomains.2 (by rwa [List.reverse_reverse]), ?_⟩
  rcases h with rfl | h
  · exact .inl (by rw [List.reverse_reverse])
  · exact .inr (extends_reverse_iff.1 (by rwa [List.reverse_reverse]))

/-- A domain of the list ends in a hyphen and `a`. -/
def Shadowed (ds : List Bytes) (a : Bytes) : Prop := ∃ x ∈ ds, chr '-' :: a <:+ x

instance (ds : List Bytes) (a : Bytes) : Decidable (Shadowed ds a) :=
  inferInstanceAs (Decidable (∃ x ∈ ds, _))

/-- **Which valid domains are kept**: those all of whose parents in the list are shadowed. -/
theorem mem_collapseDomains_iff_of_valid {ds : List Bytes} (h : ∀ d ∈ ds, Valid d) {d : Bytes} :
    d ∈ collapseDomains ds ↔ d ∈ ds ∧ ∀ a ∈ ds, StrictlyBelow d a → Shadowed ds a := by
  have hshadow (a : Bytes) : (∃ x ∈ ds, ∃ c < chr '.', c :: a <:+ x) ↔ Shadowed ds a := by
    constructor
    · rintro ⟨x, hx, c, hc, hs⟩
      obtain rfl := (h x hx).eq_hyphen_of_lt (hs.subset List.mem_cons_self) hc
      exact ⟨x, hx, hs⟩
    · rintro ⟨x, hx, hs⟩
      exact ⟨x, hx, chr '-', by decide, hs⟩
  simp only [mem_collapseDomains_iff, hshadow]

end NextPath.Parser
