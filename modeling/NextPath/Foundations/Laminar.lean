import Mathlib.Data.List.Basic
import Mathlib.Data.List.Pairwise
import Mathlib.Data.Nat.Find
import Mathlib.Data.Set.Lattice
import Mathlib.Order.CompletePartialOrder
import Mathlib.Order.Lattice

/-!
# Covers by nested blocks

Blocks are named sets of points such that two blocks that meet are nested, as the networks of an
address space are. A cover of a set is a list of disjoint blocks that make it up, and a minimal one
has as few of them as possible. In a minimal cover the blocks cannot be enlarged:

* `MinimalCover.exists_superset`: a block inside the set is inside a block of the cover;
* `MinimalCover.exists_subset`: a block of the cover contains one of those the set was made of;
* `exists_minimalCover`: a set that has a cover has a minimal one.
-/

namespace NextPath.Laminar

variable {ι α : Type*} {pts : ι → Set α} {ok : Set ι}

/-- Two blocks that have a point in common are nested. `ok` are the names of blocks. -/
structure IsLaminar (pts : ι → Set α) (ok : Set ι) : Prop where
  nonempty : ∀ i ∈ ok, (pts i).Nonempty
  nested : ∀ i ∈ ok, ∀ j ∈ ok, ∀ x ∈ pts i, x ∈ pts j → pts i ⊆ pts j ∨ pts j ⊆ pts i

/-- The points of a list of blocks. -/
def span (pts : ι → Set α) (l : List ι) : Set α := {x | ∃ i ∈ l, x ∈ pts i}

@[simp] theorem mem_span {l : List ι} {x : α} : x ∈ span pts l ↔ ∃ i ∈ l, x ∈ pts i := Iff.rfl

/-- Disjoint blocks that make up a set. -/
structure Cover (pts : ι → Set α) (ok : Set ι) (s : Set α) (l : List ι) : Prop where
  mem_ok : ∀ i ∈ l, i ∈ ok
  span_eq : span pts l = s
  disjoint : l.Pairwise fun i j => Disjoint (pts i) (pts j)

/-- A cover with as few blocks as possible. -/
structure MinimalCover (pts : ι → Set α) (ok : Set ι) (s : Set α) (l : List ι) : Prop extends
    Cover pts ok s l where
  length_le : ∀ l', Cover pts ok s l' → l.length ≤ l'.length

section Cover

variable {s : Set α} {l : List ι}

theorem Cover.exists_mem (h : Cover pts ok s l) {x : α} (hx : x ∈ s) : ∃ i ∈ l, x ∈ pts i := by
  rw [← h.span_eq] at hx
  exact hx

theorem Cover.mem_of_mem (h : Cover pts ok s l) {i : ι} (hi : i ∈ l) {x : α} (hx : x ∈ pts i) :
    x ∈ s := by
  rw [← h.span_eq]
  exact ⟨i, hi, hx⟩

/-- A point is in one block of a cover only. -/
theorem Cover.eq_of_mem (h : Cover pts ok s l) {i j : ι} (hi : i ∈ l) (hj : j ∈ l) {x : α}
    (hxi : x ∈ pts i) (hxj : x ∈ pts j) : i = j := by
  by_contra hne
  have : Std.Symm fun i j => Disjoint (pts i) (pts j) := ⟨fun _ _ hd => hd.symm⟩
  exact Set.disjoint_left.1 (h.disjoint.forall hi hj hne) hxi hxj

/-- A block inside the set replaces the blocks of the cover that are inside it. -/
theorem Cover.replace {i : ι} [DecidablePred fun j => pts j ⊆ pts i] (hlam : IsLaminar pts ok)
    (h : Cover pts ok s l) (hi : i ∈ ok) (hsub : pts i ⊆ s) (hno : ∀ j ∈ l, ¬ pts i ⊆ pts j) :
    Cover pts ok s (i :: l.filter fun j => ¬ pts j ⊆ pts i) where
  mem_ok j hj := by
    rcases List.mem_cons.1 hj with rfl | hj
    · exact hi
    · exact h.mem_ok j (List.mem_filter.1 hj).1
  span_eq := by
    ext x
    simp only [mem_span, List.mem_cons, List.mem_filter, decide_eq_true_eq, exists_eq_or_imp]
    constructor
    · rintro (hx | ⟨j, ⟨hj, -⟩, hx⟩)
      · exact hsub hx
      · exact h.mem_of_mem hj hx
    · intro hx
      obtain ⟨j, hj, hxj⟩ := h.exists_mem hx
      by_cases hji : pts j ⊆ pts i
      · exact .inl (hji hxj)
      · exact .inr ⟨j, ⟨hj, hji⟩, hxj⟩
  disjoint := by
    refine List.pairwise_cons.2 ⟨fun j hj => Set.disjoint_left.2 fun x hxi hxj => ?_,
      h.disjoint.filter _⟩
    obtain ⟨hjl, hji⟩ := List.mem_filter.1 hj
    rcases hlam.nested i hi j (h.mem_ok j hjl) x hxi hxj with hij | hij
    · exact hno j hjl hij
    · exact of_decide_eq_true hji hij

/-- A block that no block of the cover contains has two of them inside it. -/
theorem Cover.exists_two (hlam : IsLaminar pts ok) (h : Cover pts ok s l) {i : ι} (hi : i ∈ ok)
    (hsub : pts i ⊆ s) (hno : ∀ j ∈ l, ¬ pts i ⊆ pts j) :
    ∃ j ∈ l, ∃ k ∈ l, j ≠ k ∧ pts j ⊆ pts i ∧ pts k ⊆ pts i := by
  have hinside {x : α} (hx : x ∈ pts i) : ∃ j ∈ l, x ∈ pts j ∧ pts j ⊆ pts i := by
    obtain ⟨j, hj, hxj⟩ := h.exists_mem (hsub hx)
    exact ⟨j, hj, hxj,
      (hlam.nested i hi j (h.mem_ok j hj) x hx hxj).resolve_left (hno j hj)⟩
  obtain ⟨x, hx⟩ := hlam.nonempty i hi
  obtain ⟨j, hj, -, hji⟩ := hinside hx
  obtain ⟨y, hy, hyj⟩ := Set.not_subset.1 (hno j hj)
  obtain ⟨k, hk, hyk, hki⟩ := hinside hy
  refine ⟨j, hj, k, hk, ?_, hji, hki⟩
  rintro rfl
  exact hyj hyk

theorem two_le_length_of_mem {l : List ι} {j k : ι} (hj : j ∈ l) (hk : k ∈ l) (hne : j ≠ k) :
    2 ≤ l.length := by
  match l with
  | [] => simp at hj
  | [a] => exact absurd ((List.mem_singleton.1 hj).trans (List.mem_singleton.1 hk).symm) hne
  | _ :: _ :: l => simp

/-- **A block inside the set is inside a block of a minimal cover.** -/
theorem MinimalCover.exists_superset (hlam : IsLaminar pts ok) (h : MinimalCover pts ok s l)
    {i : ι} (hi : i ∈ ok) (hsub : pts i ⊆ s) : ∃ j ∈ l, pts i ⊆ pts j := by
  classical
  by_contra hall
  have hno : ∀ j ∈ l, ¬ pts i ⊆ pts j := fun j hj hij => hall ⟨j, hj, hij⟩
  -- two blocks at least are replaced by one
  obtain ⟨j, hj, k, hk, hne, hji, hki⟩ := h.toCover.exists_two hlam hi hsub hno
  have hle := h.length_le _ (h.toCover.replace hlam hi hsub hno)
  have htwo : 2 ≤ (l.filter fun j => pts j ⊆ pts i).length :=
    two_le_length_of_mem (List.mem_filter.2 ⟨hj, decide_eq_true hji⟩)
      (List.mem_filter.2 ⟨hk, decide_eq_true hki⟩) hne
  have hsum := List.length_eq_length_filter_add (l := l) fun j => decide (pts j ⊆ pts i)
  simp only [List.length_cons, decide_not] at hle
  omega

/-- **A block of a minimal cover contains one of the blocks that make up the set.** -/
theorem MinimalCover.exists_subset (hlam : IsLaminar pts ok) {nets : List ι}
    (hnets : ∀ i ∈ nets, i ∈ ok) (h : MinimalCover pts ok (span pts nets) l) {j : ι} (hj : j ∈ l) :
    ∃ i ∈ nets, pts i ⊆ pts j := by
  obtain ⟨x, hx⟩ := hlam.nonempty j (h.mem_ok j hj)
  obtain ⟨i, hi, hxi⟩ := h.mem_of_mem hj hx
  obtain ⟨k, hk, hik⟩ := h.exists_superset hlam (hnets i hi) fun y hy => ⟨i, hi, hy⟩
  obtain rfl := h.eq_of_mem hj hk hx (hik hxi)
  exact ⟨i, hi, hik⟩

theorem exists_minimalCover (h : Cover pts ok s l) : ∃ l', MinimalCover pts ok s l' := by
  classical
  have hex : ∃ n, ∃ l', Cover pts ok s l' ∧ l'.length = n := ⟨l.length, l, h, rfl⟩
  obtain ⟨l', hl', hlen⟩ := Nat.find_spec hex
  exact ⟨l', hl', fun l'' hl'' => hlen.trans_le (Nat.find_min' hex ⟨l'', hl'', rfl⟩)⟩

end Cover

end NextPath.Laminar
