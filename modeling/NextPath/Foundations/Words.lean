import Mathlib.Data.List.Lex
import Mathlib.Data.List.Infix
import Mathlib.Order.Lattice

/-!
# Prefix scans of sorted words

A sorted list of words is read once from the left, and a word is dropped when it extends the last
word kept by a separator. Were the separator the least letter, the extensions of a word by it would
follow the word at once and the scan would keep exactly the words that extend no other. It need not
be: a word that extends `u` by a smaller letter sorts between `u` and the extensions of `u` by the
separator, is kept, and hides `u` from the rest of the scan.

* `scan` is the scan, from the word kept last;
* `mem_scan_iff`: a word is kept if and only if each word it extends is hidden (`Hidden`);
* `exists_mem_scan`: whatever is dropped extends a word that is kept.
-/

namespace NextPath.Words

variable {α : Type*} [LinearOrder α]

/-! ## The lexicographic order and prefixes -/

theorem append_cons_lt (u : List α) {a b : α} (h : a < b) (s t : List α) :
    u ++ a :: s < u ++ b :: t :=
  List.append_left_lt (List.cons_lt_cons_iff.2 (.inl h))

theorem lt_append_cons (u : List α) (a : α) (s : List α) : u < u ++ a :: s := by
  have h : u ++ [] < u ++ a :: s := List.append_left_lt (List.nil_lt_cons a s)
  simpa using h

/-- A word between a word and an extension of it is itself an extension. -/
theorem isPrefix_of_le_of_le {u k w : List α} (huk : u ≤ k) (hkw : k ≤ w) (huw : u <+: w) :
    u <+: k := by
  induction u generalizing k w with
  | nil => exact List.nil_prefix
  | cons c u ih =>
    obtain ⟨w, rfl⟩ : ∃ w', w = c :: w' := by
      obtain ⟨t, rfl⟩ := huw
      exact ⟨u ++ t, rfl⟩
    cases k with
    | nil => exact absurd (List.nil_lt_cons c u) (not_lt.2 huk)
    | cons b k =>
      have hcb : ¬ b < c := fun h => not_lt.2 huk (List.cons_lt_cons_iff.2 (.inl h))
      have hbc : ¬ c < b := fun h => not_lt.2 hkw (List.cons_lt_cons_iff.2 (.inl h))
      obtain rfl : b = c := le_antisymm (not_lt.1 hbc) (not_lt.1 hcb)
      have huk' : u ≤ k := not_lt.1 fun h => not_lt.2 huk (List.cons_lt_cons_iff.2 (.inr ⟨rfl, h⟩))
      have hkw' : k ≤ w := not_lt.1 fun h => not_lt.2 hkw (List.cons_lt_cons_iff.2 (.inr ⟨rfl, h⟩))
      have huw' : u <+: w := (List.cons_prefix_cons.1 huw).2
      exact List.cons_prefix_cons.2 ⟨rfl, ih huk' hkw' huw'⟩

/-! ## The scan -/

variable (sep : α)

/-- `w` extends `u` by the separator. -/
def Extends (u w : List α) : Prop := u ++ [sep] <+: w

instance (u w : List α) : Decidable (Extends sep u w) := inferInstanceAs (Decidable (_ <+: _))

/-- The words kept after `k`, the word kept last. -/
def scanFrom (k : List α) : List (List α) → List (List α)
  | [] => []
  | w :: ws => if Extends sep k w then scanFrom k ws else w :: scanFrom w ws

/-- The words kept: the first one always is. -/
def scan : List (List α) → List (List α)
  | [] => []
  | w :: ws => w :: scanFrom sep w ws

/-- A word of `l` extends `u` by a letter below the separator, and so sorts between `u` and the
extensions of `u` by the separator. -/
def Hidden (l : List (List α)) (u : List α) : Prop := ∃ x ∈ l, ∃ a < sep, u ++ [a] <+: x

/-- Every word of `l` that `w` extends is hidden. -/
def Exposed (l : List (List α)) (w : List α) : Prop := ∀ u ∈ l, Extends sep u w → Hidden sep l u

variable {sep}

theorem Extends.lt {u w : List α} (h : Extends sep u w) : u < w := by
  obtain ⟨t, rfl⟩ := h
  simpa using lt_append_cons u sep t

omit [LinearOrder α] in
theorem Extends.trans {u v w : List α} (h : Extends sep u v) (h' : v <+: w) : Extends sep u w :=
  List.IsPrefix.trans h h'

omit [LinearOrder α] in
theorem Extends.isPrefix {u w : List α} (h : Extends sep u w) : u <+: w :=
  (List.prefix_append u [sep]).trans h

/-- What hides `u` sorts before whatever extends `u`. -/
theorem lt_of_isPrefix_of_extends {u x w : List α} {a : α} (ha : a < sep) (hx : u ++ [a] <+: x)
    (hw : Extends sep u w) : x < w := by
  obtain ⟨s, rfl⟩ := hx
  obtain ⟨t, rfl⟩ := hw
  simpa using append_cons_lt u ha s t

/-- The state of the scan after the words `pre` of the sorted list `l`: `k` was kept last, so it is
exposed, and the words after it extend it. -/
structure Scanned (sep : α) (l pre : List (List α)) (k : List α) : Prop where
  mem : k ∈ pre
  exposed : Exposed sep l k
  le_or : ∀ x ∈ pre, x ≤ k ∨ Extends sep k x

theorem pairwise_le_of_append {pre ws : List (List α)} {w : List α}
    (hl : (pre ++ w :: ws).Pairwise (· ≤ ·)) :
    (∀ x ∈ pre, x ≤ w) ∧ ∀ x ∈ pre ++ w :: ws, x < w → x ∈ pre := by
  obtain ⟨-, hws, hpre⟩ := List.pairwise_append.1 hl
  refine ⟨fun x hx => hpre x hx w List.mem_cons_self, fun x hx hlt => ?_⟩
  rcases List.mem_append.1 hx with h | h
  · exact h
  · rcases List.mem_cons.1 h with rfl | h
    · exact absurd hlt (lt_irrefl x)
    · exact absurd hlt (not_lt.2 (List.rel_of_pairwise_cons hws h))

/-- **The scan drops a word exactly when the word extends one that is not hidden.** -/
theorem Scanned.extends_iff {l pre ws : List (List α)} {k w : List α} (h : Scanned sep l pre k)
    (hl : l.Pairwise (· ≤ ·)) (hpre : l = pre ++ w :: ws) :
    Extends sep k w ↔ ¬ Exposed sep l w := by
  obtain ⟨hle, hmem⟩ := pairwise_le_of_append (hpre ▸ hl)
  rw [← hpre] at hmem
  have hkl : k ∈ l := hpre ▸ List.mem_append_left _ h.mem
  constructor
  · -- what hides `k` would lie between `k` and `w`, where the scan has seen extensions of `k` only
    intro hkw hexp
    obtain ⟨x, hx, a, ha, hax⟩ := hexp k hkl hkw
    have hxk : k < x := by
      obtain ⟨s, rfl⟩ := hax
      simpa using lt_append_cons k a s
    rcases h.le_or x (hmem x hx (lt_of_isPrefix_of_extends ha hax hkw)) with hxle | hext
    · exact absurd hxk (not_lt.2 hxle)
    · exact absurd (lt_of_isPrefix_of_extends ha hax hext) (lt_irrefl x)
  · intro hexp
    simp only [Exposed, not_forall] at hexp
    obtain ⟨u, hu, huw, hhid⟩ := hexp
    rcases h.le_or u (hmem u hu huw.lt) with huk | hku
    · -- `k` lies between `u` and its extension `w`: it is `u`, or it extends `u` by a letter
      obtain ⟨s, rfl⟩ := isPrefix_of_le_of_le huk (hle k h.mem) huw.isPrefix
      cases s with
      | nil => simpa using huw
      | cons a s =>
        have hak : u ++ [a] <+: u ++ a :: s := ⟨s, by simp⟩
        rcases lt_trichotomy a sep with ha | rfl | ha
        · exact absurd ⟨_, hkl, a, ha, hak⟩ hhid
        · exact absurd (h.exposed u hu hak) hhid
        · obtain ⟨t, rfl⟩ := huw
          have := append_cons_lt u ha t s
          exact absurd (hle _ h.mem) (not_le.2 (by simpa using this))
    · exact hku.trans huw.isPrefix

/-- What is kept has the property of what is kept after it. -/
theorem eq_or_and_iff {β : Type*} {v w : β} {p q : β → Prop} (hv : q v) :
    w = v ∨ p w ∧ q w ↔ (w = v ∨ p w) ∧ q w := by
  constructor
  · rintro (rfl | ⟨hw, he⟩)
    · exact ⟨.inl rfl, hv⟩
    · exact ⟨.inr hw, he⟩
  · rintro ⟨rfl | hw, he⟩
    · exact .inl rfl
    · exact .inr ⟨hw, he⟩

theorem mem_scanFrom_iff {l : List (List α)} (hl : l.Pairwise (· ≤ ·)) (ws : List (List α)) :
    ∀ (pre : List (List α)) (k : List α), l = pre ++ ws → Scanned sep l pre k →
      ∀ w, w ∈ scanFrom sep k ws ↔ w ∈ ws ∧ Exposed sep l w := by
  induction ws with
  | nil => simp [scanFrom]
  | cons v ws ih =>
    intro pre k hpre h w
    have hpre' : l = (pre ++ [v]) ++ ws := by simpa using hpre
    have hdrop := h.extends_iff hl hpre
    obtain ⟨hle, -⟩ := pairwise_le_of_append (hpre ▸ hl)
    rw [scanFrom]
    by_cases hkv : Extends sep k v
    · have hv : ¬ Exposed sep l v := hdrop.1 hkv
      have h' : Scanned sep l (pre ++ [v]) k := by
        refine ⟨List.mem_append_left _ h.mem, h.exposed, fun x hx => ?_⟩
        rcases List.mem_append.1 hx with hx | hx
        · exact h.le_or x hx
        · exact .inr (List.mem_singleton.1 hx ▸ hkv)
      rw [if_pos hkv, ih _ k hpre' h' w, List.mem_cons]
      refine ⟨fun ⟨hw, he⟩ => ⟨.inr hw, he⟩, ?_⟩
      rintro ⟨rfl | hw, he⟩
      · exact absurd he hv
      · exact ⟨hw, he⟩
    · have hv : Exposed sep l v := not_not.1 fun he => hkv (hdrop.2 he)
      have h' : Scanned sep l (pre ++ [v]) v := by
        refine ⟨by simp, hv, fun x hx => .inl ?_⟩
        rcases List.mem_append.1 hx with hx | hx
        · exact hle x hx
        · exact (List.mem_singleton.1 hx).le
      rw [if_neg hkv, List.mem_cons, ih _ v hpre' h' w, List.mem_cons]
      exact eq_or_and_iff hv

/-- **The scan keeps the exposed words**: those that extend only words hidden from them. -/
theorem mem_scan_iff {l : List (List α)} (hl : l.Pairwise (· ≤ ·)) (w : List α) :
    w ∈ scan sep l ↔ w ∈ l ∧ Exposed sep l w := by
  cases l with
  | nil => simp [scan]
  | cons v ws =>
    -- nothing sorts before the first word, so it extends no other
    have hv : Exposed sep (v :: ws) v := fun u hu huv => by
      rcases List.mem_cons.1 hu with rfl | hu
      · exact absurd huv.lt (lt_irrefl u)
      · exact absurd huv.lt (not_lt.2 (List.rel_of_pairwise_cons hl hu))
    have h : Scanned sep (v :: ws) [v] v :=
      ⟨List.mem_cons_self, hv, fun x hx => .inl (List.mem_singleton.1 hx).le⟩
    rw [scan, List.mem_cons, mem_scanFrom_iff hl ws [v] v rfl h w, List.mem_cons]
    exact eq_or_and_iff hv

theorem exists_mem_scanFrom (k : List α) (ws : List (List α)) :
    ∀ w ∈ ws, ∃ v ∈ k :: scanFrom sep k ws, v = w ∨ Extends sep v w := by
  induction ws generalizing k with
  | nil => simp
  | cons x ws ih =>
    intro w hw
    rw [scanFrom]
    by_cases hk : Extends sep k x
    · rw [if_pos hk]
      rcases List.mem_cons.1 hw with rfl | hw
      · exact ⟨k, List.mem_cons_self, .inr hk⟩
      · exact ih k w hw
    · rw [if_neg hk]
      rcases List.mem_cons.1 hw with rfl | hw
      · exact ⟨w, by simp, .inl rfl⟩
      · obtain ⟨v, hv, h⟩ := ih x w hw
        exact ⟨v, List.mem_cons_of_mem k hv, h⟩

/-- **A word that is dropped extends one that is kept.** -/
theorem exists_mem_scan (sep : α) (l : List (List α)) :
    ∀ w ∈ l, ∃ v ∈ scan sep l, v = w ∨ Extends sep v w := by
  cases l with
  | nil => simp
  | cons x ws =>
    intro w hw
    rcases List.mem_cons.1 hw with rfl | hw
    · exact ⟨w, List.mem_cons_self, .inl rfl⟩
    · exact exists_mem_scanFrom x ws w hw

end NextPath.Words
