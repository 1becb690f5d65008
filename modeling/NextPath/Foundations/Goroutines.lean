import Mathlib.Algebra.Order.BigOperators.Group.List
import Mathlib.Algebra.Order.Ring.Nat

/-!
# Goroutines

Goroutines with a state of their own run on a state that they share. At each step one of them moves:
it changes the shared state and its own, and may start another. Which one moves, and what it is told
from outside, is not determined.

A counter of the shared state, such as that of a wait group or the one of a lock, stands for tokens
that the goroutines hold. If every move changes the counter by as many tokens as it takes up or
gives back, the counter is the number of the tokens that are held (`tokens_advance`); it is zero
only if no goroutine holds one (`tokens_eq_zero_iff`).
-/

namespace NextPath.Goroutines

variable {σ τ ι : Type}

/-- The shared state and the goroutines, in the order in which they were started. -/
structure World (σ τ : Type) where
  shared : σ
  threads : List τ

/-- What a move leaves: the shared state, the goroutine itself and one that it has started. -/
structure Move (σ τ : Type) where
  shared : σ
  self : τ
  started : Option τ

/-- A move changes a counter by the tokens it takes up and gives back, if the counter has room for
those that the goroutine holds. -/
def Move.Conserves (counter : σ → ℕ) (f : τ → ℕ) (s : σ) (t : τ) (m : Move σ τ) : Prop :=
  f t ≤ counter s → counter m.shared + f t = counter s + f m.self + (m.started.map f).getD 0

namespace World

variable (next : ℕ → σ → τ → ι → Move σ τ) (w : World σ τ) {i : ℕ} {input : ι} {t : τ}

/-- The goroutine `i` moves. -/
def advance (i : ℕ) (input : ι) : World σ τ :=
  match w.threads[i]? with
  | none => w
  | some t =>
    let m := next i w.shared t input
    ⟨m.shared, w.threads.set i m.self ++ m.started.toList⟩

/-- A goroutine is started from outside. -/
def start (t : τ) : World σ τ := ⟨w.shared, w.threads ++ [t]⟩

/-- The tokens that the goroutines hold. -/
def tokens (f : τ → ℕ) : ℕ := (w.threads.map f).sum

variable {next w}

theorem advance_of_none (h : w.threads[i]? = none) : w.advance next i input = w := by
  simp only [advance, h]

theorem advance_of_some (h : w.threads[i]? = some t) :
    w.advance next i input = ⟨(next i w.shared t input).shared,
      w.threads.set i (next i w.shared t input).self ++
        (next i w.shared t input).started.toList⟩ := by
  simp only [advance, h]

/-! ## Tokens -/

theorem tokens_eq_zero_iff {f : τ → ℕ} : w.tokens f = 0 ↔ ∀ t ∈ w.threads, f t = 0 := by
  simp [tokens, List.sum_eq_zero_iff]

theorem le_tokens (f : τ → ℕ) (h : w.threads[i]? = some t) : f t ≤ w.tokens f :=
  List.single_le_sum (by simp) _ (List.mem_map_of_mem (List.mem_of_getElem? h))

/-- The goroutines that hold a token are at most as many as the tokens. -/
theorem countP_le_tokens {p : τ → Bool} {f : τ → ℕ} (h : ∀ t, p t = true → 1 ≤ f t) :
    w.threads.countP p ≤ w.tokens f := by
  unfold tokens
  induction w.threads with
  | nil => simp
  | cons t l ih =>
    rw [List.countP_cons, List.map_cons, List.sum_cons]
    split_ifs with ht
    · have := h t ht
      omega
    · omega

theorem tokens_start (f : τ → ℕ) (t : τ) : (w.start t).tokens f = w.tokens f + f t := by
  simp [tokens, start]

/-- A sum in which one summand is replaced. -/
theorem sum_map_set {l : List τ} (f : τ → ℕ) (h : l[i]? = some t) (t' : τ) :
    ((l.set i t').map f).sum + f t = (l.map f).sum + f t' := by
  induction l generalizing i with
  | nil => simp at h
  | cons a l ih =>
    cases i with
    | zero =>
      obtain rfl : a = t := by simpa using h
      simp only [List.set_cons_zero, List.map_cons, List.sum_cons]
      omega
    | succ i =>
      have := ih (i := i) (by simpa using h)
      simp only [List.set_cons_succ, List.map_cons, List.sum_cons]
      omega

/-- **The rule of the counters.** A counter that a move changes by the tokens it takes up and gives
back stays the number of tokens. -/
theorem tokens_advance (counter : σ → ℕ) {f : τ → ℕ} (hw : counter w.shared = w.tokens f)
    (h : ∀ t, (next i w.shared t input).Conserves counter f w.shared t) :
    counter (w.advance next i input).shared = (w.advance next i input).tokens f := by
  cases ht : w.threads[i]? with
  | none => rwa [advance_of_none ht]
  | some t =>
    have hmove := h t (hw ▸ le_tokens f ht)
    have hset := sum_map_set f ht (next i w.shared t input).self
    rw [advance_of_some ht]
    simp only [tokens, List.map_append, List.sum_append] at hw ⊢
    cases hs : (next i w.shared t input).started with
    | none =>
      simp only [hs, Option.map_none, Option.getD_none, Option.toList_none, List.map_nil,
        List.sum_nil] at hmove ⊢
      omega
    | some u =>
      simp only [hs, Option.map_some, Option.getD_some, Option.toList_some, List.map_cons,
        List.map_nil, List.sum_cons, List.sum_nil] at hmove ⊢
      omega

/-! ## Who is where -/

/-- **The goroutines after a move**: the one that has moved, the others, and the one it has
started. -/
theorem getElem?_advance {j : ℕ} {u : τ} (h : (w.advance next i input).threads[j]? = some u) :
    (j ≠ i ∧ w.threads[j]? = some u) ∨
      ∃ t, w.threads[i]? = some t ∧ (j = i ∧ u = (next i w.shared t input).self ∨
        j = w.threads.length ∧ (next i w.shared t input).started = some u) := by
  cases ht : w.threads[i]? with
  | none =>
    rw [advance_of_none ht] at h
    refine .inl ⟨?_, h⟩
    rintro rfl
    rw [ht] at h
    cases h
  | some t =>
    have hi : i < w.threads.length := (List.getElem?_eq_some_iff.1 ht).1
    rw [advance_of_some ht] at h
    simp only at h
    rcases lt_or_ge j w.threads.length with hj | hj
    · rw [List.getElem?_append_left (by simpa using hj), List.getElem?_set] at h
      split_ifs at h with hij
      · exact .inr ⟨t, rfl, .inl ⟨hij.symm, (Option.some.inj h).symm⟩⟩
      · exact .inl ⟨fun e => hij e.symm, h⟩
    · rw [List.getElem?_append_right (by simpa using hj), List.length_set] at h
      cases hs : (next i w.shared t input).started with
      | none => simp [hs] at h
      | some v =>
        rw [hs, Option.toList_some, List.getElem?_singleton] at h
        split_ifs at h with hz
        refine .inr ⟨t, rfl, .inr ⟨by omega, ?_⟩⟩
        rw [← h]
        exact hs

/-- The others stay as they are. -/
theorem getElem?_advance_of_ne {j : ℕ} {u : τ} (hne : j ≠ i) (h : w.threads[j]? = some u) :
    (w.advance next i input).threads[j]? = some u := by
  cases ht : w.threads[i]? with
  | none => rwa [advance_of_none ht]
  | some t =>
    have hj : j < w.threads.length := (List.getElem?_eq_some_iff.1 h).1
    rw [advance_of_some ht]
    simp only
    rw [List.getElem?_append_left (by simpa using hj), List.getElem?_set_ne hne.symm, h]

theorem getElem?_advance_self (h : w.threads[i]? = some t) :
    (w.advance next i input).threads[i]? = some (next i w.shared t input).self := by
  have hi : i < w.threads.length := (List.getElem?_eq_some_iff.1 h).1
  rw [advance_of_some h]
  simp only
  rw [List.getElem?_append_left (by simpa using hi), List.getElem?_set_self hi]

theorem getElem?_start {j : ℕ} {u : τ} (h : (w.start t).threads[j]? = some u) :
    w.threads[j]? = some u ∨ j = w.threads.length ∧ u = t := by
  rcases lt_or_ge j w.threads.length with hj | hj
  · rw [start, List.getElem?_append_left hj] at h
    exact .inl h
  · rw [start, List.getElem?_append_right hj, List.getElem?_singleton] at h
    split_ifs at h with hz
    exact .inr ⟨by omega, (Option.some.inj h).symm⟩

theorem getElem?_start_of_some {j : ℕ} {u : τ} (h : w.threads[j]? = some u) :
    (w.start t).threads[j]? = some u := by
  have hj : j < w.threads.length := (List.getElem?_eq_some_iff.1 h).1
  rw [start, List.getElem?_append_left hj, h]

end World

end NextPath.Goroutines
