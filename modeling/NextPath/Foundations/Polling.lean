import Mathlib.Logic.Function.Iterate

/-!
# Publishing with a stamp

One party writes data and then renews a stamp; another looks at the stamp and, when it has changed,
copies the data, piece by piece and without a lock. A copy may be torn or old, but then the writer
has yet to renew the stamp, or has renewed it since (`Follows`), and the reader will come back. Once
the writer is done and the reader has seen its stamp, the copy is the data (`Follows.eq`).

The reader comes back by itself: `iterate_of_rank` is the rule for what its steps lead to.
-/

namespace NextPath.Polling

variable {σ α β : Type}

structure Board (α : Type) where
  data : α
  stamp : ℕ
  /-- The data has been written since the stamp was renewed. -/
  pending : Bool

/-- Data is written. -/
def Board.write (b : Board α) (data : α) : Board α := { b with data, pending := true }

/-- The stamp is renewed, with the data that goes with it. -/
def Board.published (data : α) (stamp : ℕ) : Board α := ⟨data, stamp, false⟩

/-- A part of the data was copied after the stamp `last` had been seen. -/
def Follows (b : Board α) (part : α → β) (copy : β) (last : ℕ) : Prop :=
  copy = part b.data ∨ b.pending = true ∨ last < b.stamp

variable {b : Board α} {part : α → β} {copy : β} {last : ℕ}

theorem follows_copy (b : Board α) (part : α → β) (last : ℕ) :
    Follows b part (part b.data) last := .inl rfl

theorem follows_write (data : α) : Follows (b.write data) part copy last := .inr (.inl rfl)

theorem follows_published (data : α) {stamp : ℕ} (h : last < stamp) :
    Follows (Board.published data stamp) part copy last := .inr (.inr h)

/-- **The copy is the data** when the writer is done and its stamp has been seen. -/
theorem Follows.eq (h : Follows b part copy last) (hpending : b.pending = false)
    (hlast : last = b.stamp) : copy = part b.data := by
  rcases h with h | h | h
  · exact h
  · rw [hpending] at h
    exact Bool.noConfusion h
  · omega

/-- What is kept by every step, and reached or approached by every step before it holds, holds after
more steps than its rank. -/
theorem iterate_of_rank {f : σ → σ} {P : σ → Prop} {rank : σ → ℕ} (hkeep : ∀ s, P s → P (f s))
    (hrank : ∀ s, ¬ P s → P (f s) ∨ rank (f s) < rank s) {n : ℕ} {s : σ} (hn : rank s < n) :
    P (f^[n] s) := by
  have hstay {m : ℕ} {t : σ} (ht : P t) : P (f^[m] t) := Function.Iterate.rec P ht hkeep m
  induction n generalizing s with
  | zero => omega
  | succ n ih =>
    rw [Function.iterate_succ_apply]
    by_cases hP : P s
    · exact hstay (hkeep s hP)
    · rcases hrank s hP with hnext | hlt
      · exact hstay hnext
      · exact ih (by omega)

end NextPath.Polling
