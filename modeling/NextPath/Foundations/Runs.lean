import Mathlib.Data.List.Basic

/-!
# Runs of a state machine

A machine is a function from a state and an event to the next state; what is not determined (a
reading of a clock, the choice of who moves) is part of the event. A run is a list of events, and
its trace pairs each event with the state it happens in, so that a condition on the steps of a run
is a condition on the members of its trace.
-/

namespace NextPath.Runs

variable {σ ε : Type} (step : σ → ε → σ)

/-- The steps of a run: each event with the state before it. -/
def trace : σ → List ε → List (σ × ε)
  | _, [] => []
  | s, e :: es => (s, e) :: trace (step s e) es

/-- The state after a run. -/
def run (s : σ) (es : List ε) : σ := es.foldl step s

@[simp] theorem run_nil (s : σ) : run step s [] = s := rfl

@[simp] theorem run_cons (s : σ) (e : ε) (es : List ε) :
    run step s (e :: es) = run step (step s e) es := rfl

/-- Every step of the run meets the condition. -/
def Along (C : σ → ε → Prop) (s : σ) (es : List ε) : Prop :=
  ∀ x ∈ trace step s es, C x.1 x.2

instance (C : σ → ε → Prop) [∀ s e, Decidable (C s e)] (s : σ) (es : List ε) :
    Decidable (Along step C s es) :=
  inferInstanceAs (Decidable (∀ x ∈ trace step s es, C x.1 x.2))

variable {step}

/-- The events of the trace are those of the run. -/
theorem mem_of_mem_trace {s : σ} {es : List ε} {x : σ × ε} (h : x ∈ trace step s es) :
    x.2 ∈ es := by
  induction es generalizing s with
  | nil => cases h
  | cons e es ih =>
    rcases List.mem_cons.1 h with rfl | h
    · exact List.mem_cons_self
    · exact List.mem_cons_of_mem e (ih h)

@[simp] theorem along_nil (C : σ → ε → Prop) (s : σ) : Along step C s [] := by
  simp [Along, trace]

@[simp] theorem along_cons (C : σ → ε → Prop) (s : σ) (e : ε) (es : List ε) :
    Along step C s (e :: es) ↔ C s e ∧ Along step C (step s e) es := by
  simp [Along, trace]

/-- **The invariant rule.** What holds at the start and is kept by every step that meets the
condition holds at the end of a run whose steps meet it. -/
theorem invariant {I : σ → Prop} {C : σ → ε → Prop}
    (hstep : ∀ s e, I s → C s e → I (step s e)) {s : σ} (hs : I s) {es : List ε}
    (hC : Along step C s es) : I (run step s es) := by
  induction es generalizing s with
  | nil => exact hs
  | cons e es ih =>
    rw [along_cons] at hC
    exact ih (hstep s e hs hC.1) hC.2

/-- The invariant holds in every state on the way. -/
theorem invariant_along {I : σ → Prop} {C : σ → ε → Prop}
    (hstep : ∀ s e, I s → C s e → I (step s e)) {s : σ} (hs : I s) {es : List ε}
    (hC : Along step C s es) : Along step (fun s _ => I s) s es := by
  induction es generalizing s with
  | nil => exact along_nil _ _
  | cons e es ih =>
    rw [along_cons] at hC
    exact (along_cons _ s e es).2 ⟨hs, ih (hstep s e hs hC.1) hC.2⟩

/-- **The simulation rule.** Two machines that are related at the start, and whose steps under the
same event keep the relation, are related after the same run. -/
theorem simulation {σ' : Type} {step' : σ' → ε → σ'} {R : σ → σ' → Prop} {C : ε → Prop}
    (hstep : ∀ s s' e, R s s' → C e → R (step s e) (step' s' e)) {s : σ} {s' : σ'} (hs : R s s')
    {es : List ε} (hC : ∀ e ∈ es, C e) : R (run step s es) (run step' s' es) := by
  induction es generalizing s s' with
  | nil => exact hs
  | cons e es ih =>
    exact ih (hstep s s' e hs (hC e List.mem_cons_self)) fun e' he' =>
      hC e' (List.mem_cons_of_mem e he')

end NextPath.Runs
