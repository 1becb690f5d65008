import Mathlib.Logic.Relation
import NextPath.Foundations.Runs
import NextPath.Pool.Exclusive
import NextPath.Proxy.Handler

/-!
# Concurrent requests

Handlers run concurrently, and what one of them does to the pool becomes visible at the end of each
section it spends under the locks: a look at a real, the section that secures its fake, the removal
of one mapping when the request is taken back. A request is a state machine that makes one section
a step (`Request.advance`); the requests of a run share the pool, and an event says which of them
moves.

Go visits the entries of a map in no fixed order, so the mapping that is removed next is chosen by
the event. The mappings of the call that has failed are removed by that call, those of an earlier
call by the handler, after it.

`alone_allocateBoth`: a request that no other one interrupts does what `allocateBoth` does.
-/

namespace NextPath.Proxy

open Net Pool
open IPPool (Found)

/-! ## One request -/

/-- An entry of `newMappings`. -/
abbrev NewMapping := Sigma fun _ : Bytes => MappingInfo

/-- Where a request is. -/
inductive Status
  /-- In a call of `GetFakeIPsForReals` that has read `now`, with the reals still to be treated; the
  flag says that the first of them has been looked at in vain. -/
  | call (isIPv6 : Bool) (now : Time) (todo : List IP) (looked : Bool) (found : Found)
  /-- A call has failed; the mappings that it and the call before it have made are to be removed. -/
  | undo (own earlier : List NewMapping)
  /-- Both calls have succeeded. -/
  | answered

/-- A request: the reals of its second call, what its calls have returned, and where it is. -/
structure Request where
  reals6 : List IP
  found4 : Found
  found6 : Found
  status : Status

namespace Request

/-- The second call is made, if there are reals for it. -/
def enter6 (req : Request) (now : Time) : Request :=
  { req with
    status :=
      if req.reals6 = [] then .answered
      else .call true now (IPPool.sortReals req.reals6) false ⟨∅, ∅⟩ }

/-- A request that has collected its reals. -/
def start (reals : Reals) (now : Time) : Request :=
  if reals.v4 = [] then enter6 ⟨reals.v6, ⟨∅, ∅⟩, ⟨∅, ∅⟩, .answered⟩ now
  else ⟨reals.v6, ⟨∅, ∅⟩, ⟨∅, ∅⟩, .call false now (IPPool.sortReals reals.v4) false ⟨∅, ∅⟩⟩

end Request

/-- The mapping that is removed next, the `k`-th of those of the call that failed or, when these are
gone, of those of the call before it; and what is then left to remove. -/
def Status.removal (k : ℕ) : Status → Option (NewMapping × Status)
  | .undo [] earlier => earlier[k]?.map fun e => (e, .undo [] (earlier.eraseIdx k))
  | .undo own earlier => own[k]?.map fun e => (e, .undo (own.eraseIdx k) earlier)
  | _ => none

theorem undo_of_removal {k : ℕ} {status : Status} {next : NewMapping × Status}
    (h : status.removal k = some next) : ∃ own earlier, next.2 = .undo own earlier := by
  unfold Status.removal at h
  split at h
  · obtain ⟨e, -, rfl⟩ := Option.map_eq_some_iff.1 h
    exact ⟨_, _, rfl⟩
  · obtain ⟨e, -, rfl⟩ := Option.map_eq_some_iff.1 h
    exact ⟨_, _, rfl⟩
  · cases h

/-- One step of a request. `t` is a reading of the clock, in `GetNextVersion` or at the start of the
second call. -/
def Request.advance (req : Request) (p : IPPool) (t : Time) (k : ℕ) : IPPool × Request :=
  match req.status with
  | .call isIPv6 _ [] _ found =>
    -- the call returns
    if isIPv6 then (p, { req with found6 := found, status := .answered })
    else (p, enter6 { req with found4 := found } t)
  | .call isIPv6 now (realIP :: rest) false found =>
    match p.peek now realIP with
    | some fake => (p, { req with status := .call isIPv6 now rest false (found.reuse realIP fake) })
    | none => (p, { req with status := .call isIPv6 now (realIP :: rest) true found })
  | .call isIPv6 now (realIP :: rest) true found =>
    match p.secure realIP isIPv6 now t with
    | (p', .existing fake) =>
      (p', { req with status := .call isIPv6 now rest false (found.reuse realIP fake) })
    | (p', .allocated info) =>
      (p', { req with status := .call isIPv6 now rest false (found.allocated realIP info) })
    | (p', .exhausted) =>
      (p', { req with
        status := .undo found.newMappings.entries req.found4.newMappings.entries })
  | .undo own earlier =>
    match Status.removal k (.undo own earlier) with
    | some (e, status) => (p.removeMapping (parseIP e.1) e.2.ip, { req with status })
    | none => (p, req)
  | .answered => (p, req)

/-- **What a step of a request does to the pool**: nothing, a section under the locks, or the
removal of one mapping. -/
theorem Request.advance_pool (req : Request) (p : IPPool) (t : Time) (k : ℕ) :
    (req.advance p t k).1 = p ∨
    (∃ isIPv6 now realIP rest found,
      req.status = .call isIPv6 now (realIP :: rest) true found ∧
        (req.advance p t k).1 = (p.secure realIP isIPv6 now t).1) ∨
    ∃ next, req.status.removal k = some next ∧
      (req.advance p t k).1 = p.removeMapping (parseIP next.1.1) next.1.2.ip := by
  rcases req with ⟨reals6, found4, found6, status⟩
  cases status with
  | call isIPv6 now todo looked found =>
    cases todo with
    | nil => cases isIPv6 <;> exact .inl rfl
    | cons realIP rest =>
      cases looked with
      | false =>
        simp only [Request.advance]
        cases p.peek now realIP <;> exact .inl rfl
      | true =>
        refine .inr (.inl ⟨isIPv6, now, realIP, rest, found, rfl, ?_⟩)
        simp only [Request.advance]
        rcases p.secure realIP isIPv6 now t with ⟨q, fake | info | _⟩ <;> rfl
  | undo own earlier =>
    simp only [Request.advance]
    cases hnext : Status.removal k (.undo own earlier) with
    | none => exact .inl rfl
    | some next => exact .inr (.inr ⟨next, rfl, rfl⟩)
  | answered => exact .inl rfl

/-! ## A request alone -/

/-- The second state is reached from the first by steps of the request alone. -/
def Alone : IPPool × Request → IPPool × Request → Prop :=
  Relation.ReflTransGen fun x y => ∃ t k, x.2.advance x.1 t k = y

namespace Alone

theorem step {x y z : IPPool × Request} (t : Time) (k : ℕ) (h : x.2.advance x.1 t k = y)
    (h' : Alone y z) : Alone x z :=
  Relation.ReflTransGen.head ⟨t, k, h⟩ h'

theorem undo (req : Request) (earlier : List NewMapping) :
    ∀ (own : List NewMapping) (p : IPPool),
      Alone (p, { req with status := .undo own earlier })
        (p.rollback own, { req with status := .undo [] earlier })
  | [], _ => .refl
  | _ :: own, _ => step 0 0 rfl (undo req earlier own _)

theorem undo_earlier (req : Request) :
    ∀ (earlier : List NewMapping) (p : IPPool),
      Alone (p, { req with status := .undo [] earlier })
        (p.rollback earlier, { req with status := .undo [] [] })
  | [], _ => .refl
  | _ :: earlier, _ => step 0 0 rfl (undo_earlier req earlier _)

/-- A call runs through its reals as the loop of `GetFakeIPsForReals` does. -/
theorem fill (req : Request) (isIPv6 : Bool) (now : Time) :
    ∀ (todo : List IP) (clk : ℕ → Time) (p : IPPool) (found : Found),
      Alone (p, { req with status := .call isIPv6 now todo false found })
        (match IPPool.fill isIPv6 now todo clk p found with
          | (p', some found') =>
            (p', { req with status := .call isIPv6 now [] false found' })
          | (p', none) =>
            (p', { req with status := .undo [] req.found4.newMappings.entries })) := by
  intro todo
  induction todo with
  | nil => exact fun _ _ _ => .refl
  | cons realIP rest ih =>
    intro clk p found
    rw [IPPool.fill]
    cases hpeek : p.peek now realIP with
    | some fake => exact step 0 0 (by simp only [Request.advance, hpeek]) (ih clk p _)
    | none =>
      refine step 0 0 (by simp only [Request.advance, hpeek]; rfl) ?_
      rcases hsecure : p.secure realIP isIPv6 now (clk 0) with ⟨q, fake | info | _⟩
      · exact step (clk 0) 0 (by simp only [Request.advance, hsecure]) (ih clk q _)
      · exact step (clk 0) 0 (by simp only [Request.advance, hsecure]) (ih _ q _)
      · exact step (clk 0) 0 (by simp only [Request.advance, hsecure]) (undo req _ _ q)

/-- The second call, from the moment at which the first has returned. -/
theorem enter6 (req : Request) (hfound : req.found6 = ⟨∅, ∅⟩) (p : IPPool) (now : Time)
    (clk : ℕ → Time) :
    Alone (p, req.enter6 now)
      (match getFakes p req.reals6 true now clk with
        | (p', some found) => (p', { req with found6 := found, status := .answered })
        | (p', none) => (p'.rollback req.found4.newMappings.entries,
            { req with status := .undo [] [] })) := by
  rw [Request.enter6, getFakes]
  by_cases hnil : req.reals6 = []
  · rw [if_pos hnil, if_pos hnil, ← hfound]
    exact .refl
  · rw [if_neg hnil, if_neg hnil, IPPool.getFakeIPsForReals, if_neg hnil]
    have hfill := fill req true now (IPPool.sortReals req.reals6) clk p ⟨∅, ∅⟩
    generalize IPPool.fill true now (IPPool.sortReals req.reals6) clk p ⟨∅, ∅⟩ = out at hfill ⊢
    rcases out with ⟨p', _ | found⟩
    · exact hfill.trans (undo_earlier req _ p')
    · exact hfill.trans (step 0 0 rfl .refl)

end Alone

/-- **A request alone is the handler's pair of calls**: with the same readings of the clock it comes
to the pool and the results of `allocateBoth`, or is taken back as there. -/
theorem alone_allocateBoth (p : IPPool) (reals : Reals) (clocks : Clocks) :
    Alone (p, .start reals (if reals.v4 = [] then clocks.now6 else clocks.now4))
      (match allocateBoth p reals clocks with
        | (p', some (found4, found6)) => (p', ⟨reals.v6, found4, found6, .answered⟩)
        | (p', none) =>
          (p', ⟨reals.v6, ((getFakes p reals.v4 false clocks.now4 clocks.clk4).2.getD ⟨∅, ∅⟩),
            ⟨∅, ∅⟩, .undo [] []⟩)) := by
  rw [Request.start, allocateBoth]
  by_cases hnil : reals.v4 = []
  · -- there is only the second call
    have h4 : getFakes p reals.v4 false clocks.now4 clocks.clk4 = (p, some ⟨∅, ∅⟩) := by
      rw [getFakes, if_pos hnil]
    have h6 := Alone.enter6 ⟨reals.v6, ⟨∅, ∅⟩, ⟨∅, ∅⟩, .answered⟩ rfl p clocks.now6 clocks.clk6
    rw [if_pos hnil, if_pos hnil, h4]
    dsimp only at h6 ⊢
    generalize getFakes p reals.v6 true clocks.now6 clocks.clk6 = out at h6 ⊢
    rcases out with ⟨p', _ | found⟩
    · exact h6
    · exact h6
  · have hfill := Alone.fill ⟨reals.v6, ⟨∅, ∅⟩, ⟨∅, ∅⟩, .answered⟩ false clocks.now4
      (IPPool.sortReals reals.v4) clocks.clk4 p ⟨∅, ∅⟩
    rw [if_neg hnil, if_neg hnil, getFakes, if_neg hnil, IPPool.getFakeIPsForReals, if_neg hnil]
    generalize IPPool.fill false clocks.now4 (IPPool.sortReals reals.v4) clocks.clk4 p ⟨∅, ∅⟩ = out
      at hfill ⊢
    rcases out with ⟨p4, _ | found4⟩
    · exact hfill
    · -- the first call returns, and the second is made
      have h6 := Alone.enter6 ⟨reals.v6, found4, ⟨∅, ∅⟩, .call false clocks.now4 [] false found4⟩
        rfl p4 clocks.now6 clocks.clk6
      have hreturn := hfill.trans (Alone.step clocks.now6 0 rfl h6)
      dsimp only at hreturn ⊢
      generalize getFakes p4 reals.v6 true clocks.now6 clocks.clk6 = out at hreturn ⊢
      rcases out with ⟨p', _ | found⟩
      · exact hreturn
      · exact hreturn

/-! ## All the requests -/

/-- The pool, and the requests in the order in which they came. -/
structure State where
  pool : IPPool
  requests : List Request

/-- A request comes, or one of them moves. -/
inductive Event
  | start (reals : Reals) (now : Time)
  | advance (i : ℕ) (t : Time) (k : ℕ)

/-- One step of a run. -/
def step (s : State) : Event → State
  | .start reals now => { s with requests := s.requests ++ [.start reals now] }
  | .advance i t k =>
    match s.requests[i]? with
    | some req => ⟨(req.advance s.pool t k).1, s.requests.set i (req.advance s.pool t k).2⟩
    | none => s

theorem step_advance_of_none {s : State} {i : ℕ} (hi : s.requests[i]? = none) (t : Time) (k : ℕ) :
    step s (.advance i t k) = s := by
  simp only [step, hi]

theorem pool_step_advance {s : State} {i : ℕ} {req : Request} (hi : s.requests[i]? = some req)
    (t : Time) (k : ℕ) : (step s (.advance i t k)).pool = (req.advance s.pool t k).1 := by
  simp only [step, hi]

/-- Where a request comes from when another one has come. -/
theorem requests_start {s : State} {reals : Reals} {now : Time} {j : ℕ} {req : Request}
    (h : (step s (.start reals now)).requests[j]? = some req) :
    s.requests[j]? = some req ∨ req = .start reals now := by
  simp only [step, List.getElem?_append] at h
  split_ifs at h
  · exact .inl h
  · rw [List.getElem?_singleton] at h
    split_ifs at h
    exact .inr (Option.some.inj h).symm

/-- Where a request comes from when one has moved. -/
theorem requests_advance {s : State} {i j : ℕ} {t : Time} {k : ℕ} {req : Request}
    (h : (step s (.advance i t k)).requests[j]? = some req) :
    (i ≠ j ∧ s.requests[j]? = some req) ∨
      i = j ∧ ∃ old, s.requests[i]? = some old ∧ req = (old.advance s.pool t k).2 := by
  simp only [step] at h
  cases hi : s.requests[i]? with
  | none =>
    rw [hi] at h
    refine .inl ⟨?_, h⟩
    rintro rfl
    rw [hi] at h
    cases h
  | some old =>
    rw [hi] at h
    by_cases hij : i = j
    · subst hij
      simp only [List.getElem?_set_self (List.getElem?_eq_some_iff.1 hi).1] at h
      exact .inr ⟨rfl, old, rfl, (Option.some.inj h).symm⟩
    · simp only [List.getElem?_set_ne hij] at h
      exact .inl ⟨hij, h⟩

/-- A request that has been answered stays as it is. -/
theorem step_answered {s : State} {i : ℕ} {req : Request} (hi : s.requests[i]? = some req)
    (hanswered : req.status = .answered) (e : Event) :
    (step s e).requests[i]? = some req := by
  cases e with
  | start reals now =>
    have hlt := (List.getElem?_eq_some_iff.1 hi).1
    simp only [step, List.getElem?_append_left hlt, hi]
  | advance j t k =>
    simp only [step]
    cases hj : s.requests[j]? with
    | none => exact hi
    | some req' =>
      by_cases hij : j = i
      · subst hij
        obtain rfl : req' = req := Option.some.inj (hj.symm.trans hi)
        have hsame : (req'.advance s.pool t k).2 = req' := by
          simp only [Request.advance, hanswered]
        simp only [hsame, List.getElem?_set_self (List.getElem?_eq_some_iff.1 hj).1]
      · simp only [List.getElem?_set_ne hij, hi]

end NextPath.Proxy
