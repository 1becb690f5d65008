import NextPath.Foundations.Numerals
import NextPath.Foundations.Strings
import NextPath.Net.Text
import NextPath.Netlink.Batch

/-!
# One attempt to send a batch

`flushBatchLocked` hands the elements of a batch to the socket, those of the two maps one after the
other, and then makes one `Flush`. Here it is followed with the texts of its errors, since the
worker that calls it looks for "file exists" in them; what the socket answers is in `Reply`.

* `flushBatchLocked_cases`: the ways through an attempt;
* `fileExists_of_contains`: the text is found only where the socket has said so, and not in the
  words that are put in front of its errors.
-/

namespace NextPath.Netlink.Worker

open Net Strings

/-! ## One attempt -/

/-- What the socket answers in an attempt: the errors of `SetAddElements` for the two maps and that
of `Flush`. -/
structure Reply where
  add4 : Option Bytes
  add6 : Option Bytes
  flush : Option Bytes

def fileExists : Bytes := str "file exists"

/-- Some call of the attempt fails with a text in which "file exists" stands. -/
def Reply.FileExists (reply : Reply) : Prop :=
  ∃ err, (reply.add4 = some err ∨ reply.add6 = some err ∨ reply.flush = some err) ∧
    contains err fileExists = true

/-- `v4ToAdd`. -/
def v4ToAdd (enableIPv6 : Bool) (batch : List MappingOp) : List SetElement :=
  (batch.filter (·.fakeIP.to4 ≠ [])).filterMap (·.element enableIPv6)

/-- `v6ToAdd`. -/
def v6ToAdd (enableIPv6 : Bool) (batch : List MappingOp) : List SetElement :=
  (batch.filter (·.fakeIP.to4 = [])).filterMap (·.element enableIPv6)

def notEstablished : Bytes := str "netlink connection is not established"

/-- The error of a failed `SetAddElements`; `map` is `v4` or `v6`. -/
def addFailed (n : ℕ) (map err : Bytes) : Bytes :=
  str "failed to add " ++ numeral 10 n ++ str " " ++ map ++ str " elements: " ++ err

/-- The error of a failed `Flush`. -/
def flushFailed (err : Bytes) : Bytes := str "batch add flush failed: " ++ err

/-- `flushBatchLocked`: the error it returns. -/
def flushBatchLocked (enableIPv6 conn : Bool) (batch : List MappingOp) (reply : Reply) :
    Option Bytes :=
  let v4 := v4ToAdd enableIPv6 batch
  let v6 := v6ToAdd enableIPv6 batch
  if conn = false then some notEstablished
  else
    match if v4 ≠ [] then reply.add4 else none with
    | some err => some (addFailed v4.length (str "v4") err)
    | none =>
      match if enableIPv6 ∧ v6 ≠ [] then reply.add6 else none with
      | some err => some (addFailed v6.length (str "v6") err)
      | none => if v4 ≠ [] ∨ v6 ≠ [] then reply.flush.map flushFailed else none

/-- **The ways through an attempt**: there is no socket, one of the two additions fails, there is
nothing to send, or the error is that of `Flush`. -/
theorem flushBatchLocked_cases (enableIPv6 conn : Bool) (batch : List MappingOp) (reply : Reply) :
    (conn = false ∧ flushBatchLocked enableIPv6 conn batch reply = some notEstablished) ∨
    (∃ n err, reply.add4 = some err ∧
      flushBatchLocked enableIPv6 conn batch reply = some (addFailed n (str "v4") err)) ∨
    (∃ n err, reply.add6 = some err ∧
      flushBatchLocked enableIPv6 conn batch reply = some (addFailed n (str "v6") err)) ∨
    (elements enableIPv6 batch = [] ∧ flushBatchLocked enableIPv6 conn batch reply = none) ∨
    (conn = true ∧
      flushBatchLocked enableIPv6 conn batch reply = reply.flush.map flushFailed) := by
  rw [flushBatchLocked]
  cases conn with
  | false => exact .inl ⟨rfl, rfl⟩
  | true =>
    refine .inr ?_
    rw [if_neg (by decide)]
    cases h4 : if v4ToAdd enableIPv6 batch ≠ [] then reply.add4 else none with
    | some err =>
      split_ifs at h4
      exact .inl ⟨_, err, h4, rfl⟩
    | none =>
      cases h6 : if enableIPv6 ∧ v6ToAdd enableIPv6 batch ≠ [] then reply.add6 else none with
      | some err =>
        split_ifs at h6
        exact .inr (.inl ⟨_, err, h6, rfl⟩)
      | none =>
        refine .inr (.inr ?_)
        dsimp only
        split_ifs with hsome
        · exact .inr ⟨rfl, rfl⟩
        · rw [not_or, not_not, not_not] at hsome
          exact .inl ⟨List.append_eq_nil_iff.2 hsome, rfl⟩

/-! ## The texts of the errors -/

/-- Where a text ends in a colon and a blank, "file exists" does not begin in it and end in what
follows. -/
theorem contains_of_append {front err : Bytes} (hx : chr 'x' ∉ front)
    (hend : ∃ s, front = s ++ [chr ':', chr ' '])
    (h : contains (front ++ err) fileExists = true) : contains err fileExists = true := by
  rw [contains_iff] at h ⊢
  obtain ⟨s, hs⟩ := hend
  rcases List.infix_append_iff.1 h with h | h | ⟨l₁, l₂, hl, h₁, h₂⟩
  · exact absurd (h.subset (by decide)) hx
  · exact h
  · -- the part that stands in the front is empty: it would end in a colon and a blank
    have hl₁ : l₁ = fileExists.take l₁.length := by rw [hl, List.take_left]
    have hlen : l₁.length ≤ 11 := by
      have := congrArg List.length hl
      rw [List.length_append, show fileExists.length = 11 from rfl] at this
      omega
    have hnil : l₁ = [] := by
      rw [hs] at h₁
      obtain ⟨r, hr⟩ := h₁
      generalize l₁.length = n at hl₁ hlen
      have hrev := congrArg List.reverse hr
      rw [List.reverse_append, List.reverse_append, hl₁] at hrev
      rw [hl₁]
      interval_cases n
      · rfl
      all_goals exact absurd hrev (by simp [fileExists, str, chr])
    rw [hnil, List.nil_append] at hl
    exact hl ▸ h₂.isInfix

theorem contains_addFailed {n : ℕ} {map err : Bytes} (hmap : chr 'x' ∉ map)
    (h : contains (addFailed n map err) fileExists = true) : contains err fileExists = true := by
  refine contains_of_append ?_ ⟨str "failed to add " ++ numeral 10 n ++ str " " ++ map ++
    str " elements", ?_⟩ h
  · have hdigit : chr 'x' ∉ numeral 10 n := fun hmem =>
      absurd (isDigit_of_mem_numeral hmem) (by decide)
    have hwords : chr 'x' ∉ str "failed to add " ∧ chr 'x' ∉ str " " ∧
      chr 'x' ∉ str " elements: " := by decide
    simp only [List.mem_append, not_or]
    exact ⟨⟨⟨⟨hwords.1, hdigit⟩, hwords.2.1⟩, hmap⟩, hwords.2.2⟩
  · rw [List.append_assoc _ (str " elements")]
    rfl

/-- **The worker finds "file exists" only where the socket has said so.** -/
theorem fileExists_of_contains {enableIPv6 conn : Bool} {batch : List MappingOp} {reply : Reply}
    {err : Bytes} (h : flushBatchLocked enableIPv6 conn batch reply = some err)
    (herr : contains err fileExists = true) : reply.FileExists := by
  rcases flushBatchLocked_cases enableIPv6 conn batch reply with
    ⟨-, he⟩ | ⟨n, e, h4, he⟩ | ⟨n, e, h6, he⟩ | ⟨-, he⟩ | ⟨-, he⟩
  · obtain rfl := Option.some.inj (h.symm.trans he)
    exact absurd herr (by decide)
  · obtain rfl := Option.some.inj (h.symm.trans he)
    exact ⟨e, .inl h4, contains_addFailed (by decide) herr⟩
  · obtain rfl := Option.some.inj (h.symm.trans he)
    exact ⟨e, .inr (.inl h6), contains_addFailed (by decide) herr⟩
  · cases h.symm.trans he
  · obtain ⟨e, hflush, rfl⟩ := Option.map_eq_some_iff.1 (he.symm.trans h)
    exact ⟨e, .inr (.inr hflush),
      contains_of_append (by decide) ⟨str "batch add flush failed", rfl⟩ herr⟩

end NextPath.Netlink.Worker
