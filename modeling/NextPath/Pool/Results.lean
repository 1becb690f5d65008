import NextPath.Pool.Allocation

/-!
# What a call returns

`GetFakeIPsForReals` returns a map from the texts of its reals to fakes. Here it is compared with
the pool that the call leaves: for any pool, any bytes and any readings of the clock, every entry of
the map is a mapping of the pool (`fakeAt`), and every real of a call that succeeds has an entry.

A mapping that a section has found or made is good at the time of the call (`Live`), so that no
later section of the call takes it away; the sections touch no slot but that of their own real.
-/

namespace NextPath.Pool

open Net

namespace IPPool

/-! ## Texts -/

/-- A slice that is no address is stored under the key of `::`, in the shard of the empty slice. -/
theorem key_of_not_wellFormed {ip : IP} (h : ¬ ip.WellFormed) :
    getShardIndex ip = getShardIndex [] ∧ toIPKey ip = .v6 zero6 := by
  have h4 : ip.to4 = [] := by
    by_contra h4
    exact h (IP.wellFormed_of_to4_ne_nil h4)
  have h16 : ip.to16 = [] := by
    by_contra h16
    exact h (IP.wellFormed_of_to16_ne_nil h16)
  constructor
  · rw [getShardIndex, normalizeIP, h4, h16]
    rfl
  · rw [toIPKey, dif_neg (not_not.2 h4), dif_neg fun hl => h (.inr hl)]

/-- **Slices with the same text have the same slot.** -/
theorem slot_of_string_eq {ip ip' : IP} (e : ip.string = ip'.string) :
    getShardIndex ip = getShardIndex ip' ∧ toIPKey ip = toIPKey ip' := by
  by_cases h : ip.WellFormed
  · have h' := wellFormed_of_string_eq h e
    have hkey := (string_eq_iff h h').1 e
    exact ⟨by rw [getShardIndex_eq h, getShardIndex_eq h', hkey], hkey⟩
  · have h' : ¬ ip'.WellFormed := fun h' => h (wellFormed_of_string_eq h' e.symm)
    obtain ⟨hi, hk⟩ := key_of_not_wellFormed h
    obtain ⟨hi', hk'⟩ := key_of_not_wellFormed h'
    exact ⟨hi.trans hi'.symm, hk.trans hk'.symm⟩

theorem fakeAt_of_string_eq (p : IPPool) {ip ip' : IP} (e : ip.string = ip'.string) :
    p.fakeAt ip = p.fakeAt ip' := by
  rw [fakeAt, fakeAt, (slot_of_string_eq e).1, (slot_of_string_eq e).2]

/-! ## One section -/

section Secured

variable {p q : IPPool} {realIP : IP} {isIPv6 : Bool} {now clk : Time} {outcome : Outcome}

/-- A section changes the slot of its real only. -/
theorem Secured.slot_eq (h : p.Secured realIP isIPv6 now clk q outcome) {j : Fin 64} {x : IPKey}
    (hne : ¬ (j = getShardIndex realIP ∧ x = toIPKey realIP)) : q.slot j x = p.slot j x := by
  cases h with
  | kept => rfl
  | extended => rw [slot_refresh, if_neg hne]
  | fresh =>
    rw [slot_bind, if_neg hne]
    exact p.slot_vacate hne
  | exhausted => exact p.slot_vacate hne

/-- Extending a lease leaves a live mapping live. -/
theorem Live.refresh {f : IPKey} (h : p.Live now realIP f) :
    (p.modifyShard (getShardIndex realIP)
      (·.refresh (toIPKey realIP) (now + mappingTTL))).Live now realIP f := by
  simp only [Live, fakeAt, slot_refresh, and_self, if_true, Option.some.injEq]
  refine ⟨h.1, ?_⟩
  rintro t rfl
  exact lt_add_of_pos_right now (by decide)

/-- The mapping that a section finds is live. -/
theorem Secured.live_existing {f : IPKey}
    (h : p.Secured realIP isIPv6 now clk q (.existing f)) :
    q.Live now realIP f ∧ p.fakeAt realIP = some f := by
  cases h with
  | kept live => exact ⟨live, live.1⟩
  | extended live => exact ⟨live.refresh, live.1⟩

/-- The mapping that a section makes is live. -/
theorem Secured.live_allocated {info : MappingInfo}
    (h : p.Secured realIP isIPv6 now clk q (.allocated info)) :
    q.Live now realIP (toIPKey info.ip) := by
  cases h
  simp only [Live, fakeAt, slot_bind, and_self, if_true, Option.some.injEq, true_and]
  rintro t rfl
  exact lt_add_of_pos_right now (by decide)

/-- **A section does not take a live mapping away.** -/
theorem Live.secured {ip : IP} {f : IPKey} (hlive : p.Live now ip f)
    (h : p.Secured realIP isIPv6 now clk q outcome) : q.Live now ip f := by
  by_cases heq : getShardIndex ip = getShardIndex realIP ∧ toIPKey ip = toIPKey realIP
  · -- the section is entered for a real whose mapping is live, and keeps it
    simp only [Live, fakeAt, heq.1, heq.2] at hlive ⊢
    cases h with
    | kept => exact hlive
    | extended => exact Live.refresh hlive
    | fresh dead => exact absurd hlive (dead f)
    | exhausted dead => exact absurd hlive (dead f)
  · simp only [Live, fakeAt, h.slot_eq heq]
    exact hlive

end Secured

/-! ## The whole call -/

/-- The entries of a result are live mappings of the pool, each for a real of the list. -/
def Found.Good (found : Found) (p : IPPool) (now : Time) (reals : List IP) : Prop :=
  ∀ s ip, found.result.lookup s = some ip →
    ∃ realIP ∈ reals, realIP.string = s ∧ p.Live now realIP (toIPKey ip)

/-- **The result of a call is what the pool holds**: each entry is a mapping of the pool that the
call leaves, and each real has an entry. -/
theorem fill_result (isIPv6 : Bool) (now : Time) (all : List IP) :
    ∀ (reals : List IP) {clk : ℕ → Time} {p p' : IPPool} {found found' : Found},
      reals ⊆ all → found.Good p now all →
      fill isIPv6 now reals clk p found = (p', some found') →
      found'.Good p' now all ∧ (∀ s, found.result.lookup s ≠ none → found'.result.lookup s ≠ none) ∧
        ∀ realIP ∈ reals, found'.result.lookup realIP.string ≠ none := by
  intro reals
  induction reals with
  | nil =>
    intro clk p p' found found' _ hgood h
    obtain ⟨rfl, rfl⟩ : p = p' ∧ found = found' := by simpa [fill] using h
    exact ⟨hgood, fun _ h => h, by simp⟩
  | cons realIP rest ih =>
    intro clk p p' found found' hsub hgood h
    have hmem := hsub List.mem_cons_self
    have hrest := List.Subset.trans (List.subset_cons_self realIP rest) hsub
    -- one more live entry, in a pool in which the others are still live
    have hput {q : IPPool} {outcome : Outcome} {new : AList fun _ : Bytes => MappingInfo}
        {fake : IP}
        (hsec : p.Secured realIP isIPv6 now (clk 0) q outcome)
        (hlive : q.Live now realIP (toIPKey fake)) :
        Found.Good ⟨found.result.insert realIP.string fake, new⟩ q now all := by
      intro s ip hip
      rw [Map.lookup_insert_ite] at hip
      split_ifs at hip with hs
      · exact ⟨realIP, hmem, hs.symm, Option.some.inj hip ▸ hlive⟩
      · obtain ⟨r, hr, hstr, hl⟩ := hgood s ip hip
        exact ⟨r, hr, hstr, hl.secured hsec⟩
    -- the entry is still there at the end
    have hdone {q : IPPool} {new : AList fun _ : Bytes => MappingInfo} {fake : IP}
        {clk' : ℕ → Time}
        (hg : Found.Good ⟨found.result.insert realIP.string fake, new⟩ q now all)
        (hfill : fill isIPv6 now rest clk' q ⟨found.result.insert realIP.string fake, new⟩ =
          (p', some found')) :
        found'.Good p' now all ∧
          (∀ s, found.result.lookup s ≠ none → found'.result.lookup s ≠ none) ∧
          ∀ r ∈ realIP :: rest, found'.result.lookup r.string ≠ none := by
      obtain ⟨hgood', hkept, hall⟩ := ih hrest hg hfill
      have hlookup (s : Bytes) : (found.result.insert realIP.string fake).lookup s ≠ none ↔
          s = realIP.string ∨ found.result.lookup s ≠ none := by
        rw [Map.lookup_insert_ite]
        split_ifs with hs <;> simp [hs]
      refine ⟨hgood', fun s hs => hkept s ((hlookup s).2 (.inr hs)), ?_⟩
      rw [List.forall_mem_cons]
      exact ⟨hkept _ ((hlookup _).2 (.inl rfl)), hall⟩
    rcases p.fill_cons_cases h with ⟨q, f, hsec, h⟩ | ⟨q, info, hsec, h⟩ | ⟨q, -, h⟩
    · exact hdone (hput hsec (by rw [toIPKey_toIP]; exact hsec.live_existing.1)) h
    · exact hdone (hput hsec hsec.live_allocated) h
    · cases h

/-- A call that succeeds changes the slots of its reals only. -/
theorem slot_fill {isIPv6 : Bool} {now : Time} {j : Fin 64} {x : IPKey} :
    ∀ {reals : List IP} {clk : ℕ → Time} {p p' : IPPool} {found found' : Found},
      (∀ realIP ∈ reals, ¬ (j = getShardIndex realIP ∧ x = toIPKey realIP)) →
      fill isIPv6 now reals clk p found = (p', some found') → p'.slot j x = p.slot j x := by
  intro reals
  induction reals with
  | nil =>
    intro clk p p' found found' _ h
    obtain ⟨rfl, -⟩ : p = p' ∧ found = found' := by simpa [fill] using h
    rfl
  | cons realIP rest ih =>
    intro clk p p' found found' hne h
    obtain ⟨hreal, hrest⟩ := List.forall_mem_cons.1 hne
    rcases p.fill_cons_cases h with ⟨q, f, hsec, h⟩ | ⟨q, info, hsec, h⟩ | ⟨q, -, h⟩
    · exact (ih hrest h).trans (hsec.slot_eq hreal)
    · exact (ih hrest h).trans (hsec.slot_eq hreal)
    · cases h

/-- The map that a call for some reals has returned, and what it did to the pool. -/
structure Answered (reals : List IP) (p p' : IPPool) (result : Map Bytes IP) : Prop where
  total : ∀ realIP ∈ reals, ∃ fake, result.lookup realIP.string = some fake
  sound : ∀ s fake, result.lookup s = some fake →
    ∃ realIP ∈ reals, realIP.string = s ∧ p'.fakeAt realIP = some (toIPKey fake)
  frame : ∀ j x, (∀ realIP ∈ reals, ¬ (j = getShardIndex realIP ∧ x = toIPKey realIP)) →
    p'.slot j x = p.slot j x

/-- **What `GetFakeIPsForReals` returns**: an entry for each real, and every entry is a mapping of
the pool that the call leaves. The slots of other addresses are as they were. -/
theorem answered_getFakeIPsForReals {reals : List IP} {isIPv6 : Bool} {now : Time}
    {clk : ℕ → Time} {p p' : IPPool} {found : Found}
    (h : p.getFakeIPsForReals reals isIPv6 now clk = (p', some found)) :
    Answered reals p p' found.result := by
  rw [getFakeIPsForReals] at h
  split_ifs at h with hnil
  · cases h
  · have hmem {r : IP} : r ∈ sortReals reals ↔ r ∈ reals := List.mem_insertionSort _
    obtain ⟨hgood, -, hall⟩ := fill_result isIPv6 now reals (sortReals reals)
      (fun r hr => hmem.1 hr) (fun s ip hip => by simp at hip) h
    refine ⟨fun r hr => Option.ne_none_iff_exists'.1 (hall r (hmem.2 hr)), fun s fake hs => ?_,
      fun j x hne => slot_fill (fun r hr => hne r (hmem.1 hr)) h⟩
    obtain ⟨r, hr, hstr, hlive⟩ := hgood s fake hs
    exact ⟨r, hr, hstr, hlive.1⟩

/-- A mapping of the result is one of the pool for every slice with the text of its real. -/
theorem Answered.fakeAt {reals : List IP} {p p' : IPPool} {result : Map Bytes IP}
    (h : Answered reals p p' result) {ip fake : IP}
    (hlookup : result.lookup ip.string = some fake) : p'.fakeAt ip = some (toIPKey fake) := by
  obtain ⟨realIP, -, hstr, hfake⟩ := h.sound _ _ hlookup
  rw [p'.fakeAt_of_string_eq hstr.symm, hfake]

end IPPool

end NextPath.Pool
