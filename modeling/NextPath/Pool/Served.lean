import NextPath.Pool.Leases
import NextPath.Pool.Results

/-!
# What a call that succeeds has done

`GetFakeIPsForReals`, on a consistent pool and a list of addresses, seen as a change of the table of
leases. A section leaves its real with a row that has at least five minutes to run, and every other
row as it was (`Grants`): the row is the one that was there, perhaps with a longer lease, or a new
one if there was none that was good at the time of the call. The loop adds these up (`Progress`).

* `Secured.grants_existing`, `Secured.grants_allocated`: one section.
* `Progress.fill`: the loop.
* `served_getFakeIPsForReals`: the whole call.
-/

namespace NextPath.Pool

open Net

namespace IPPool

/-! ## One section -/

/-- The address has a lease that has not run out. -/
def Leased (p : IPPool) (now : Time) (ip : IP) : Prop :=
  ∃ x ∈ p.leases, x.real = toIPKey ip ∧ now < x.expiry

/-- The second table is the first with the row of one real replaced by one that has at least five
minutes to run. -/
structure Grants (p q : IPPool) (now : Time) (x : Lease) : Prop where
  repInv : RepInv q
  leases : q.leases = insert x {y ∈ p.leases | y.real ≠ x.real}
  long : now + 5 * minute ≤ x.expiry

theorem Grants.mem_self {p q : IPPool} {now : Time} {x : Lease} (h : Grants p q now x) :
    x ∈ q.leases := h.leases ▸ Set.mem_insert _ _

/-- The other rows are as they were. -/
theorem Grants.mem_iff {p q : IPPool} {now : Time} {x y : Lease} (h : Grants p q now x)
    (hne : y.real ≠ x.real) : y ∈ q.leases ↔ y ∈ p.leases := by
  rw [h.leases, Set.mem_insert_iff, Set.mem_ofPred_eq, and_iff_left hne]
  refine or_iff_right fun hyx => hne ?_
  rw [hyx]

section Section

variable {p q : IPPool} {realIP : IP} {isIPv6 : Bool} {now clk : Time}

theorem fakeAt_eq_fakeOf (p : IPPool) (hr : realIP.WellFormed) :
    p.fakeAt realIP = p.fakeOf (toIPKey realIP) := by
  rw [fakeAt, fakeOf_eq_slot, getShardIndex_eq hr]

theorem vacate_eq_release (p : IPPool) (hr : realIP.WellFormed) :
    p.vacate realIP = p.release (toIPKey realIP) := by
  have hat := p.fakeAt_eq_fakeOf hr
  cases hf : p.fakeOf (toIPKey realIP) with
  | none => rw [vacate_of_none p (hat.trans hf), release_of_none p hf]
  | some f => rw [vacate_of_some p (hat.trans hf), release_of_some p hf, getShardIndex_eq hr]

/-- A live mapping is a row with time to run. -/
theorem live_iff_lease (h : RepInv p) (hr : realIP.WellFormed) {f : IPKey} :
    p.Live now realIP f ↔
      ∃ x ∈ p.leases, x.real = toIPKey realIP ∧ x.fake = f ∧ now < x.expiry := by
  rw [Live, fakeAt_eq_fakeOf p hr, getShardIndex_eq hr]
  constructor
  · rintro ⟨hf, htime⟩
    obtain ⟨v, t, hx⟩ := h.exists_lease hf
    exact ⟨_, hx, rfl, rfl, htime t hx.2.2⟩
  · rintro ⟨x, hx, hreal, rfl, hlt⟩
    rw [← hreal]
    exact ⟨hx.1, fun t ht => Option.some.inj (ht.symm.trans hx.2.2) ▸ hlt⟩

/-- A section that finds a mapping keeps its row, or extends its lease. -/
theorem Secured.grants_existing (h : RepInv p) (hr : realIP.WellFormed) {f : IPKey}
    (hsec : p.Secured realIP isIPv6 now clk q (.existing f)) :
    ∃ y ∈ p.leases, y.real = toIPKey realIP ∧ y.fake = f ∧ now < y.expiry ∧
      ∃ t, Grants p q now { y with expiry := t } := by
  have hinv := (secured_updates hr hsec).repInv h
  cases hsec with
  | kept live long =>
    obtain ⟨y, hy, hreal, hfake, hlt⟩ := (live_iff_lease h hr).1 live
    rw [getShardIndex_eq hr, ← hreal] at long
    refine ⟨y, hy, hreal, hfake, hlt, y.expiry, hinv, ?_, long _ hy.2.2⟩
    ext x
    rw [Set.mem_insert_iff, Set.mem_ofPred_eq]
    refine ⟨fun hx => ?_, ?_⟩
    · by_cases hxy : x.real = y.real
      · exact .inl (RepInv.eq_of_real_eq hx hy hxy)
      · exact .inr ⟨hx, hxy⟩
    · rintro (rfl | hx)
      · exact hy
      · exact hx.1
  | extended live =>
    obtain ⟨y, hy, hreal, hfake, hlt⟩ := (live_iff_lease h hr).1 live
    refine ⟨y, hy, hreal, hfake, hlt, now + mappingTTL, hinv, ?_, ?_⟩
    · rw [getShardIndex_eq hr, ← hreal]
      exact leases_refresh hy _
    · exact add_le_add_right (by decide) now

/-- A section that allocates writes a row, for a real that had none with time to run. -/
theorem Secured.grants_allocated (h : RepInv p) (hr : realIP.WellFormed) {info : MappingInfo}
    (hsec : p.Secured realIP isIPv6 now clk q (.allocated info)) :
    ¬ p.Leased now realIP ∧
      Grants p q now ⟨toIPKey realIP, toIPKey info.ip, info.version, now + mappingTTL⟩ := by
  have hinv := (secured_updates hr hsec).repInv h
  cases hsec with
  | fresh dead find =>
    refine ⟨fun ⟨x, hx, hreal, hlt⟩ => ?_, hinv, ?_, add_le_add_right (by decide) now⟩
    · exact dead x.fake ((live_iff_lease h hr).2 ⟨x, hx, hreal, rfl, hlt⟩)
    · have hfree := realOf_of_findFake _ find
      rw [vacate_eq_release p hr] at hinv hfree ⊢
      have hrelease : RepInv (p.release (toIPKey realIP)) :=
        (release_updates (G := fun _ _ => True) (fun _ _ _ => trivial) _).repInv h
      rw [getShardIndex_eq hr]
      refine (leases_bind (hrelease.tick _) (p.fakeOf_release_self _) hfree _ _).trans ?_
      rw [leases_tick, leases_release h]

/-- However a section ends, the rows of other reals are as they were. -/
theorem Secured.mem_leases_iff_of_ne (h : RepInv p) (hr : realIP.WellFormed) {outcome : Outcome}
    (hsec : p.Secured realIP isIPv6 now clk q outcome) {x : Lease}
    (hne : x.real ≠ toIPKey realIP) : x ∈ q.leases ↔ x ∈ p.leases := by
  cases outcome with
  | existing f =>
    obtain ⟨y, -, hreal, -, -, t, hg⟩ := hsec.grants_existing h hr
    exact hg.mem_iff (hreal ▸ hne)
  | allocated info => exact (hsec.grants_allocated h hr).2.mem_iff hne
  | exhausted =>
    cases hsec with
    | exhausted dead full =>
      rw [vacate_eq_release p hr, leases_release h]
      exact and_iff_left hne

end Section

/-! ## The loop -/

/-- What a call has done to the table when it has handled some of its reals. -/
structure Progress (p₀ : IPPool) (now : Time) (handled : List IP) (p : IPPool) (found : Found) :
    Prop where
  repInv : RepInv p
  /-- The rows of other reals are as they were. -/
  frame : ∀ x : Lease, (∀ ip ∈ handled, x.real ≠ toIPKey ip) → (x ∈ p.leases ↔ x ∈ p₀.leases)
  /-- Each real has an entry. -/
  entry : ∀ s, found.result.lookup s ≠ none ↔ ∃ ip ∈ handled, ip.string = s
  /-- An entry is a row with at least five minutes to run. -/
  row : ∀ ip ∈ handled, ∀ fake, found.result.lookup ip.string = some fake →
    ∃ x ∈ p.leases, x.real = toIPKey ip ∧ x.fake = toIPKey fake ∧ now + 5 * minute ≤ x.expiry
  /-- The new mappings are those of the reals that had no lease with time to run. -/
  new : ∀ s, found.newMappings.lookup s ≠ none ↔
    ∃ ip ∈ handled, ip.string = s ∧ ¬ p₀.Leased now ip
  /-- A new mapping is a row, with its version. -/
  made : ∀ ip ∈ handled, ∀ info, found.newMappings.lookup ip.string = some info →
    ∃ x ∈ p.leases, x.real = toIPKey ip ∧ x.fake = toIPKey info.ip ∧ x.version = info.version

namespace Progress

variable {p₀ p q : IPPool} {now : Time} {handled : List IP} {found : Found} {ip : IP}

theorem start (h : RepInv p₀) (now : Time) : Progress p₀ now [] p₀ ⟨∅, ∅⟩ where
  repInv := h
  frame _ _ := Iff.rfl
  entry s := by simp
  row := by simp
  new s := by simp
  made := by simp

/-- A real that has been handled has a lease with time to run. -/
theorem leased (h : Progress p₀ now handled p found) (hip : ip ∈ handled) : p.Leased now ip := by
  obtain ⟨fake, hfake⟩ := Option.ne_none_iff_exists'.1 ((h.entry ip.string).2 ⟨ip, hip, rfl⟩)
  obtain ⟨x, hx, hreal, -, hlong⟩ := h.row ip hip fake hfake
  exact ⟨x, hx, hreal, lt_of_lt_of_le (lt_add_of_pos_right now (by decide)) hlong⟩

/-- Before a real is handled its row is the one it had. -/
theorem leased_iff (h : Progress p₀ now handled p found)
    (hnew : ∀ ip' ∈ handled, toIPKey ip' ≠ toIPKey ip) : p.Leased now ip ↔ p₀.Leased now ip := by
  refine exists_congr fun x => ⟨fun ⟨hx, hreal, hlt⟩ => ?_, fun ⟨hx, hreal, hlt⟩ => ?_⟩
  · exact ⟨(h.frame x fun ip' hip' => hreal ▸ (hnew ip' hip').symm).1 hx, hreal, hlt⟩
  · exact ⟨(h.frame x fun ip' hip' => hreal ▸ (hnew ip' hip').symm).2 hx, hreal, hlt⟩

theorem leased_congr (p : IPPool) (now : Time) {ip ip' : IP} (e : toIPKey ip = toIPKey ip') :
    p.Leased now ip ↔ p.Leased now ip' := by
  rw [Leased, Leased, e]

/-- A section whose row is entered into the result. What it does to the new mappings is left to the
caller. -/
theorem grant (h : Progress p₀ now handled p found) {x : Lease} {fake : IP}
    (hwf : ∀ ip' ∈ ip :: handled, ip'.WellFormed) (hg : Grants p q now x)
    (hreal : x.real = toIPKey ip) (hfake : x.fake = toIPKey fake)
    {new : AList fun _ : Bytes => MappingInfo}
    (hnew : ∀ s, new.lookup s ≠ none ↔
      ∃ ip' ∈ ip :: handled, ip'.string = s ∧ ¬ p₀.Leased now ip')
    (hmade : ∀ info, new.lookup ip.string = some info →
      x.fake = toIPKey info.ip ∧ x.version = info.version)
    (hkept : ∀ s, s ≠ ip.string → new.lookup s = found.newMappings.lookup s) :
    Progress p₀ now (ip :: handled) q ⟨found.result.insert ip.string fake, new⟩ := by
  have hstring {ip' : IP} (hip' : ip' ∈ ip :: handled) :
      ip'.string = ip.string ↔ toIPKey ip' = toIPKey ip :=
    string_eq_iff (hwf ip' hip') (hwf ip List.mem_cons_self)
  -- a row of a real with another text is not touched
  have hother {ip' : IP} (hip' : ip' ∈ ip :: handled) (hne : ip'.string ≠ ip.string) {y : Lease}
      (hy : y ∈ p.leases) (hyreal : y.real = toIPKey ip') : y ∈ q.leases := by
    refine (hg.mem_iff ?_).2 hy
    rw [hyreal, hreal]
    exact fun e => hne ((hstring hip').2 e)
  have hmem {ip' : IP} (hip' : ip' ∈ ip :: handled) (hne : ip'.string ≠ ip.string) :
      ip' ∈ handled := (List.mem_cons.1 hip').resolve_left fun e => hne (e ▸ rfl)
  refine ⟨hg.repInv, fun y hy => ?_, fun s => ?_, fun ip' hip' fake' hlookup => ?_, hnew,
    fun ip' hip' info hlookup => ?_⟩
  · obtain ⟨hself, hrest⟩ := List.forall_mem_cons.1 hy
    exact (hg.mem_iff (hreal ▸ hself)).trans (h.frame y hrest)
  · rw [Map.lookup_insert_ite]
    by_cases hs : s = ip.string
    · simp [hs]
    · rw [if_neg hs, h.entry]
      refine exists_congr fun ip' => and_congr_left fun hs' => ?_
      exact ⟨List.mem_cons_of_mem ip, fun hip' => hmem hip' (hs' ▸ hs)⟩
  · rw [Map.lookup_insert_ite] at hlookup
    split_ifs at hlookup with hs
    · obtain rfl := Option.some.inj hlookup
      exact ⟨x, hg.mem_self, hreal.trans ((hstring hip').1 hs).symm, hfake, hg.long⟩
    · obtain ⟨y, hy, hyreal, hrest⟩ := h.row ip' (hmem hip' hs) fake' hlookup
      exact ⟨y, hother hip' hs hy hyreal, hyreal, hrest⟩
  · by_cases hs : ip'.string = ip.string
    · obtain ⟨hf, hv⟩ := hmade info (hs ▸ hlookup)
      exact ⟨x, hg.mem_self, hreal.trans ((hstring hip').1 hs).symm, hf, hv⟩
    · rw [hkept _ hs] at hlookup
      obtain ⟨y, hy, hyreal, hrest⟩ := h.made ip' (hmem hip' hs) info hlookup
      exact ⟨y, hother hip' hs hy hyreal, hyreal, hrest⟩

/-- A section that finds a mapping. -/
theorem reuse (h : Progress p₀ now handled p found) (hwf : ∀ ip' ∈ ip :: handled, ip'.WellFormed)
    {isIPv6 : Bool} {clk : Time} {f : IPKey}
    (hsec : p.Secured ip isIPv6 now clk q (.existing f)) :
    Progress p₀ now (ip :: handled) q (found.reuse ip f) := by
  have hip := hwf ip List.mem_cons_self
  obtain ⟨y, hy, hreal, rfl, hlt, t, hg⟩ := hsec.grants_existing h.repInv hip
  refine h.grant hwf hg hreal (toIPKey_toIP _).symm (fun s => ?_) (fun info hlookup => ?_)
    fun s _ => rfl
  · rw [h.new]
    refine ⟨fun ⟨ip', hip', hrest⟩ => ⟨ip', List.mem_cons_of_mem ip hip', hrest⟩, ?_⟩
    rintro ⟨ip', hip', rfl, hnot⟩
    rcases List.mem_cons.1 hip' with rfl | hip'
    · -- a real with a good row and no lease before the call has been handled already
      by_cases hnew : ∀ ip'' ∈ handled, toIPKey ip'' ≠ toIPKey ip'
      · exact absurd ((h.leased_iff hnew).1 ⟨y, hy, hreal, hlt⟩) hnot
      · push Not at hnew
        obtain ⟨ip'', hip'', e⟩ := hnew
        refine ⟨ip'', hip'', ?_, fun hl => hnot ((leased_congr p₀ now e).1 hl)⟩
        exact (string_eq_iff (hwf _ (List.mem_cons_of_mem _ hip'')) hip).2 e
    · exact ⟨ip', hip', rfl, hnot⟩
  · -- the mapping was made earlier in the call
    obtain ⟨ip', hip', hs, -⟩ := (h.new ip.string).1 (by simp [show found.newMappings.lookup _ = _
      from hlookup])
    have hkey := (string_eq_iff (hwf _ (List.mem_cons_of_mem _ hip')) hip).1 hs
    obtain ⟨x, hx, hxreal, hf, hv⟩ := h.made ip' hip' info (hs ▸ hlookup)
    obtain rfl := RepInv.eq_of_real_eq hx hy (hxreal.trans (hkey.trans hreal.symm))
    exact ⟨hf, hv⟩

/-- A section that allocates. -/
theorem allocated (h : Progress p₀ now handled p found)
    (hwf : ∀ ip' ∈ ip :: handled, ip'.WellFormed) {isIPv6 : Bool} {clk : Time}
    {info : MappingInfo} (hsec : p.Secured ip isIPv6 now clk q (.allocated info)) :
    Progress p₀ now (ip :: handled) q (found.allocated ip info) := by
  have hip := hwf ip List.mem_cons_self
  obtain ⟨hnot, hg⟩ := hsec.grants_allocated h.repInv hip
  -- the real is handled for the first time
  have hnew (ip' : IP) (hip' : ip' ∈ handled) : toIPKey ip' ≠ toIPKey ip := fun e =>
    hnot ((leased_congr p now e).1 (h.leased hip'))
  have hstring (ip' : IP) (hip' : ip' ∈ handled) : ip'.string ≠ ip.string := fun e =>
    hnew ip' hip' ((string_eq_iff (hwf _ (List.mem_cons_of_mem _ hip')) hip).1 e)
  refine h.grant hwf hg rfl rfl (fun s => ?_) (fun info' hlookup => ?_) fun s hs => ?_
  · by_cases hs : s = ip.string
    · subst hs
      refine iff_of_true (by simp) ⟨ip, List.mem_cons_self, rfl, ?_⟩
      exact fun hl => hnot ((h.leased_iff hnew).2 hl)
    · rw [AList.lookup_insert_ne hs, h.new]
      refine exists_congr fun ip' => and_congr_left fun hs' => ?_
      refine ⟨List.mem_cons_of_mem ip, fun hip' => (List.mem_cons.1 hip').resolve_left ?_⟩
      rintro rfl
      exact hs hs'.1.symm
  · rw [AList.lookup_insert] at hlookup
    obtain rfl := Option.some.inj hlookup
    exact ⟨rfl, rfl⟩
  · exact AList.lookup_insert_ne hs

/-- **The loop.** -/
theorem fill {isIPv6 : Bool} : ∀ {reals : List IP} {clk : ℕ → Time} {handled : List IP}
    {p p' : IPPool} {found found' : Found}, Progress p₀ now handled p found →
      (∀ ip ∈ reals ++ handled, ip.WellFormed) →
      IPPool.fill isIPv6 now reals clk p found = (p', some found') →
      ∃ all, all.Perm (reals ++ handled) ∧ Progress p₀ now all p' found' := by
  intro reals
  induction reals with
  | nil =>
    intro clk handled p p' found found' h _ hfill
    obtain ⟨rfl, rfl⟩ : p = p' ∧ found = found' := by simpa [IPPool.fill] using hfill
    exact ⟨handled, .refl _, h⟩
  | cons ip rest ih =>
    intro clk handled p p' found found' h hwf hfill
    have hperm : (rest ++ ip :: handled).Perm (ip :: rest ++ handled) := List.perm_middle
    have hwf' : ∀ ip' ∈ rest ++ ip :: handled, ip'.WellFormed := fun ip' hip' =>
      hwf ip' (hperm.mem_iff.1 hip')
    have hwfIP : ∀ ip' ∈ ip :: handled, ip'.WellFormed := fun ip' hip' =>
      hwf' ip' (List.mem_append_right _ hip')
    rcases p.fill_cons_cases hfill with ⟨q, f, hsec, hfill⟩ | ⟨q, info, hsec, hfill⟩ | ⟨q, -, hfill⟩
    · obtain ⟨all, hall, hprogress⟩ := ih (h.reuse hwfIP hsec) hwf' hfill
      exact ⟨all, hall.trans hperm, hprogress⟩
    · obtain ⟨all, hall, hprogress⟩ := ih (h.allocated hwfIP hsec) hwf' hfill
      exact ⟨all, hall.trans hperm, hprogress⟩
    · cases hfill

end Progress

/-! ## The call -/

/-- What is true after a call for some addresses has returned the maps of `found`. -/
structure Served (reals : List IP) (now : Time) (p p' : IPPool) (found : Found) : Prop where
  repInv : RepInv p'
  /-- The result has an entry for each address and no other. -/
  entry : ∀ s, found.result.lookup s ≠ none ↔ ∃ ip ∈ reals, ip.string = s
  /-- Two addresses share an entry only if they are the same. -/
  text : ∀ ip ∈ reals, ∀ ip' ∈ reals, ip.string = ip'.string ↔ toIPKey ip = toIPKey ip'
  /-- Each pair is in the pool in both directions, and has at least five minutes to run. -/
  held : ∀ ip ∈ reals, ∀ fake, found.result.lookup ip.string = some fake →
    p'.fakeOf (toIPKey ip) = some (toIPKey fake) ∧ p'.realOf (toIPKey fake) = some (toIPKey ip) ∧
      ∃ t, p'.expiryOf (toIPKey ip) = some t ∧ now + 5 * minute ≤ t
  /-- Different addresses have different fakes. -/
  distinct : ∀ ip ∈ reals, ∀ ip' ∈ reals, ∀ fake fake',
    found.result.lookup ip.string = some fake → found.result.lookup ip'.string = some fake' →
      toIPKey ip ≠ toIPKey ip' → toIPKey fake ≠ toIPKey fake'
  /-- The new mappings are those of the addresses that had no lease with time to run. -/
  new : ∀ s, found.newMappings.lookup s ≠ none ↔
    ∃ ip ∈ reals, ip.string = s ∧ ¬ p.Leased now ip
  /-- A new mapping is in the result, and its version in the pool. -/
  made : ∀ s info, found.newMappings.lookup s = some info →
    (∃ fake, found.result.lookup s = some fake ∧ toIPKey fake = toIPKey info.ip) ∧
      p'.versionOf (toIPKey info.ip) = some info.version
  /-- The rows of the other addresses are as they were. -/
  frame : ∀ x : Lease, (∀ ip ∈ reals, x.real ≠ toIPKey ip) → (x ∈ p'.leases ↔ x ∈ p.leases)

theorem Progress.served {p₀ p : IPPool} {now : Time} {reals : List IP} {found : Found}
    (h : Progress p₀ now reals p found) (hwf : ∀ ip ∈ reals, ip.WellFormed) :
    Served reals now p₀ p found := by
  have hheld (ip : IP) (hip : ip ∈ reals) (fake : IP)
      (hfake : found.result.lookup ip.string = some fake) :
      p.fakeOf (toIPKey ip) = some (toIPKey fake) ∧ p.realOf (toIPKey fake) = some (toIPKey ip) ∧
        ∃ t, p.expiryOf (toIPKey ip) = some t ∧ now + 5 * minute ≤ t := by
    obtain ⟨x, hx, hreal, hf, hlong⟩ := h.row ip hip fake hfake
    have hfakeOf : p.fakeOf (toIPKey ip) = some (toIPKey fake) := by rw [← hreal, ← hf, hx.1]
    exact ⟨hfakeOf, (h.repInv.fakeOf_iff _ _).1 hfakeOf, x.expiry, hreal ▸ hx.2.2, hlong⟩
  refine ⟨h.repInv, h.entry, fun ip hip ip' hip' => string_eq_iff (hwf ip hip) (hwf ip' hip'),
    hheld, fun ip hip ip' hip' fake fake' hfake hfake' hne e => hne ?_, h.new,
    fun s info hinfo => ?_, h.frame⟩
  · exact h.repInv.real_unique (hheld ip hip fake hfake).1 (e ▸ (hheld ip' hip' fake' hfake').1)
  · obtain ⟨ip, hip, rfl, -⟩ := (h.new s).1 (by simp [hinfo])
    obtain ⟨x, hx, hreal, hf, hv⟩ := h.made ip hip info hinfo
    obtain ⟨fake, hfake⟩ := Option.ne_none_iff_exists'.1 ((h.entry ip.string).2 ⟨ip, hip, rfl⟩)
    refine ⟨⟨fake, hfake, ?_⟩, by rw [← hf, ← hv, hx.2.1]⟩
    have := (hheld ip hip fake hfake).1
    rw [← hreal, hx.1, hf] at this
    exact (Option.some.inj this).symm

end IPPool

/-- **What a call that succeeds guarantees**, on a consistent pool and for any list of addresses. -/
theorem served_getFakeIPsForReals {p p' : IPPool} (h : RepInv p) {reals : List IP}
    (hwf : ∀ ip ∈ reals, ip.WellFormed) {isIPv6 : Bool} {now : Time} {clk : ℕ → Time}
    {found : IPPool.Found} (hcall : p.getFakeIPsForReals reals isIPv6 now clk = (p', some found)) :
    IPPool.Served reals now p p' found := by
  rw [IPPool.getFakeIPsForReals] at hcall
  split_ifs at hcall with hnil
  · cases hcall
  · have hperm : (IPPool.sortReals reals).Perm reals := List.perm_insertionSort _ _
    obtain ⟨all, hall, hprogress⟩ := (IPPool.Progress.start h now).fill
      (fun ip hip => hwf ip (hperm.mem_iff.1 (by simpa using hip))) hcall
    rw [List.append_nil] at hall
    have hmem {ip : IP} : ip ∈ all ↔ ip ∈ reals := (hall.trans hperm).mem_iff
    have hserved := hprogress.served fun ip hip => hwf ip (hmem.1 hip)
    exact {
      repInv := hserved.repInv
      entry := by simpa only [hmem] using hserved.entry
      text := by simpa only [hmem] using hserved.text
      held := by simpa only [hmem] using hserved.held
      distinct := by simpa only [hmem] using hserved.distinct
      new := by simpa only [hmem] using hserved.new
      made := hserved.made
      frame := by simpa only [hmem] using hserved.frame }

/-- A call that finds a long lease, a short one, one that has run out and none, with one address
twice. -/
theorem served_mixed :
    let p := [Call.addMapping [1, 1, 1, 1] [198, 18, 0, 1] 1 (100 * minute),
      .addMapping [2, 2, 2, 2] [198, 18, 0, 2] 2 (12 * minute),
      .addMapping [3, 3, 3, 3] [198, 18, 0, 3] 3 (9 * minute)].foldl Call.run
        (newIPPoolWithConfig [] [] ⟨0, 0⟩)
    let reals : List IP := [[4, 4, 4, 4], [1, 1, 1, 1], [3, 3, 3, 3], [2, 2, 2, 2], [4, 4, 4, 4]]
    let out := p.getFakeIPsForReals reals false (10 * minute) fun _ => 10 * minute
    ∃ found, out.2 = some found ∧ IPPool.Served reals (10 * minute) p out.1 found := by
  intro p reals out
  have hp : RepInv p :=
    Call.repInv_foldl (.new [] [] ⟨0, 0⟩) (by simp [Call.addresses, IP.WellFormed])
  have hwf : ∀ ip ∈ reals, ip.WellFormed := by simp [reals, IP.WellFormed]
  have hok : out.2.isSome = true := by decide +kernel
  clear_value p reals
  obtain ⟨found, hfound⟩ := Option.isSome_iff_exists.1 hok
  exact ⟨found, hfound, served_getFakeIPsForReals hp hwf (Prod.ext rfl hfound)⟩

end NextPath.Pool
