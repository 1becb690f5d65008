import NextPath.Pool.Results
import NextPath.Proxy.Handler

/-!
# The addresses the handler collects

The addresses of a response, as the lists of the places where they stand (`addresses4`,
`addresses6`), against the reals that the closures of the handler collect from them. Every place
that is not skipped has a real with the same text (`exists_mem_collect_v4`), which is how the
replacement finds its fake; all the reals of a family are of that family.

`allocated_allocateBoth` puts the collection together with what the pool returns: the two maps, as
functions of the places.
-/

namespace NextPath.Proxy

open Net Pool
open IPPool (Answered)

/-! ## The places of the addresses -/

/-- The addresses of a parameter for the call of the IPv4 family. -/
def SVCBKeyValue.addresses4 : SVCBKeyValue → List IP
  | .ipv4hint hint => hint
  | _ => []

/-- The addresses of a parameter for the call of the IPv6 family. -/
def SVCBKeyValue.addresses6 : SVCBKeyValue → List IP
  | .ipv6hint hint => hint
  | _ => []

/-- The addresses of a record for the call of the IPv4 family. -/
def RR.addresses4 (rr : RR) : List IP :=
  match rr.data with
  | .a addr => [addr]
  | .svcb record | .https record => record.value.flatMap SVCBKeyValue.addresses4
  | _ => []

/-- The addresses of a record for the call of the IPv6 family. -/
def RR.addresses6 (rr : RR) : List IP :=
  match rr.data with
  | .aaaa addr => [addr]
  | .svcb record | .https record => record.value.flatMap SVCBKeyValue.addresses6
  | _ => []

/-- The records of a response. -/
def Msg.records (resp : Msg) : List RR := resp.answer ++ resp.ns ++ resp.extra

/-! ## Collection by places -/

theorem foldl_addV6_false (reals : List IP) (ips : List IP) :
    ips.foldl (addV6 false) reals = reals := by
  induction ips with
  | nil => rfl
  | cons ip ips ih => exact ih

theorem extractHint_eq (enableIPv6 : Bool) (reals : Reals) (kv : SVCBKeyValue) :
    extractHint enableIPv6 reals kv =
      ⟨kv.addresses4.foldl addV4 reals.v4, kv.addresses6.foldl (addV6 enableIPv6) reals.v6⟩ := by
  cases kv with
  | ipv4hint hint => rfl
  | ipv6hint hint =>
    cases enableIPv6 with
    | false =>
      rw [SVCBKeyValue.addresses6, foldl_addV6_false]
      rfl
    | true => rfl
  | other key data notHint => rfl

theorem extractSVCBHints_eq (enableIPv6 : Bool) (values : List SVCBKeyValue) (reals : Reals) :
    extractSVCBHints enableIPv6 reals values =
      ⟨(values.flatMap SVCBKeyValue.addresses4).foldl addV4 reals.v4,
        (values.flatMap SVCBKeyValue.addresses6).foldl (addV6 enableIPv6) reals.v6⟩ := by
  induction values generalizing reals with
  | nil => rfl
  | cons kv values ih =>
    rw [extractSVCBHints, List.foldl_cons, ← extractSVCBHints, ih, extractHint_eq,
      List.flatMap_cons, List.flatMap_cons, List.foldl_append, List.foldl_append]

theorem collectIPs_eq (enableIPv6 : Bool) (reals : Reals) (rr : RR) :
    collectIPs enableIPv6 reals rr =
      ⟨rr.addresses4.foldl addV4 reals.v4, rr.addresses6.foldl (addV6 enableIPv6) reals.v6⟩ := by
  unfold collectIPs RR.addresses4 RR.addresses6
  cases rr.data with
  | svcb record => exact extractSVCBHints_eq ..
  | https record => exact extractSVCBHints_eq ..
  | _ => rfl

/-- **The reals are folded from the places**, each family on its own. -/
theorem collect_eq (enableIPv6 : Bool) (resp : Msg) :
    collect enableIPv6 resp =
      ⟨(resp.records.flatMap RR.addresses4).foldl addV4 [],
        (resp.records.flatMap RR.addresses6).foldl (addV6 enableIPv6) []⟩ := by
  have hfold (rrs : List RR) : ∀ reals : Reals, rrs.foldl (collectIPs enableIPv6) reals =
      ⟨(rrs.flatMap RR.addresses4).foldl addV4 reals.v4,
        (rrs.flatMap RR.addresses6).foldl (addV6 enableIPv6) reals.v6⟩ := by
    induction rrs with
    | nil => exact fun _ => rfl
    | cons rr rrs ih =>
      intro reals
      rw [List.foldl_cons, ih, collectIPs_eq, List.flatMap_cons, List.flatMap_cons,
        List.foldl_append, List.foldl_append]
  exact hfold resp.records ⟨[], []⟩

/-! ## What is collected -/

/-- Equal addresses have the same text. -/
theorem string_eq_of_equal {ip ip' : IP} (h : ip.equal ip' = true) : ip.string = ip'.string := by
  -- one of them has four bytes, which the other has after the prefix
  have hmixed {a b : IP} (ha : a.length = 4) (hb : b.length = 16)
      (hpre : b.take 12 = v4InV6Prefix) (hdrop : a = b.drop 12) : a.string = b.string := by
    have h16 : a.to16 = b := by
      rw [IP.to16_of_length_four ha, ← hpre, hdrop, List.take_append_drop]
    rw [← string_to16 (.inl ha), h16]
  rw [IP.equal] at h
  split_ifs at h with hlen h4 h16
  · exact congrArg IP.string (of_decide_eq_true h)
  · obtain ⟨hpre, hdrop⟩ := of_decide_eq_true h
    exact hmixed h4.1 h4.2 hpre hdrop
  · obtain ⟨hpre, hdrop⟩ := of_decide_eq_true h
    exact (hmixed h16.2 h16.1 hpre hdrop.symm).symm

theorem string_to4 {ip : IP} (h : ip.to4 ≠ []) : IP.string ip.to4 = ip.string := by
  have hlen := IP.length_to4_of_ne_nil h
  rw [string_eq_iff (.inl hlen) (IP.wellFormed_of_to4_ne_nil h), toIPKey_to4 h]

section AddReal

variable {skip : IP → Bool} {form : IP → IP}

theorem mem_addReal {reals : List IP} {ip r : IP} (h : r ∈ addReal skip form reals ip) :
    r ∈ reals ∨ skip ip = false ∧ r = form ip := by
  rw [addReal] at h
  split_ifs at h with hskip hany
  · exact .inl h
  · exact .inl h
  · rw [List.mem_append, List.mem_singleton] at h
    exact h.imp_right fun e => ⟨Bool.eq_false_iff.2 hskip, e⟩

theorem subset_addReal (reals : List IP) (ip : IP) : reals ⊆ addReal skip form reals ip := by
  intro r hr
  rw [addReal]
  split_ifs
  · exact hr
  · exact hr
  · exact List.mem_append_left _ hr

theorem exists_mem_addReal (reals : List IP) {ip : IP} (h : skip ip = false) :
    ∃ r ∈ addReal skip form reals ip, r.string = (form ip).string := by
  rw [addReal, if_neg (Bool.eq_false_iff.1 h)]
  split_ifs with hany
  · obtain ⟨r, hr, heq⟩ := List.any_eq_true.1 hany
    exact ⟨r, hr, string_eq_of_equal heq⟩
  · exact ⟨form ip, by simp, rfl⟩

theorem mem_foldl_addReal {ips reals : List IP} {r : IP}
    (h : r ∈ ips.foldl (addReal skip form) reals) :
    r ∈ reals ∨ ∃ ip ∈ ips, skip ip = false ∧ r = form ip := by
  induction ips generalizing reals with
  | nil => exact .inl h
  | cons ip ips ih =>
    rcases ih h with h | ⟨ip', hip', hskip, e⟩
    · rcases mem_addReal h with h | ⟨hskip, e⟩
      · exact .inl h
      · exact .inr ⟨ip, List.mem_cons_self, hskip, e⟩
    · exact .inr ⟨ip', List.mem_cons_of_mem _ hip', hskip, e⟩

theorem subset_foldl_addReal (ips reals : List IP) :
    reals ⊆ ips.foldl (addReal skip form) reals := by
  induction ips generalizing reals with
  | nil => exact List.Subset.refl _
  | cons ip ips ih => exact List.Subset.trans (subset_addReal reals ip) (ih _)

theorem exists_mem_foldl_addReal {ips : List IP} {ip : IP} (hip : ip ∈ ips)
    (hskip : skip ip = false) (reals : List IP) :
    ∃ r ∈ ips.foldl (addReal skip form) reals, r.string = (form ip).string := by
  induction ips generalizing reals with
  | nil => cases hip
  | cons ip' ips ih =>
    rcases List.mem_cons.1 hip with rfl | hmem
    · obtain ⟨r, hr, hstr⟩ := @exists_mem_addReal skip form reals _ hskip
      exact ⟨r, subset_foldl_addReal ips _ hr, hstr⟩
    · exact ih hmem _

end AddReal

/-- The reals of the IPv4 call are IPv4 addresses, of four bytes. -/
theorem length_of_mem_collect {enableIPv6 : Bool} {resp : Msg} {r : IP}
    (h : r ∈ (collect enableIPv6 resp).v4) : r.length = 4 := by
  rw [collect_eq] at h
  obtain ⟨ip, -, hskip, rfl⟩ := (mem_foldl_addReal h).resolve_left List.not_mem_nil
  have h4 : ip.to4 ≠ [] := by simpa using (Bool.or_eq_false_iff.1 hskip).1
  exact IP.length_to4_of_ne_nil h4

theorem to4_ne_nil_of_mem_collect {enableIPv6 : Bool} {resp : Msg} {r : IP}
    (h : r ∈ (collect enableIPv6 resp).v4) : r.to4 ≠ [] := by
  have hlen := length_of_mem_collect h
  rw [IP.to4_of_length hlen]
  rintro rfl
  cases hlen

/-- Those of the IPv6 call are not. -/
theorem to4_eq_nil_of_mem_collect {enableIPv6 : Bool} {resp : Msg} {r : IP}
    (h : r ∈ (collect enableIPv6 resp).v6) : r.to4 = [] := by
  rw [collect_eq] at h
  obtain ⟨ip, -, hskip, rfl⟩ := (mem_foldl_addReal h).resolve_left List.not_mem_nil
  simpa using (Bool.or_eq_false_iff.1 (Bool.or_eq_false_iff.1 hskip).1).2

/-- An IPv4 address that is not zero has a real with its text. -/
theorem exists_mem_collect_v4 (enableIPv6 : Bool) {resp : Msg} {ip : IP}
    (hip : ip ∈ resp.records.flatMap RR.addresses4) (h4 : ip.to4 ≠ [])
    (hzero : ip.to4.equal ipv4zero = false) :
    ∃ r ∈ (collect enableIPv6 resp).v4, r.string = ip.string := by
  have hskip : skipV4 ip = false := by simp [skipV4, h4, hzero]
  rw [collect_eq, ← string_to4 h4]
  exact exists_mem_foldl_addReal hip hskip []

/-- So has any other address that is not zero, if IPv6 is enabled. -/
theorem exists_mem_collect_v6 {enableIPv6 : Bool} (henable : enableIPv6 = true) {resp : Msg}
    {ip : IP} (hip : ip ∈ resp.records.flatMap RR.addresses6) (h4 : ip.to4 = [])
    (hzero : ip.equal ipv6unspecified = false) :
    ∃ r ∈ (collect enableIPv6 resp).v6, r.string = ip.string := by
  have hskip : skipV6 enableIPv6 ip = false := by simp [skipV6, henable, h4, hzero]
  rw [collect_eq]
  exact exists_mem_foldl_addReal hip hskip []

/-! ## The maps, by places -/

/-- Slices with the same text are of the same family. -/
theorem to4_eq_nil_of_string_eq {ip ip' : IP} (e : ip.string = ip'.string) :
    ip.to4 = [] ↔ ip'.to4 = [] := by
  have := congrArg IPKey.isIPv6 (IPPool.slot_of_string_eq e).2
  rwa [isIPv6_toIPKey, isIPv6_toIPKey, decide_eq_decide] at this

/-- What the two calls of the pool have returned for the places of a response: the fakes of the
pool, one for each place that was not skipped, and none for a place of the other family. -/
structure Allocated (enableIPv6 : Bool) (resp : Msg) (p : IPPool) (mapV4 mapV6 : Map Bytes IP) :
    Prop where
  sound4 : ∀ {ip fake : IP}, mapV4.lookup ip.string = some fake →
    ip.to4 ≠ [] ∧ p.fakeAt ip = some (toIPKey fake)
  sound6 : ∀ {ip fake : IP}, mapV6.lookup ip.string = some fake →
    ip.to4 = [] ∧ p.fakeAt ip = some (toIPKey fake)
  total4 : ∀ {ip : IP}, ip ∈ resp.records.flatMap RR.addresses4 → ip.to4 ≠ [] →
    ip.to4.equal ipv4zero = false → ∃ fake, mapV4.lookup ip.string = some fake
  total6 : ∀ {ip : IP}, enableIPv6 = true → ip ∈ resp.records.flatMap RR.addresses6 →
    ip.to4 = [] → ip.equal ipv6unspecified = false → ∃ fake, mapV6.lookup ip.string = some fake

theorem answered_getFakes {p p' : IPPool} {reals : List IP} {isIPv6 : Bool} {now : Time}
    {clk : ℕ → Time} {found : IPPool.Found}
    (h : getFakes p reals isIPv6 now clk = (p', some found)) :
    Answered reals p p' found.result := by
  rw [getFakes] at h
  split_ifs at h with hnil
  · obtain ⟨rfl, rfl⟩ : p = p' ∧ ⟨∅, ∅⟩ = found := by simpa using h
    exact ⟨by simp [hnil], fun s fake hs => by simp at hs, fun _ _ _ => rfl⟩
  · exact IPPool.answered_getFakeIPsForReals h

/-- The second call keeps the fakes of the first. -/
theorem fakeAt_of_answered_v6 {p p' : IPPool} {reals : List IP} {result : Map Bytes IP}
    (h : Answered reals p p' result) (hreals : ∀ r ∈ reals, r.to4 = []) {ip : IP}
    (h4 : ip.to4 ≠ []) : p'.fakeAt ip = p.fakeAt ip := by
  rw [IPPool.fakeAt, IPPool.fakeAt, h.frame]
  rintro r hr ⟨-, hkey⟩
  have := congrArg IPKey.isIPv6 hkey
  rw [isIPv6_toIPKey, isIPv6_toIPKey, decide_eq_decide] at this
  exact h4 (this.2 (hreals r hr))

/-- **The maps of a request whose allocations succeed.** -/
theorem allocated_allocateBoth {enableIPv6 : Bool} {resp : Msg} {clocks : Clocks} {p p' : IPPool}
    {found4 found6 : IPPool.Found}
    (h : allocateBoth p (collect enableIPv6 resp) clocks = (p', some (found4, found6))) :
    Allocated enableIPv6 resp p' found4.result found6.result := by
  rw [allocateBoth] at h
  -- the two calls
  generalize hcall4 : getFakes p _ false clocks.now4 clocks.clk4 = out4 at h
  rcases out4 with ⟨p4, _ | f4⟩
  · simp at h
  dsimp only at h
  generalize hcall6 : getFakes p4 _ true clocks.now6 clocks.clk6 = out6 at h
  rcases out6 with ⟨p6, _ | f6⟩
  · simp at h
  obtain ⟨rfl, rfl, rfl⟩ : p6 = p' ∧ f4 = found4 ∧ f6 = found6 := by simpa using h
  have hans4 := answered_getFakes hcall4
  have hans6 := answered_getFakes hcall6
  constructor
  · intro ip fake hip
    obtain ⟨r, hr, hstr, -⟩ := hans4.sound _ _ hip
    have h4 : ip.to4 ≠ [] := (to4_eq_nil_of_string_eq hstr).not.1 (to4_ne_nil_of_mem_collect hr)
    refine ⟨h4, ?_⟩
    rw [fakeAt_of_answered_v6 hans6 (fun _ => to4_eq_nil_of_mem_collect) h4, hans4.fakeAt hip]
  · intro ip fake hip
    obtain ⟨r, hr, hstr, -⟩ := hans6.sound _ _ hip
    exact ⟨(to4_eq_nil_of_string_eq hstr).1 (to4_eq_nil_of_mem_collect hr), hans6.fakeAt hip⟩
  · intro ip hip h4 hzero
    obtain ⟨r, hr, hstr⟩ := exists_mem_collect_v4 enableIPv6 hip h4 hzero
    exact hstr ▸ hans4.total r hr
  · intro ip henable hip h4 hzero
    obtain ⟨r, hr, hstr⟩ := exists_mem_collect_v6 henable hip h4 hzero
    exact hstr ▸ hans6.total r hr

end NextPath.Proxy
