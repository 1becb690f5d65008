import NextPath.Proxy.Collection

/-!
# No real address leaves the proxy

`NoLeak` says what a client may be sent in place of the upstream's response: at each place of an
address the unspecified address or the fake that the pool gives for the address at that place, no
signatures, every other record in its order, and TTLs that do not outlive the mappings.

The handler collects the addresses with one set of closures and replaces them with another. Where
the two disagree is settled by `Plain`: an `A` or `AAAA` record whose address is of the other family
is passed over by the collection and kept by the replacement. A hint in the same position is
dropped.
-/

namespace NextPath.Proxy

open Net Pool
open IPPool (Found)

/-! ## What may be sent -/

/-- The fake that the pool gives for an address: the one in the map that the call for its family
has returned, which is the one the pool maps the address to. -/
def IsFake (fakes : Map Bytes IP) (p : IPPool) (ip ip' : IP) : Prop :=
  fakes.lookup ip.string = some ip' ∧ p.fakeAt ip = some (toIPKey ip')

/-- The hints that are left, each at the place of one of the upstream's. -/
def SafeHints (fakes : Map Bytes IP) (p : IPPool) (hint hint' : List IP) : Prop :=
  ∃ kept, kept.Sublist hint ∧
    List.Forall₂ (fun ip ip' => isUnspecified ip' = true ∨ IsFake fakes p ip ip') kept hint'

/-- The parameters that are left: all but the IPv6 hints, if that family is disabled. -/
def keepsValue (enableIPv6 : Bool) : SVCBKeyValue → Bool
  | .ipv6hint _ => enableIPv6
  | _ => true

/-- The records that are left: all but signatures, and `AAAA` records if IPv6 is disabled. -/
def keeps (enableIPv6 : Bool) (rr : RR) : Bool :=
  match rr.data with
  | .aaaa _ => enableIPv6
  | .rrsig _ | .nsec _ | .nsec3 _ => false
  | _ => true

/-- An `RRSIG`, `NSEC` or `NSEC3` record. -/
def RR.isSignature (rr : RR) : Bool :=
  match rr.data with
  | .rrsig _ | .nsec _ | .nsec3 _ => true
  | _ => false

/-- An `AAAA` record, or one with an IPv6 hint. -/
def RR.hasV6 (rr : RR) : Bool :=
  match rr.data with
  | .aaaa _ => true
  | .svcb record | .https record => record.value.any fun kv => !keepsValue false kv
  | _ => false

section Safe

variable (proxy : DNSProxy) (p : IPPool) (mapV4 mapV6 : Map Bytes IP)

/-- What a parameter may become. -/
def SafeValue : SVCBKeyValue → SVCBKeyValue → Prop
  | .ipv4hint hint, .ipv4hint hint' => SafeHints mapV4 p hint hint'
  | .ipv6hint hint, .ipv6hint hint' => SafeHints mapV6 p hint hint'
  | kv, kv' => kv' = kv

/-- What the service parameters of a record may become. -/
structure SafeSVCB (record record' : SVCB) : Prop where
  priority : record'.priority = record.priority
  target : record'.target = record.target
  value : List.Forall₂ (SafeValue p mapV4 mapV6)
    (record.value.filter (keepsValue proxy.enableIPv6)) record'.value

/-- What an address, if there is one, may become. -/
def SafeAddr (fakes : Map Bytes IP) (ip ip' : IP) : Prop :=
  ip' = [] ∨ isUnspecified ip' = true ∨ IsFake fakes p ip ip'

/-- What the data of a record may become; `short` says that its TTL is bounded, `same` that it is
kept. -/
def SafeData (short same : Prop) : RData → RData → Prop
  | .a ip, .a ip' =>
    SafeAddr p mapV4 ip ip' ∧ (ip' ≠ ip → short) ∧ (mapV4.lookup ip.string = none → same)
  | .aaaa ip, .aaaa ip' =>
    SafeAddr p mapV6 ip ip' ∧ (ip' ≠ ip → short) ∧ (mapV6.lookup ip.string = none → same)
  | .svcb record, .svcb record' => SafeSVCB proxy p mapV4 mapV6 record record' ∧ short
  | .https record, .https record' => SafeSVCB proxy p mapV4 mapV6 record record' ∧ short
  | data, data' => data' = data ∧ same

/-- What a record may become. -/
structure SafeRR (rr rr' : RR) : Prop where
  name : rr'.name = rr.name
  cls : rr'.cls = rr.cls
  ttl : rr'.ttl ≤ rr.ttl
  data : SafeData proxy p mapV4 mapV6 (rr'.ttl ≤ min rr.ttl proxy.maxTTL) (rr'.ttl = rr.ttl)
    rr.data rr'.data

/-- What a section may become. -/
structure SafeSection (rrs rrs' : List RR) : Prop where
  records : List.Forall₂ (SafeRR proxy p mapV4 mapV6) (rrs.filter (keeps proxy.enableIPv6)) rrs'
  unsigned : ∀ rr ∈ rrs', rr.isSignature = false
  noV6 : proxy.enableIPv6 = false → ∀ rr ∈ rrs', rr.hasV6 = false

/-- What a response may become. -/
structure NoLeak (resp resp' : Msg) : Prop where
  answer : SafeSection proxy p mapV4 mapV6 resp.answer resp'.answer
  ns : SafeSection proxy p mapV4 mapV6 resp.ns resp'.ns
  extra : SafeSection proxy p mapV4 mapV6 resp.extra resp'.extra

end Safe

/-- The address of an `A` record is an IPv4 one and that of an `AAAA` record, unless it is dropped,
an IPv6 one that is not an IPv4 address in its long form; either may be unspecified. -/
def Plain (enableIPv6 : Bool) (rr : RR) : Prop :=
  match rr.data with
  | .a ip => ip = [] ∨ ip.to4 ≠ [] ∨ isUnspecified ip = true
  | .aaaa ip => enableIPv6 = true → ip.to4 = [] ∨ isUnspecified ip = true
  | _ => True

instance (enableIPv6 : Bool) : DecidablePred (Plain enableIPv6)
  | ⟨_, _, _, .a ip⟩ =>
    inferInstanceAs (Decidable (ip = [] ∨ ip.to4 ≠ [] ∨ isUnspecified ip = true))
  | ⟨_, _, _, .aaaa ip⟩ =>
    inferInstanceAs (Decidable (enableIPv6 = true → ip.to4 = [] ∨ isUnspecified ip = true))
  | ⟨_, _, _, .svcb _⟩ | ⟨_, _, _, .https _⟩ | ⟨_, _, _, .rrsig _⟩ | ⟨_, _, _, .nsec _⟩
  | ⟨_, _, _, .nsec3 _⟩ | ⟨_, _, _, .other _ _⟩ => isTrue trivial

/-! ## One record -/

theorem isUnspecified_of_to4 {ip : IP} (h : ip.to4.equal ipv4zero = true) :
    isUnspecified ip = true := by
  by_cases hlen : ip.length = 4
  · rw [IP.to4_of_length hlen] at h
    rw [isUnspecified, h, Bool.true_or]
  · -- sixteen bytes: the prefix, and four zeros after it
    have h4 : ip.to4 ≠ [] := by
      intro e
      rw [e] at h
      exact absurd h (by decide)
    have hwf := IP.wellFormed_of_to4_ne_nil h4
    have hzero : ip.to4 = [0, 0, 0, 0] := by
      have hlen4 := IP.length_to4_of_ne_nil h4
      rw [IP.equal, if_neg (by rw [hlen4]; decide), if_pos ⟨hlen4, rfl⟩] at h
      exact (of_decide_eq_true h).2
    have hip : ip = ipv4zero := by
      rw [← IP.to16_of_length (hwf.resolve_left hlen), IP.to16_eq_of_to4_ne_nil h4, hzero]
      rfl
    rw [hip]
    decide

theorem forall₂_filterMap_iff {α β : Type} {f : α → Option β} {keep : α → Bool}
    {R : α → β → Prop} (hkeep : ∀ x, (f x).isSome = keep x) (xs : List α) :
    List.Forall₂ R (xs.filter keep) (xs.filterMap f) ↔ ∀ x ∈ xs, ∀ y, f x = some y → R x y := by
  induction xs with
  | nil => simp
  | cons x xs ih =>
    have hx := hkeep x
    cases hf : f x with
    | none =>
      rw [hf, Option.isSome_none] at hx
      simpa [hf, ← hx] using ih
    | some y =>
      rw [hf, Option.isSome_some] at hx
      simp [hf, ← hx, ih]

section Record

variable {proxy : DNSProxy} {resp : Msg} {p : IPPool} {mapV4 mapV6 : Map Bytes IP}

theorem safeHints_patchHints {fakes : Map Bytes IP}
    (h : ∀ {ip fake : IP}, fakes.lookup ip.string = some fake → p.fakeAt ip = some (toIPKey fake))
    (hint : List IP) : SafeHints fakes p hint (patchHints fakes hint) :=
  ⟨_, List.filter_sublist,
    (forall₂_filterMap_iff (fun _ => rfl) hint).2 fun _ _ _ hip => .inr ⟨hip, h hip⟩⟩

theorem isSome_patchValue (mapV4 mapV6 : Map Bytes IP) (enableIPv6 : Bool) (kv : SVCBKeyValue) :
    (patchValue mapV4 mapV6 enableIPv6 kv).isSome = keepsValue enableIPv6 kv := by
  cases kv with
  | ipv6hint hint => cases enableIPv6 <;> rfl
  | _ => rfl

theorem isSome_filterRR (proxy : DNSProxy) (mapV4 mapV6 : Map Bytes IP) (rr : RR) :
    (proxy.filterRR mapV4 mapV6 rr).isSome = keeps proxy.enableIPv6 rr := by
  rcases rr with ⟨name, cls, ttl, data⟩
  cases data with
  | a ip => cases h : mapV4.lookup ip.string <;> simp [DNSProxy.filterRR, keeps, h]
  | aaaa ip =>
    cases henable : proxy.enableIPv6 <;> cases h : mapV6.lookup ip.string <;>
      simp [DNSProxy.filterRR, keeps, henable, h]
  | _ => rfl

/-- **The hints are always safe**: those without a fake are dropped. -/
theorem safeSVCB_patch (h : Allocated proxy.enableIPv6 resp p mapV4 mapV6) (record : SVCB) :
    SafeSVCB proxy p mapV4 mapV6 record
      { record with value := patchSVCBValues record.value mapV4 mapV6 proxy.enableIPv6 } := by
  refine ⟨rfl, rfl, (forall₂_filterMap_iff (isSome_patchValue _ _ _) _).2 fun kv _ kv' hkv => ?_⟩
  cases kv with
  | ipv4hint hint =>
    cases hkv
    exact safeHints_patchHints (fun hip => (h.sound4 hip).2) hint
  | ipv6hint hint =>
    rw [patchValue] at hkv
    split_ifs at hkv
    cases hkv
    exact safeHints_patchHints (fun hip => (h.sound6 hip).2) hint
  | other key data notHint =>
    cases hkv
    rfl

/-- An address with a fake is replaced, in a record with a bounded TTL. -/
theorem safeAddr_fake {fakes : Map Bytes IP} {ip fake : IP} {short same : Prop}
    (hip : fakes.lookup ip.string = some fake) (hfake : p.fakeAt ip = some (toIPKey fake))
    (hshort : short) :
    SafeAddr p fakes ip fake ∧ (fake ≠ ip → short) ∧ (fakes.lookup ip.string = none → same) :=
  ⟨.inr (.inr ⟨hip, hfake⟩), fun _ => hshort, fun hnone => absurd (hip.symm.trans hnone) (by simp)⟩

/-- An address without a fake is left as it is, which is safe only if it tells nothing. -/
theorem safeAddr_self_iff {fakes : Map Bytes IP} {ip : IP} {short same : Prop}
    (hip : fakes.lookup ip.string = none) (hsame : same) :
    SafeAddr p fakes ip ip ∧ (ip ≠ ip → short) ∧ (fakes.lookup ip.string = none → same) ↔
      ip = [] ∨ isUnspecified ip = true := by
  simp [SafeAddr, IsFake, hip, hsame]

/-- A record of type A. -/
theorem safeRR_a_iff (h : Allocated proxy.enableIPv6 resp p mapV4 mapV6) {name : Bytes}
    {cls : UInt16} {ttl : UInt32} {ip : IP} {rr' : RR}
    (hmem : ip ∈ resp.records.flatMap RR.addresses4)
    (hf : proxy.filterRR mapV4 mapV6 ⟨name, cls, ttl, .a ip⟩ = some rr') :
    SafeRR proxy p mapV4 mapV6 ⟨name, cls, ttl, .a ip⟩ rr' ↔
      Plain proxy.enableIPv6 ⟨name, cls, ttl, .a ip⟩ := by
  simp only [DNSProxy.filterRR] at hf
  cases hip : mapV4.lookup ip.string with
  | some fake =>
    obtain ⟨h4, hfake⟩ := h.sound4 hip
    rw [hip] at hf
    cases hf
    exact iff_of_true ⟨rfl, rfl, Std.min_le_left, safeAddr_fake hip hfake (Std.le_refl _)⟩
      (.inr (.inl h4))
  | none =>
    rw [hip] at hf
    cases hf
    constructor
    · intro hsafe
      exact ((safeAddr_self_iff hip rfl).1 hsafe.data).imp_right .inr
    · intro hplain
      refine ⟨rfl, rfl, Std.le_refl _, (safeAddr_self_iff hip rfl).2 ?_⟩
      rcases hplain with hnil | h4 | hzero
      · exact .inl hnil
      · -- an IPv4 address that was not collected is zero
        refine .inr (isUnspecified_of_to4 ?_)
        by_contra hzero
        obtain ⟨fake, hfake⟩ := h.total4 hmem h4 (Bool.eq_false_iff.2 hzero)
        exact absurd (hip.symm.trans hfake) (by simp)
      · exact .inr hzero

/-- A record of type AAAA. -/
theorem safeRR_aaaa_iff (h : Allocated proxy.enableIPv6 resp p mapV4 mapV6) {name : Bytes}
    {cls : UInt16} {ttl : UInt32} {ip : IP} {rr' : RR}
    (hmem : ip ∈ resp.records.flatMap RR.addresses6)
    (hf : proxy.filterRR mapV4 mapV6 ⟨name, cls, ttl, .aaaa ip⟩ = some rr') :
    SafeRR proxy p mapV4 mapV6 ⟨name, cls, ttl, .aaaa ip⟩ rr' ↔
      Plain proxy.enableIPv6 ⟨name, cls, ttl, .aaaa ip⟩ := by
  simp only [DNSProxy.filterRR] at hf
  split_ifs at hf with hdisabled
  have henable : proxy.enableIPv6 = true := by simpa using hdisabled
  cases hip : mapV6.lookup ip.string with
  | some fake =>
    obtain ⟨h4, hfake⟩ := h.sound6 hip
    rw [hip] at hf
    cases hf
    exact iff_of_true ⟨rfl, rfl, Std.min_le_left, safeAddr_fake hip hfake (Std.le_refl _)⟩
      fun _ => .inl h4
  | none =>
    rw [hip] at hf
    cases hf
    constructor
    · intro hsafe _
      refine ((safeAddr_self_iff hip rfl).1 hsafe.data).imp_left ?_
      rintro rfl
      rfl
    · intro hplain
      refine ⟨rfl, rfl, Std.le_refl _, (safeAddr_self_iff hip rfl).2 ?_⟩
      rcases hplain henable with h4 | hzero
      · -- any other address that was not collected is zero
        refine .inr ?_
        rw [isUnspecified, Bool.or_eq_true]
        refine .inr ?_
        by_contra hzero
        obtain ⟨fake, hfake⟩ := h.total6 henable hmem h4 (Bool.eq_false_iff.2 hzero)
        exact absurd (hip.symm.trans hfake) (by simp)
      · exact .inr hzero

/-- **A record is safe exactly when it is plain.** -/
theorem safeRR_iff (h : Allocated proxy.enableIPv6 resp p mapV4 mapV6) {rr rr' : RR}
    (hrr : rr ∈ resp.records) (hf : proxy.filterRR mapV4 mapV6 rr = some rr') :
    SafeRR proxy p mapV4 mapV6 rr rr' ↔ Plain proxy.enableIPv6 rr := by
  rcases rr with ⟨name, cls, ttl, data⟩
  cases data with
  | a ip =>
    exact safeRR_a_iff h (List.mem_flatMap.2 ⟨_, hrr, List.mem_singleton_self ip⟩) hf
  | aaaa ip =>
    exact safeRR_aaaa_iff h (List.mem_flatMap.2 ⟨_, hrr, List.mem_singleton_self ip⟩) hf
  | svcb record =>
    cases hf
    exact iff_of_true ⟨rfl, rfl, Std.min_le_left, safeSVCB_patch h record, Std.le_refl _⟩ trivial
  | https record =>
    cases hf
    exact iff_of_true ⟨rfl, rfl, Std.min_le_left, safeSVCB_patch h record, Std.le_refl _⟩ trivial
  | other rrtype data =>
    cases hf
    exact iff_of_true ⟨rfl, rfl, Std.le_refl _, rfl, rfl⟩ trivial
  | _ => cases hf

/-! ## The response -/

theorem isSignature_filterRR {rr rr' : RR} (hf : proxy.filterRR mapV4 mapV6 rr = some rr') :
    rr'.isSignature = false := by
  rcases rr with ⟨name, cls, ttl, data⟩
  cases data with
  | a ip =>
    simp only [DNSProxy.filterRR] at hf
    cases hip : mapV4.lookup ip.string <;> rw [hip] at hf <;> cases hf <;> rfl
  | aaaa ip =>
    simp only [DNSProxy.filterRR] at hf
    split_ifs at hf
    cases hip : mapV6.lookup ip.string <;> rw [hip] at hf <;> cases hf <;> rfl
  | _ => cases hf <;> rfl

theorem any_patchSVCBValues (values : List SVCBKeyValue) :
    (patchSVCBValues values mapV4 mapV6 false).any (fun kv => !keepsValue false kv) = false := by
  rw [List.any_eq_false]
  intro kv hkv
  obtain ⟨kv', -, hpatch⟩ := List.mem_filterMap.1 hkv
  cases kv' with
  | ipv6hint hint => cases hpatch
  | _ =>
    cases hpatch
    exact Bool.false_ne_true

theorem hasV6_filterRR (henable : proxy.enableIPv6 = false) {rr rr' : RR}
    (hf : proxy.filterRR mapV4 mapV6 rr = some rr') : rr'.hasV6 = false := by
  rcases rr with ⟨name, cls, ttl, data⟩
  cases data with
  | a ip =>
    simp only [DNSProxy.filterRR] at hf
    cases hip : mapV4.lookup ip.string <;> rw [hip] at hf <;> cases hf <;> rfl
  | aaaa ip => simp [DNSProxy.filterRR, henable] at hf
  | svcb record | https record =>
    cases hf
    simp only [RR.hasV6, henable]
    exact any_patchSVCBValues record.value
  | _ => cases hf <;> rfl

theorem plain_of_not_keeps {rr : RR} (h : keeps proxy.enableIPv6 rr = false) :
    Plain proxy.enableIPv6 rr := by
  rcases rr with ⟨name, cls, ttl, data⟩
  cases data with
  | a ip => cases h
  | aaaa ip => exact fun henable => absurd (h.symm.trans henable) (by decide)
  | _ => trivial

theorem safeSection_iff (h : Allocated proxy.enableIPv6 resp p mapV4 mapV6) {rrs : List RR}
    (hrrs : rrs ⊆ resp.records) :
    SafeSection proxy p mapV4 mapV6 rrs (proxy.filterRRs mapV4 mapV6 rrs) ↔
      ∀ rr ∈ rrs, Plain proxy.enableIPv6 rr := by
  have hkeep := isSome_filterRR proxy mapV4 mapV6
  constructor
  · intro hsafe rr hrr
    cases hf : proxy.filterRR mapV4 mapV6 rr with
    | none => exact plain_of_not_keeps (by rw [← hkeep, hf, Option.isSome_none])
    | some rr' =>
      exact (safeRR_iff h (hrrs hrr) hf).1
        ((forall₂_filterMap_iff hkeep rrs).1 hsafe.records rr hrr rr' hf)
  · intro hplain
    refine ⟨(forall₂_filterMap_iff hkeep rrs).2 fun rr hrr rr' hf =>
      (safeRR_iff h (hrrs hrr) hf).2 (hplain rr hrr), fun rr' hrr' => ?_,
      fun henable rr' hrr' => ?_⟩
    · obtain ⟨rr, -, hf⟩ := List.mem_filterMap.1 hrr'
      exact isSignature_filterRR hf
    · obtain ⟨rr, -, hf⟩ := List.mem_filterMap.1 hrr'
      exact hasV6_filterRR henable hf

theorem noLeak_rewrite_iff (h : Allocated proxy.enableIPv6 resp p mapV4 mapV6) :
    NoLeak proxy p mapV4 mapV6 resp (proxy.rewrite mapV4 mapV6 resp) ↔
      ∀ rr ∈ resp.records, Plain proxy.enableIPv6 rr := by
  have hanswer : resp.answer ⊆ resp.records := by simp [Msg.records]
  have hns : resp.ns ⊆ resp.records := by simp [Msg.records]
  have hextra : resp.extra ⊆ resp.records := by simp [Msg.records]
  constructor
  · rintro ⟨h1, h2, h3⟩ rr hrr
    rw [Msg.records, List.mem_append, List.mem_append] at hrr
    rcases hrr with (hrr | hrr) | hrr
    · exact (safeSection_iff h hanswer).1 h1 rr hrr
    · exact (safeSection_iff h hns).1 h2 rr hrr
    · exact (safeSection_iff h hextra).1 h3 rr hrr
  · intro hplain
    exact ⟨(safeSection_iff h hanswer).2 fun rr hrr => hplain rr (hanswer hrr),
      (safeSection_iff h hns).2 fun rr hrr => hplain rr (hns hrr),
      (safeSection_iff h hextra).2 fun rr hrr => hplain rr (hextra hrr)⟩

end Record

/-- A response is written only after both calls of the pool have succeeded. -/
theorem handleDNSRequest_response {proxy : DNSProxy} {net : Network} {question : List Bytes}
    {clocks : Clocks} {p p' : IPPool} {resp resp' : Msg} {found4 found6 : Found}
    (hup : resolveUpstream net proxy.upstreams = some resp)
    (h : proxy.handleDNSRequest net question clocks p = (p', .response resp' found4 found6)) :
    Allocated proxy.enableIPv6 resp p' found4.result found6.result ∧
      resp' = proxy.rewrite found4.result found6.result resp := by
  rw [DNSProxy.handleDNSRequest] at h
  split_ifs at h
  · cases h
  · rw [hup] at h
    dsimp only at h
    generalize halloc : allocateBoth p _ clocks = out at h
    rcases out with ⟨q, _ | ⟨f4, f6⟩⟩
    · cases h
    · cases h
      exact ⟨allocated_allocateBoth halloc, rfl⟩

/-! ## Two responses -/

/-- The response that is written, if one is. -/
def Written.message : Written → Option Msg
  | .response resp _ _ => some resp
  | _ => none

theorem exists_response {out : IPPool × Written} {resp : Msg} (h : out.2.message = some resp) :
    ∃ found4 found6, out = (out.1, .response resp found4 found6) := by
  rcases out with ⟨p, _ | _ | ⟨resp', found4, found6⟩⟩
  · cases h
  · cases h
  · cases h
    exact ⟨found4, found6, rfl⟩

/-- A proxy with one upstream. -/
def sampleProxy : DNSProxy := ⟨[str "127.0.0.1:53"], 60, true⟩

/-- An upstream that answers at once. -/
def answering (resp : Msg) : Network := ⟨fun _ _ => some resp, fun _ _ => none⟩

/-- A new pool, and a clock that stands still. -/
def samplePool : IPPool := newIPPoolWithConfig [] [] ⟨256, 256⟩

def sampleClocks : Clocks := ⟨0, fun _ => 0, 0, fun _ => 0⟩

/-- The name that is asked for. -/
def sampleName : Bytes := str "example.org."

/-- A run of the handler on a response. -/
def handleSample (resp : Msg) : IPPool × Written :=
  sampleProxy.handleDNSRequest (answering resp) [sampleName] sampleClocks samplePool

/-- Addresses of both families, in records and in hints, with a signature. -/
def plainResponse : Msg where
  truncated := false
  authenticatedData := true
  answer := [⟨sampleName, 1, 300, .a [192, 0, 2, 1]⟩, ⟨sampleName, 1, 300, .rrsig []⟩]
  ns := [⟨sampleName, 1, 300, .other 2 []⟩]
  extra :=
    [⟨sampleName, 1, 30, .https ⟨1, [], [.ipv4hint [[192, 0, 2, 1], [0, 0, 0, 0]], .ipv6hint []]⟩⟩,
      ⟨sampleName, 1, 300, .aaaa [0x20, 0x01, 0x0d, 0xb8, 0, 0, 0, 0, 0, 0, 0, 0, 0, 0, 0, 1]⟩]

/-- An IPv4 address in its sixteen-byte form. -/
def mappedAddress : IP := v4InV6Prefix ++ [192, 0, 2, 1]

/-- An `AAAA` record that holds it. -/
def mappedRecord : RR := ⟨sampleName, 1, 300, .aaaa mappedAddress⟩

/-- The address in an `A` record and in an `AAAA` record. -/
def mappedResponse : Msg where
  truncated := false
  authenticatedData := true
  answer := [⟨sampleName, 1, 300, .a [192, 0, 2, 1]⟩, mappedRecord]
  ns := []
  extra := []

/-- The second record is sent as it came, though the pool has a fake for its address. -/
theorem mapped_address_leaks :
    ∃ p' resp' found4 found6,
      handleSample mappedResponse = (p', .response resp' found4 found6) ∧
        mappedRecord ∈ resp'.answer ∧
        (∃ fake, p'.fakeAt mappedAddress = some fake ∧ fake ≠ toIPKey mappedAddress) ∧
        ¬ NoLeak sampleProxy p' found4.result found6.result mappedResponse resp' := by
  have hmessage : ((handleSample mappedResponse).2.message.map fun resp' =>
      decide (mappedRecord ∈ resp'.answer)) = some true := by decide +kernel
  have hfake : ((handleSample mappedResponse).1.fakeAt mappedAddress).map
      (fun fake => decide (fake ≠ toIPKey mappedAddress)) = some true := by decide +kernel
  obtain ⟨resp', hresp, hmem⟩ := Option.map_eq_some_iff.1 hmessage
  obtain ⟨fake, hfake, hne⟩ := Option.map_eq_some_iff.1 hfake
  obtain ⟨found4, found6, hout⟩ := exists_response hresp
  refine ⟨_, resp', found4, found6, hout, of_decide_eq_true hmem,
    ⟨fake, hfake, of_decide_eq_true hne⟩, fun hsafe => ?_⟩
  obtain ⟨halloc, rfl⟩ := handleDNSRequest_response rfl hout
  have := (noLeak_rewrite_iff halloc).1 hsafe mappedRecord (by decide)
  exact absurd this (by decide)

/-- **No real address leaves the proxy, unless a record holds an address of the other family.** The
response that is written hides the addresses of the upstream's exactly when the addresses of its `A`
and `AAAA` records are plain. -/
theorem noLeak_iff_plain {proxy : DNSProxy} {net : Network} {question : List Bytes}
    {clocks : Clocks} {p p' : IPPool} {resp resp' : Msg} {found4 found6 : Found}
    (hup : resolveUpstream net proxy.upstreams = some resp)
    (h : proxy.handleDNSRequest net question clocks p = (p', .response resp' found4 found6)) :
    NoLeak proxy p' found4.result found6.result resp resp' ↔
      ∀ rr ∈ resp.records, Plain proxy.enableIPv6 rr := by
  obtain ⟨halloc, rfl⟩ := handleDNSRequest_response hup h
  exact noLeak_rewrite_iff halloc

theorem noLeak_plainResponse :
    ∃ p' resp' found4 found6,
      handleSample plainResponse = (p', .response resp' found4 found6) ∧
        NoLeak sampleProxy p' found4.result found6.result plainResponse resp' := by
  have hmessage : (handleSample plainResponse).2.message.isSome = true := by decide +kernel
  obtain ⟨resp', hresp⟩ := Option.isSome_iff_exists.1 hmessage
  obtain ⟨found4, found6, hout⟩ := exists_response hresp
  exact ⟨_, resp', found4, found6, hout, (noLeak_iff_plain rfl hout).2 (by decide)⟩

end NextPath.Proxy
