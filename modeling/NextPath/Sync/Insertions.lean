import NextPath.Proxy.Collection
import NextPath.Proxy.Requests
import NextPath.Sync.Receive

/-!
# What is broadcast has been put in the pool

An answered request leaves a goroutine behind that broadcasts its new mappings. It builds them from
the texts of the reals, each in the form of its family, and passes over a text that is not read as
an address.

* `Throughout.advance`: what holds of every mapping that a section allocates holds of all that a
  request will broadcast.
* `Recorded.advance`: so it is among the pairs that the sections of the requests have put in the
  pool, with the same versions.
-/

namespace NextPath.Sync

open Net Pool
open IPPool (Found)

/-! ## What is broadcast -/

/-- A fake, its real and the version. -/
abbrev Insertion := IPKey × IPKey × UInt64

/-- What a mapping says. The form in which an address is written does not count. -/
def Mapping.key (m : Mapping) : Insertion := (toIPKey m.fakeIP, toIPKey m.realIP, m.version)

/-- The form in which the reals of a family are sent. -/
def familyForm (isIPv6 : Bool) (ip : IP) : IP := if isIPv6 then ip.to16 else ip.to4

/-- The new mappings of one call. -/
def newMessages (isIPv6 : Bool) (found : Found) : List Mapping :=
  found.newMappings.entries.filterMap fun e =>
    if parseIP e.1 = [] then none
    else some ⟨e.2.ip, familyForm isIPv6 (parseIP e.1), e.2.version⟩

/-- `toBroadcast`, of the goroutine that an answered request leaves behind. -/
def toBroadcast (req : Proxy.Request) : List Mapping :=
  match req.status with
  | .answered => newMessages false req.found4 ++ newMessages true req.found6
  | _ => []

/-- What the next section of a request puts in the pool. -/
def insertion (req : Proxy.Request) (p : IPPool) (t : Time) : Option Insertion :=
  match req.status with
  | .call isIPv6 now (realIP :: _) true _ =>
    match (p.secure realIP isIPv6 now t).2 with
    | .allocated info => some (toIPKey info.ip, toIPKey realIP, info.version)
    | _ => none
  | _ => none

/-! ## The form that is sent -/

/-- The text of a real, read back and put in the form of its family, stands for the real. -/
theorem toIPKey_familyForm {isIPv6 : Bool} {realIP : IP} (hparse : parseIP realIP.string ≠ [])
    (h4 : isIPv6 = false → realIP.to4 ≠ []) :
    toIPKey (familyForm isIPv6 (parseIP realIP.string)) = toIPKey realIP := by
  have hwf : realIP.WellFormed := by
    by_contra hwf
    exact hparse (parseIP_string_of_not_wellFormed hwf)
  rw [parseIP_string hwf]
  cases isIPv6 with
  | false =>
    have := IP.to4_to16 realIP hwf
    rw [familyForm, if_neg (by simp), this, toIPKey_to4 (h4 rfl)]
  | true => rw [familyForm, if_pos rfl, IP.to16_to16 realIP hwf, toIPKey_to16 hwf]

theorem mem_newMessages_allocated {isIPv6 : Bool} {found : Found} {realIP : IP}
    {info : MappingInfo} {m : Mapping}
    (h : m ∈ newMessages isIPv6 (found.allocated realIP info)) :
    m ∈ newMessages isIPv6 found ∨ parseIP realIP.string ≠ [] ∧
      m = ⟨info.ip, familyForm isIPv6 (parseIP realIP.string), info.version⟩ := by
  obtain ⟨e, he, hm⟩ := List.mem_filterMap.1 h
  rw [Found.allocated, AList.entries_insert, List.mem_cons] at he
  rcases he with rfl | he
  · split_ifs at hm with hparse
    exact .inr ⟨hparse, (Option.some.inj hm).symm⟩
  · exact .inl (List.mem_filterMap.2 ⟨e, (List.kerase_sublist _ _).subset he, hm⟩)

/-! ## What a request keeps -/

/-- The reals that a request has still to treat meet `Q`, with the family of their call, and the
mappings that it has found and may still broadcast meet `P`. -/
structure Throughout (Q : Bool → IP → Prop) (P : Mapping → Prop) (req : Proxy.Request) : Prop where
  reals6 : ∀ r ∈ req.reals6, Q true r
  found4 : ∀ m ∈ newMessages false req.found4, P m
  found6 : ∀ m ∈ newMessages true req.found6, P m
  call : ∀ {isIPv6 now todo looked found}, req.status = .call isIPv6 now todo looked found →
    (∀ r ∈ todo, Q isIPv6 r) ∧ ∀ m ∈ newMessages isIPv6 found, P m

namespace Throughout

variable {Q : Bool → IP → Prop} {P : Mapping → Prop} {req : Proxy.Request}

theorem mono (h : Throughout Q P req) {P' : Mapping → Prop} (himp : ∀ m, P m → P' m) :
    Throughout Q P' req where
  reals6 := h.reals6
  found4 m hm := himp m (h.found4 m hm)
  found6 m hm := himp m (h.found6 m hm)
  call hstatus := ⟨(h.call hstatus).1, fun m hm => himp m ((h.call hstatus).2 m hm)⟩

theorem toBroadcast (h : Throughout Q P req) : ∀ m ∈ toBroadcast req, P m := by
  intro m hm
  rw [Sync.toBroadcast] at hm
  split at hm
  · exact (List.mem_append.1 hm).elim (h.found4 m) (h.found6 m)
  · cases hm

theorem none_new (isIPv6 : Bool) : ∀ m ∈ newMessages isIPv6 ⟨∅, ∅⟩, P m :=
  fun _ hm => by cases hm

section Status

variable {reals6 : List IP} {found4 found6 : Found} (hreals6 : ∀ r ∈ reals6, Q true r)
  (h4 : ∀ m ∈ newMessages false found4, P m) (h6 : ∀ m ∈ newMessages true found6, P m)

include hreals6 h4 h6

theorem of_call {isIPv6 : Bool} {now : Time} {todo : List IP} {looked : Bool} {found : Found}
    (htodo : ∀ r ∈ todo, Q isIPv6 r) (hfound : ∀ m ∈ newMessages isIPv6 found, P m) :
    Throughout Q P ⟨reals6, found4, found6, .call isIPv6 now todo looked found⟩ := by
  refine ⟨hreals6, h4, h6, fun hstatus => ?_⟩
  cases hstatus
  exact ⟨htodo, hfound⟩

theorem of_answered : Throughout Q P ⟨reals6, found4, found6, .answered⟩ :=
  ⟨hreals6, h4, h6, fun hstatus => by cases hstatus⟩

theorem of_undo (own earlier : List Proxy.NewMapping) :
    Throughout Q P ⟨reals6, found4, found6, .undo own earlier⟩ :=
  ⟨hreals6, h4, h6, fun hstatus => by cases hstatus⟩

theorem enter6 (status : Proxy.Status) (now : Time) :
    Throughout Q P (Proxy.Request.enter6 ⟨reals6, found4, found6, status⟩ now) := by
  rw [Proxy.Request.enter6]
  dsimp only
  split_ifs
  · exact of_answered hreals6 h4 h6
  · exact of_call hreals6 h4 h6 (fun r hr => hreals6 r ((List.mem_insertionSort _).1 hr))
      (none_new true)

end Status

/-- A request that begins. -/
theorem start {reals : Proxy.Reals} (h4 : ∀ r ∈ reals.v4, Q false r)
    (h6 : ∀ r ∈ reals.v6, Q true r) (now : Time) : Throughout Q P (.start reals now) := by
  rw [Proxy.Request.start]
  split_ifs
  · exact enter6 h6 (none_new false) (none_new true) _ now
  · exact of_call h6 (none_new false) (none_new true)
      (fun r hr => h4 r ((List.mem_insertionSort _).1 hr)) (none_new false)

/-- **A step keeps what is kept**, if the mapping that its section allocates meets `P`. -/
theorem advance (h : Throughout Q P req) (p : IPPool) (t : Time) (k : ℕ)
    (hnew : ∀ {isIPv6 now realIP rest found info},
      req.status = .call isIPv6 now (realIP :: rest) true found → Q isIPv6 realIP →
      (p.secure realIP isIPv6 now t).2 = .allocated info → parseIP realIP.string ≠ [] →
        P ⟨info.ip, familyForm isIPv6 (parseIP realIP.string), info.version⟩) :
    Throughout Q P (req.advance p t k).2 := by
  rcases req with ⟨reals6, found4, found6, status⟩
  have hreals6 := h.reals6
  have h4 := h.found4
  have h6 := h.found6
  cases status with
  | call isIPv6 now todo looked found =>
    obtain ⟨htodo, hfound⟩ := h.call rfl
    cases todo with
    | nil =>
      cases isIPv6 with
      | false => exact enter6 hreals6 hfound h6 _ t
      | true => exact of_answered hreals6 h4 hfound
    | cons realIP rest =>
      obtain ⟨hreal, hrest⟩ := List.forall_mem_cons.1 htodo
      cases looked with
      | false =>
        simp only [Proxy.Request.advance]
        cases p.peek now realIP with
        | none => exact of_call hreals6 h4 h6 htodo hfound
        | some fake => exact of_call hreals6 h4 h6 hrest hfound
      | true =>
        simp only [Proxy.Request.advance]
        rcases hsecure : p.secure realIP isIPv6 now t with ⟨q, fake | info | _⟩
        · exact of_call hreals6 h4 h6 hrest hfound
        · refine of_call hreals6 h4 h6 hrest fun m hm => ?_
          rcases mem_newMessages_allocated hm with hm | ⟨hparse, rfl⟩
          · exact hfound m hm
          · exact hnew rfl hreal (by rw [hsecure]) hparse
        · exact of_undo hreals6 h4 h6 _ _
  | undo own earlier =>
    simp only [Proxy.Request.advance]
    cases hnext : Proxy.Status.removal k (.undo own earlier) with
    | none => exact h
    | some next =>
      obtain ⟨own', earlier', hstatus⟩ := Proxy.undo_of_removal hnext
      simp only [hstatus]
      exact of_undo hreals6 h4 h6 own' earlier'
  | answered => exact h

end Throughout

/-! ## Every mapping has been inserted -/

/-- What a request has found and may still broadcast has been inserted, and the reals that an IPv4
call has still to treat are IPv4 addresses. -/
abbrev Recorded (inserted : List Insertion) (req : Proxy.Request) : Prop :=
  Throughout (fun isIPv6 r => isIPv6 = false → r.to4 ≠ []) (·.key ∈ inserted) req

namespace Recorded

variable {inserted : List Insertion} {req : Proxy.Request}

theorem mono (h : Recorded inserted req) {inserted' : List Insertion}
    (hsub : inserted ⊆ inserted') : Recorded inserted' req :=
  Throughout.mono h fun _ hm => hsub hm

/-- A request that has collected its reals from a response. -/
theorem start (enableIPv6 : Bool) (resp : Proxy.Msg) (now : Time) :
    Recorded inserted (.start (Proxy.collect enableIPv6 resp) now) :=
  Throughout.start (fun _ hr _ => Proxy.to4_ne_nil_of_mem_collect hr)
    (fun _ _ hv4 => by cases hv4) now

/-- **A step keeps the record**, with what its section has inserted. -/
theorem advance (h : Recorded inserted req) (p : IPPool) (t : Time) (k : ℕ) :
    Recorded (inserted ++ (insertion req p t).toList) (req.advance p t k).2 := by
  refine Throughout.advance (h.mono (List.subset_append_left _ _)) p t k
    fun {isIPv6 now realIP rest found info} hstatus hreal hsecure hparse => ?_
  -- the mapping of the section itself
  have hinsertion : insertion req p t = some (toIPKey info.ip, toIPKey realIP, info.version) := by
    simp only [insertion, hstatus, hsecure]
  rw [Mapping.key, toIPKey_familyForm hparse hreal, hinsertion]
  exact List.mem_append_right _ (List.mem_singleton_self _)

end Recorded

end NextPath.Sync
