import NextPath.Netlink.Agreement
import NextPath.Pool.Leases
import NextPath.Sync.Convergence

/-!
# Restarting

The kernel keeps its maps when the process ends. A node that starts reads them back
(`ReadExistingMappings`) and adds every element to its empty pool, with version zero and the time
the element has left, in the order in which Go visits the entries of a map.

The mappings that are added compete as the mappings of peers do. Since the kernel maps a fake to one
real, and since all the versions are equal, only the fakes of one real compete: the greatest of them
is restored. `restored` says so of the kernel map at any moment of any run, with whatever was in
flight when the process ended.

* `Kernel.Typed.step`: what the keys and the values of the kernel map look like, along a run.
* `lookup_collectMappings`: what is read.
* `edges_recover`, `leases_recover`: what is added.
-/

namespace NextPath.Netlink

open Net Pool Sync Runs

/-! ## Reading -/

/-- An element of a map of the kernel, with the time it has left. -/
structure MapElement where
  key : Bytes
  val : Bytes
  expires : Time
  deriving DecidableEq

/-- The errors of `GetSetElements` that are told apart. -/
inductive ReadErr
  | noSuchFile
  | other
  deriving DecidableEq

/-- `MappingRecovery`. -/
structure MappingRecovery where
  realIP : IP
  expires : Time
  deriving DecidableEq

/-- The loop over the elements of one map. -/
def collectMappings (mappings : Map Bytes MappingRecovery) (elements : List MapElement) :
    Map Bytes MappingRecovery :=
  elements.foldl (fun m el => m.insert (IP.string el.key) ⟨el.val, el.expires⟩) mappings

/-- One of the two maps: a map that does not exist has no elements. -/
def readMap (mappings : Map Bytes MappingRecovery) :
    Except ReadErr (List MapElement) → Option (Map Bytes MappingRecovery)
  | .ok elements => some (collectMappings mappings elements)
  | .error .noSuchFile => some mappings
  | .error .other => none

/-- `ReadExistingMappings`, with what the kernel answers for `v4_map` and `v6_map`. -/
def readExistingMappings (connected enableIPv6 : Bool)
    (elements elements6 : Except ReadErr (List MapElement)) :
    Option (Map Bytes MappingRecovery) :=
  if !connected then none
  else
    match readMap ∅ elements with
    | none => none
    | some mappings => if enableIPv6 then readMap mappings elements6 else some mappings

/-- A turn of the loop over the mappings that were read, with its reading of the clock. -/
structure Visit where
  fakeStr : Bytes
  record : MappingRecovery
  now : Time
  deriving DecidableEq

/-- The loop in `main`. -/
def recover (p : IPPool) (visits : List Visit) : IPPool :=
  visits.foldl (fun p v =>
    if parseIP v.fakeStr ≠ [] then
      (p.addMapping v.record.realIP (parseIP v.fakeStr) 0 (v.now + v.record.expires)).1
    else p) p

/-- The loop visits the entries of the map, in some order. -/
def Ranges (mappings : Map Bytes MappingRecovery) (visits : List Visit) : Prop :=
  ∀ s record, mappings.lookup s = some record ↔ ∃ now, ⟨s, record, now⟩ ∈ visits

/-! ## The kernel map -/

/-- The keys are addresses in their shorter form, and the values are as long as their keys. -/
def Kernel.Typed (k : Kernel) : Prop :=
  ∀ key entry, k.lookup key = some entry →
    IP.WellFormed key ∧ normalizeIP key = key ∧ entry.1.length = key.length

namespace Kernel

variable {k k' : Kernel}

theorem typed_empty : Typed ∅ := fun _ _ h => by simp at h

/-- The values alone decide, so that the timers do not matter. -/
theorem typed_iff_find :
    k.Typed ↔ ∀ key val, k.find key = some val →
      IP.WellFormed key ∧ normalizeIP key = key ∧ val.length = key.length := by
  constructor
  · intro h key val hfind
    obtain ⟨entry, hentry, rfl⟩ := Option.map_eq_some_iff.1 hfind
    exact h key entry hentry
  · intro h key entry hentry
    exact h key entry.1 (by rw [find, hentry]; rfl)

end Kernel

/-- The element of an operation has a key of its type. -/
theorem typed_element {enableIPv6 : Bool} {op : MappingOp} {e : SetElement}
    (h : op.element enableIPv6 = some e) :
    IP.WellFormed e.key ∧ normalizeIP e.key = e.key ∧ e.val.length = e.key.length := by
  simp only [MappingOp.element] at h
  split_ifs at h with hoff h4 hnil hnil
  · obtain rfl := Option.some.inj h
    obtain ⟨hk, hv⟩ := not_or.1 hnil
    have hfake := IP.wellFormed_of_to16_ne_nil hk
    have hlen := IP.length_to16 hfake
    refine ⟨.inr hlen, ?_, ?_⟩
    · show normalizeIP (IP.to16 op.fakeIP) = IP.to16 op.fakeIP
      rw [normalizeIP_to16 hfake, normalizeIP, if_neg (not_not.2 h4)]
    · exact (IP.length_to16 (IP.wellFormed_of_to16_ne_nil hv)).trans hlen.symm
  · obtain rfl := Option.some.inj h
    obtain ⟨hk, hv⟩ := not_or.1 hnil
    have hlen := IP.length_to4_of_ne_nil hk
    refine ⟨.inl hlen, ?_, (IP.length_to4_of_ne_nil hv).trans hlen.symm⟩
    show normalizeIP (IP.to4 op.fakeIP) = IP.to4 op.fakeIP
    rw [normalizeIP, IP.to4_of_length hlen, if_pos hk]

/-- What an event writes is typed. -/
theorem typed_of_mem_writes {cfg : Config} {n : Node} {e : Event} {w : Bytes × Bytes}
    (h : w ∈ e.writes cfg n) :
    IP.WellFormed w.1 ∧ normalizeIP w.1 = w.1 ∧ w.2.length = w.1.length := by
  cases e with
  | flush size now link link' reconnected =>
    obtain ⟨el, hmem, rfl⟩ := List.mem_map.1 h
    obtain ⟨op, -, hel⟩ := mem_elements.1 hmem
    exact typed_element hel
  | passes packet now =>
    rw [Event.writes] at h
    split_ifs at h
    · rw [List.mem_singleton.1 h]
      exact ⟨packet.wellFormed, packet.normal, packet.family⟩
    · cases h
  | _ => cases h

/-- Every event of a node keeps the map typed. -/
theorem Kernel.Typed.step {cfg : Config} {n : Node} (h : n.kernel.Typed) (e : Event) :
    (step cfg n e).kernel.Typed := by
  rw [typed_iff_find] at h ⊢
  intro key val hfind
  rcases find_step cfg hfind with hold | hwritten
  · exact h key val hold
  · exact typed_of_mem_writes hwritten

theorem Kernel.Typed.run {cfg : Config} {n : Node} (h : n.kernel.Typed) (es : List Event) :
    (run (Netlink.step cfg) n es).kernel.Typed :=
  invariant (C := fun _ _ => True) (I := fun n : Node => n.kernel.Typed)
    (fun _ e hn _ => hn.step e) h fun _ _ => trivial

/-- The kernel leads the fake to the real, in a map that is read. -/
def Kernel.Leads (k : Kernel) (enableIPv6 : Bool) (f r : IPKey) : Prop :=
  (f.isIPv6 = true → enableIPv6 = true) ∧ (k.find (normalizeIP f.toIP)).map toIPKey = some r

instance (k : Kernel) (enableIPv6 : Bool) (f r : IPKey) : Decidable (k.Leads enableIPv6 f r) :=
  inferInstanceAs (Decidable (_ ∧ _))

/-- What the kernel answers at `now` for the map whose keys have the given length. -/
def Dumps (k : Kernel) (length : ℕ) (now : Time) : Except ReadErr (List MapElement) → Prop
  | .ok elements => ∀ el, el ∈ elements ↔
      el.key.length = length ∧ k.lookup el.key = some (el.val, now + el.expires)
  | .error .noSuchFile => ∀ key, key.length = length → k.lookup key = none
  | .error .other => False

/-! ## What is read -/

/-- The elements of an answer. -/
def elementsOf : Except ReadErr (List MapElement) → List MapElement
  | .ok elements => elements
  | .error _ => []

theorem collectMappings_append (mappings : Map Bytes MappingRecovery) (es es' : List MapElement) :
    collectMappings mappings (es ++ es') = collectMappings (collectMappings mappings es) es' :=
  List.foldl_append

/-- **What is read**, when the keys of different elements have different texts. -/
theorem lookup_collectMappings {es : List MapElement}
    (hes : ∀ el ∈ es, ∀ el' ∈ es, IP.string el.key = IP.string el'.key → el = el') {s : Bytes}
    {record : MappingRecovery} :
    (collectMappings ∅ es).lookup s = some record ↔
      ∃ el ∈ es, IP.string el.key = s ∧ record = ⟨el.val, el.expires⟩ := by
  induction es using List.reverseRecOn with
  | nil => simp [collectMappings]
  | append_singleton es el ih =>
    have hrest := ih fun el₁ h₁ el₂ h₂ =>
      hes el₁ (List.mem_append_left _ h₁) el₂ (List.mem_append_left _ h₂)
    rw [collectMappings_append]
    show (Finmap.insert _ _ (collectMappings ∅ es)).lookup s = _ ↔ _
    rw [Map.lookup_insert_ite]
    split_ifs with hs
    · constructor
      · intro hrecord
        exact ⟨el, by simp, hs.symm, (Option.some.inj hrecord).symm⟩
      · rintro ⟨el', hel', hs', rfl⟩
        rw [hes el' hel' el (by simp) (hs'.trans hs)]
    · rw [hrest]
      constructor
      · rintro ⟨el', hel', h⟩
        exact ⟨el', List.mem_append_left _ hel', h⟩
      · rintro ⟨el', hel', hs', h⟩
        refine ⟨el', (List.mem_append.1 hel').resolve_right fun hlast => hs ?_, hs', h⟩
        rw [List.mem_singleton.1 hlast] at hs'
        exact hs'.symm

section Read

variable {k : Kernel} {enableIPv6 : Bool} {now : Time}
  {elements elements6 : Except ReadErr (List MapElement)}

theorem readMap_of_dumps {length : ℕ} (h : Dumps k length now elements)
    (mappings : Map Bytes MappingRecovery) :
    readMap mappings elements = some (collectMappings mappings (elementsOf elements)) := by
  match elements with
  | .ok es => rfl
  | .error .noSuchFile => rfl
  | .error .other => exact h.elim

theorem mem_elementsOf {length : ℕ} (h : Dumps k length now elements) (el : MapElement) :
    el ∈ elementsOf elements ↔
      el.key.length = length ∧ k.lookup el.key = some (el.val, now + el.expires) := by
  match elements with
  | .ok es => exact h el
  | .error .noSuchFile =>
    refine iff_of_false List.not_mem_nil fun hel => ?_
    rw [h el.key hel.1] at hel
    cases hel.2
  | .error .other => exact h.elim

/-- The mappings that are read are those of the kernel, by the texts of their fakes. -/
theorem lookup_readExistingMappings (hk : k.Typed) (h4 : Dumps k 4 now elements)
    (h6 : enableIPv6 = true → Dumps k 16 now elements6) {mappings : Map Bytes MappingRecovery}
    (hread : readExistingMappings true enableIPv6 elements elements6 = some mappings) {s : Bytes}
    {record : MappingRecovery} :
    mappings.lookup s = some record ↔
      ∃ key, IP.string key = s ∧ (key.length = 16 → enableIPv6 = true) ∧
        k.lookup key = some (record.realIP, now + record.expires) := by
  -- both dumps are one list, of the elements that the kernel has
  obtain ⟨es, hmappings, hes⟩ : ∃ es, mappings = collectMappings ∅ es ∧ ∀ el : MapElement, el ∈ es ↔
      (el.key.length = 16 → enableIPv6 = true) ∧
        k.lookup el.key = some (el.val, now + el.expires) := by
    have hlen {el : MapElement} (hel : k.lookup el.key = some (el.val, now + el.expires)) :
        el.key.length = 4 ∨ el.key.length = 16 := (hk _ _ hel).1
    simp only [readExistingMappings, Bool.not_true, Bool.false_eq_true, if_false,
      readMap_of_dumps h4] at hread
    split_ifs at hread with h
    · rw [readMap_of_dumps (h6 h), ← collectMappings_append, Option.some.injEq] at hread
      refine ⟨_, hread.symm, fun el => ?_⟩
      rw [List.mem_append, mem_elementsOf h4, mem_elementsOf (h6 h)]
      constructor
      · rintro (hel | hel)
        · exact ⟨fun _ => h, hel.2⟩
        · exact ⟨fun _ => h, hel.2⟩
      · rintro ⟨-, hel⟩
        exact (hlen hel).imp (⟨·, hel⟩) (⟨·, hel⟩)
    · refine ⟨_, (Option.some.inj hread).symm, fun el => ?_⟩
      rw [mem_elementsOf h4]
      constructor
      · rintro ⟨hlen4, hel⟩
        exact ⟨fun hlen16 => absurd (hlen4.symm.trans hlen16) (by decide), hel⟩
      · rintro ⟨hoff, hel⟩
        exact ⟨(hlen hel).resolve_right fun hlen16 => h (hoff hlen16), hel⟩
  -- keys that are written alike are the same address, in the same form
  have hkey {key key' : Bytes} {entry entry' : Bytes × Time} (h : k.lookup key = some entry)
      (h' : k.lookup key' = some entry') (hs : IP.string key = IP.string key') : key = key' := by
    obtain ⟨hwf, hnorm, -⟩ := hk _ _ h
    obtain ⟨hwf', hnorm', -⟩ := hk _ _ h'
    have heq := (toIPKey_eq_iff hwf hwf').1 ((string_eq_iff hwf hwf').1 hs)
    rw [← hnorm, ← hnorm', ← normalizeIP_to16 hwf, ← normalizeIP_to16 hwf', heq]
  rw [hmappings, lookup_collectMappings]
  · constructor
    · rintro ⟨el, hel, hs, rfl⟩
      exact ⟨el.key, hs, (hes el).1 hel⟩
    · rintro ⟨key, hs, hlookup⟩
      exact ⟨⟨key, record.realIP, record.expires⟩, (hes _).2 hlookup, hs, rfl⟩
  · intro el hel el' hel' hs
    have h := ((hes el).1 hel).2
    have h' := ((hes el').1 hel').2
    have heq := hkey h h' hs
    rw [← heq, h, Option.some.injEq, Prod.mk.injEq] at h'
    obtain ⟨key, val, expires⟩ := el
    obtain ⟨key', val', expires'⟩ := el'
    obtain rfl : key = key' := heq
    obtain rfl : val = val' := h'.1
    obtain rfl : expires = expires' := add_left_cancel h'.2
    rfl

end Read

/-! ## What is added -/

/-- The mapping of a visit. -/
def Visit.mapping (v : Visit) : Mapping := ⟨parseIP v.fakeStr, v.record.realIP, 0⟩

section Recover

variable {p : IPPool} {visits : List Visit}

theorem recover_cons (v : Visit) (visits : List Visit) (h : parseIP v.fakeStr ≠ []) :
    recover p (v :: visits) = recover (p.addMapping v.mapping.realIP v.mapping.fakeIP
      v.mapping.version (v.now + v.record.expires)).1 visits := by
  rw [recover, List.foldl_cons, if_pos h]
  rfl

/-- **The loop is a contest** of the mappings that were read. -/
theorem edges_recover (hp : RepInv p)
    (hvisits : ∀ v ∈ visits, parseIP v.fakeStr ≠ [] ∧ v.record.realIP.WellFormed) :
    RepInv (recover p visits) ∧ edges (recover p visits) =
      Contest.deliverAll Edge.Conflict (fun v => v.mapping.edge) (edges p) visits := by
  induction visits generalizing p with
  | nil => exact ⟨hp, rfl⟩
  | cons v visits ih =>
    obtain ⟨hparse, hreal⟩ := hvisits v List.mem_cons_self
    have hadd := (addMapping_updates hp hreal v.mapping.fakeIP v.mapping.version
      (v.now + v.record.expires)).repInv hp
    have hedges := edges_addMapping hp (m := v.mapping) hreal (v.now + v.record.expires)
    rw [recover_cons v visits hparse, Contest.deliverAll_cons, ← hedges]
    exact ih hadd fun v' hv' => hvisits v' (List.mem_cons_of_mem v hv')

/-- A row of the pool is that of a visit, or was there. -/
theorem leases_recover (hp : RepInv p)
    (hvisits : ∀ v ∈ visits, parseIP v.fakeStr ≠ [] ∧ v.record.realIP.WellFormed) {x : Lease}
    (hx : x ∈ (recover p visits).leases) :
    x ∈ p.leases ∨ ∃ v ∈ visits, x = ⟨toIPKey v.record.realIP, toIPKey (parseIP v.fakeStr), 0,
      v.now + v.record.expires⟩ := by
  induction visits generalizing p with
  | nil => exact .inl hx
  | cons v visits ih =>
    obtain ⟨hparse, hreal⟩ := hvisits v List.mem_cons_self
    obtain ⟨-, hno, hyes, -⟩ := exact_addMapping hp hreal v.mapping.fakeIP v.mapping.version
      (v.now + v.record.expires)
    have hadd := (addMapping_updates hp hreal v.mapping.fakeIP v.mapping.version
      (v.now + v.record.expires)).repInv hp
    rw [recover_cons v visits hparse] at hx
    rcases ih hadd (fun v' hv' => hvisits v' (List.mem_cons_of_mem v hv')) hx with
      hx | ⟨v', hv', hx⟩
    · cases hout : (p.addMapping v.mapping.realIP v.mapping.fakeIP v.mapping.version
          (v.now + v.record.expires)).2 with
      | false => exact .inl (hno hout ▸ hx)
      | true =>
        rw [(hyes hout).2.2.2, Set.mem_insert_iff] at hx
        exact hx.symm.imp (·.1) fun hx => ⟨v, List.mem_cons_self, hx⟩
    · exact .inr ⟨v', List.mem_cons_of_mem v hv', hx⟩

end Recover

/-! ## Restarts -/

theorem Kernel.Leads.unique {k : Kernel} {enableIPv6 : Bool} {f r r' : IPKey}
    (h : k.Leads enableIPv6 f r) (h' : k.Leads enableIPv6 f r') : r = r' :=
  Option.some.inj (h.2.symm.trans h'.2)

/-- The edges that are restored: the mappings of the kernel, of which none goes with a greater fake
to the same real. -/
theorem mem_unbeaten_iff {k : Kernel} {enableIPv6 : Bool} {X : Set Edge}
    (hX : ∀ e : Edge, e ∈ X ↔ e.version = 0 ∧ k.Leads enableIPv6 e.fake e.real) {f r : IPKey} :
    (⟨0, f, r⟩ : Edge) ∈ Contest.unbeaten Edge.Conflict X ↔
      k.Leads enableIPv6 f r ∧ ∀ f' > f, ¬ k.Leads enableIPv6 f' r := by
  rw [Contest.unbeaten, Set.mem_ofPred_eq, hX, and_iff_right rfl]
  refine and_congr_right fun hleads => ⟨fun h f' hlt hleads' => ?_, fun h e he => ?_⟩
  · refine h ⟨0, f', r⟩ ((hX _).2 ⟨rfl, hleads'⟩) ⟨.inr rfl, (Edge.lt_iff _ _).2 ?_⟩
    exact .inr ⟨rfl, .inl hlt⟩
  · rintro ⟨hc, hlt⟩
    obtain ⟨version, f', r'⟩ := e
    obtain ⟨rfl, hleads'⟩ : version = 0 ∧ k.Leads enableIPv6 f' r' := (hX _).1 he
    rcases hc with hfake | hreal
    · -- the kernel leads a fake to one real
      obtain rfl : f' = f := hfake
      obtain rfl : r = r' := hleads.unique hleads'
      exact hlt.false
    · obtain rfl : r' = r := hreal
      simp only [Edge.lt_iff, lt_irrefl, false_or, true_and, and_false, or_false] at hlt
      exact h f' hlt hleads'

/-- Fakes of different reals do not compete, so that the order of the visits does not matter. -/
theorem covered_of_leads {k : Kernel} {enableIPv6 : Bool} {X : Set Edge} (hfin : X.Finite)
    (hX : ∀ e : Edge, e ∈ X ↔ e.version = 0 ∧ k.Leads enableIPv6 e.fake e.real) :
    Contest.Covered Edge.Conflict X := by
  have hreal {e e' : Edge} (he : e ∈ X) (he' : e' ∈ X) (hc : Edge.Conflict e e') :
      e.real = e'.real := by
    rcases hc with hfake | hreal
    · have hleads' := ((hX e').1 he').2
      rw [← hfake] at hleads'
      exact ((hX e).1 he).2.unique hleads'
    · exact hreal
  refine Contest.covered_of_trans Edge.conflict_symm hfin fun x hx y hy z hz hxy hyz => ?_
  exact .inr ((hreal hx hy hxy).trans (hreal hy hz hyz))

theorem isIPv6_of_length {f : IPKey} (h : (normalizeIP f.toIP).length = 16) : f.isIPv6 = true := by
  rw [← toIPKey_toIP f, isIPv6_toIPKey, decide_eq_true_eq]
  by_contra h4
  rw [normalizeIP, if_pos h4, IP.length_to4_of_ne_nil h4] at h
  cases h

section Restart

variable {k : Kernel} {enableIPv6 : Bool} {now : Time}
  {elements elements6 : Except ReadErr (List MapElement)} {mappings : Map Bytes MappingRecovery}
  {visits : List Visit}

/-- A visit of the loop, when the kernel map is typed. -/
theorem Ranges.visit (hk : k.Typed) (h4 : Dumps k 4 now elements)
    (h6 : enableIPv6 = true → Dumps k 16 now elements6)
    (hread : readExistingMappings true enableIPv6 elements elements6 = some mappings)
    (hrange : Ranges mappings visits) {v : Visit} (hv : v ∈ visits) :
    parseIP v.fakeStr ≠ [] ∧ v.record.realIP.WellFormed ∧
      (((toIPKey (parseIP v.fakeStr)).isIPv6 = true → enableIPv6 = true) ∧
      k.lookup (normalizeIP (toIPKey (parseIP v.fakeStr)).toIP) =
        some (v.record.realIP, now + v.record.expires)) := by
  have hlookup := (hrange v.fakeStr v.record).2 ⟨v.now, hv⟩
  rw [lookup_readExistingMappings hk h4 h6 hread] at hlookup
  obtain ⟨key, hstring, hon, hentry⟩ := hlookup
  obtain ⟨hwf, hnorm, hlen⟩ := hk _ _ hentry
  have hparse : parseIP v.fakeStr = IP.to16 key := by rw [← hstring, parseIP_string hwf]
  have hkey : toIPKey (parseIP v.fakeStr) = toIPKey key := by rw [hparse, toIPKey_to16 hwf]
  have hback : normalizeIP (toIPKey key).toIP = key := by
    rw [toIP_toIPKey hwf, normalizeIP_to16 hwf, hnorm]
  refine ⟨?_, ?_, ?_, ?_⟩
  · rw [hparse]
    exact IP.WellFormed.ne_nil (.inr (IP.length_to16 hwf))
  · rw [IP.WellFormed, hlen]
    exact hwf
  · intro hv6
    refine hon ?_
    rw [← hback]
    exact length_normalizeIP_toIP (hkey ▸ hv6)
  · rw [hkey, hback]
    exact hentry

/-- Every mapping of the kernel is visited. -/
theorem Ranges.exists_visit (hk : k.Typed) (h4 : Dumps k 4 now elements)
    (h6 : enableIPv6 = true → Dumps k 16 now elements6)
    (hread : readExistingMappings true enableIPv6 elements elements6 = some mappings)
    (hrange : Ranges mappings visits) {f r : IPKey} (h : k.Leads enableIPv6 f r) :
    ∃ v ∈ visits, v.mapping.edge = ⟨0, f, r⟩ := by
  obtain ⟨hon, hfind⟩ := h
  obtain ⟨val, hval, rfl⟩ := Option.map_eq_some_iff.1 hfind
  obtain ⟨⟨val, expires⟩, hentry, rfl⟩ := Option.map_eq_some_iff.1 hval
  have hwf := (hk _ _ hentry).1
  have hkey : toIPKey (normalizeIP f.toIP) = f := by
    rw [toIPKey_normalizeIP f.wellFormed_toIP, toIPKey_toIP]
  have hmapped : mappings.lookup (IP.string (normalizeIP f.toIP)) =
      some ⟨val, expires - now⟩ := by
    rw [lookup_readExistingMappings hk h4 h6 hread]
    refine ⟨_, rfl, fun hlen => hon (isIPv6_of_length hlen), ?_⟩
    rw [hentry, add_sub_cancel]
  obtain ⟨t, hvisit⟩ := (hrange _ _).1 hmapped
  refine ⟨_, hvisit, ?_⟩
  simp only [Mapping.edge, Visit.mapping, parseIP_string hwf, toIPKey_to16 hwf, hkey]

/-- The mappings that compete are those of the kernel. -/
theorem Ranges.mem_edges_iff (hk : k.Typed) (h4 : Dumps k 4 now elements)
    (h6 : enableIPv6 = true → Dumps k 16 now elements6)
    (hread : readExistingMappings true enableIPv6 elements elements6 = some mappings)
    (hrange : Ranges mappings visits) (e : Edge) :
    (∃ v ∈ visits, v.mapping.edge = e) ↔ e.version = 0 ∧ k.Leads enableIPv6 e.fake e.real := by
  constructor
  · rintro ⟨v, hv, rfl⟩
    obtain ⟨-, -, hon, hentry⟩ := hrange.visit hk h4 h6 hread hv
    refine ⟨rfl, hon, ?_⟩
    simp only [Mapping.edge, Visit.mapping, Kernel.find, hentry]
    rfl
  · obtain ⟨version, f, r⟩ := e
    rintro ⟨rfl, hleads⟩
    exact hrange.exists_visit hk h4 h6 hread hleads

end Restart

/-- **What a restart restores.** Let a node run from any pool and a typed kernel map, and let the
process end at any moment. When it starts again, whatever the order in which it visits the mappings
it has read, its new pool maps a fake to a real exactly if the kernel does and no greater fake leads
to that real; every lease ends as much later than the entry of the kernel for its fake as the clock
has been read after the dump, when that fake was visited. -/
theorem restored {cfg : Config} {pool : IPPool} {kernel : Kernel} (hkernel : kernel.Typed)
    (es : List Event) {now : Time} {elements elements6 : Except ReadErr (List MapElement)}
    (h4 : Dumps (run (step cfg) (Node.start pool kernel) es).kernel 4 now elements)
    (h6 : cfg.enableIPv6 = true →
      Dumps (run (step cfg) (Node.start pool kernel) es).kernel 16 now elements6)
    {mappings : Map Bytes MappingRecovery}
    (hread : readExistingMappings true cfg.enableIPv6 elements elements6 = some mappings)
    {visits : List Visit} (hrange : Ranges mappings visits) (base4 base6 : Bytes)
    (poolCfg : IPPoolConfig) :
    let k := (run (step cfg) (Node.start pool kernel) es).kernel
    let p := recover (newIPPoolWithConfig base4 base6 poolCfg) visits
    RepInv p ∧
      (∀ f r, p.realOf f = some r ↔
        k.Leads cfg.enableIPv6 f r ∧ ∀ f' > f, ¬ k.Leads cfg.enableIPv6 f' r) ∧
      ∀ x ∈ p.leases, x.version = 0 ∧ ∃ v ∈ visits, toIPKey (parseIP v.fakeStr) = x.fake ∧
        ∃ val expires, k.lookup (normalizeIP x.fake.toIP) = some (val, expires) ∧
          toIPKey val = x.real ∧ x.expiry = expires + (v.now - now) := by
  intro k p
  have hk : k.Typed := Kernel.Typed.run hkernel es
  have hnew : RepInv (newIPPoolWithConfig base4 base6 poolCfg) := .new base4 base6 poolCfg
  have hvisit {v : Visit} (hv : v ∈ visits) := hrange.visit hk h4 h6 hread hv
  have hvisits : ∀ v ∈ visits, parseIP v.fakeStr ≠ [] ∧ v.record.realIP.WellFormed :=
    fun v hv => ⟨(hvisit hv).1, (hvisit hv).2.1⟩
  obtain ⟨hinv, hedges⟩ := edges_recover hnew hvisits
  -- all of them compete, and the unbeaten ones remain
  let X : Set Edge := {e | ∃ v ∈ visits, v.mapping.edge = e}
  have hX : ∀ e, e ∈ X ↔ e.version = 0 ∧ k.Leads cfg.enableIPv6 e.fake e.real :=
    hrange.mem_edges_iff hk h4 h6 hread
  have hfin : X.Finite :=
    (visits.map fun v => v.mapping.edge).finite_toSet.subset fun e ⟨v, hv, he⟩ =>
      List.mem_map.2 ⟨v, hv, he⟩
  have hremain : edges p = Contest.unbeaten Edge.Conflict X := by
    have hcovered : Contest.Covered Edge.Conflict (∅ ∪ X) := by
      rw [Set.empty_union]
      exact covered_of_leads hfin hX
    have hall := Contest.deliverAll_eq_unbeaten Edge.conflict_symm (fun x hx => hx.elim) hcovered
    rwa [Set.empty_union, ← edges_new base4 base6 poolCfg, ← hedges] at hall
  refine ⟨hinv, fun f r => ?_, fun x hx => ?_⟩
  · rw [← mem_unbeaten_iff hX, ← hremain]
    refine ⟨fun hr => ?_, fun he => he.1⟩
    obtain ⟨v, -, he⟩ := exists_edge hinv hr
    have he' := he
    rw [hremain] at he'
    obtain rfl : v = 0 := ((hX _).1 he'.1).1
    exact he
  · rcases leases_recover hnew hvisits hx with hold | ⟨v, hv, rfl⟩
    · exact absurd hold.1 (by simp [newIPPoolWithConfig, IPPool.fakeOf])
    · refine ⟨rfl, v, hv, rfl, v.record.realIP, now + v.record.expires, (hvisit hv).2.2.2, rfl, ?_⟩
      show v.now + v.record.expires = now + v.record.expires + (v.now - now)
      ring

/-- Two fakes of 1.1.1.3 are in the kernel when the process ends; the greater one is restored. -/
theorem restored_two :
    let cfg : Config := ⟨.ofPool (newIPPoolWithConfig [] [] ⟨4, 4⟩).toPoolRange, false⟩
    let es : List Event := [.push ⟨[198, 18, 0, 1], [1, 1, 1, 3], 100⟩,
      .push ⟨[198, 18, 0, 2], [1, 1, 1, 3], 100⟩, .flush 2 0 .up .up false]
    let k := (run (step cfg) (Node.start (newIPPoolWithConfig [] [] ⟨4, 4⟩) ∅) es).kernel
    let p := recover (newIPPoolWithConfig [] [] ⟨4, 4⟩)
      [⟨str "198.18.0.2", ⟨[1, 1, 1, 3], 90⟩, 15⟩, ⟨str "198.18.0.1", ⟨[1, 1, 1, 3], 90⟩, 15⟩]
    p.realOf (toIPKey [198, 18, 0, 1]) = none ∧
      p.realOf (toIPKey [198, 18, 0, 2]) = some (toIPKey [1, 1, 1, 3]) ∧
      ∀ f r, p.realOf f = some r ↔ k.Leads false f r ∧ ∀ f' > f, ¬ k.Leads false f' r := by
  intro cfg es k p
  have hk : k = ((∅ : Kernel).insert [198, 18, 0, 1] ([1, 1, 1, 3], 100)).insert
      [198, 18, 0, 2] ([1, 1, 1, 3], 100) := rfl
  have hdump : Dumps k 4 10
      (.ok [⟨[198, 18, 0, 1], [1, 1, 1, 3], 90⟩, ⟨[198, 18, 0, 2], [1, 1, 1, 3], 90⟩]) := by
    rintro ⟨key, val, expires⟩
    have htime : (100 : Time) = 10 + expires ↔ expires = 90 := by
      constructor <;> intro h <;> linarith
    rw [hk, Map.lookup_insert_ite, Map.lookup_insert_ite]
    by_cases h2 : key = [198, 18, 0, 2]
    · subst h2
      simp [htime, eq_comm (b := val)]
    · by_cases h1 : key = [198, 18, 0, 1]
      · subst h1
        simp [htime, eq_comm (b := val)]
      · simp [h1, h2]
  let mappings := collectMappings ∅
    [⟨[198, 18, 0, 1], [1, 1, 1, 3], 90⟩, ⟨[198, 18, 0, 2], [1, 1, 1, 3], 90⟩]
  have hread : readExistingMappings true cfg.enableIPv6 (.ok _) (.error .noSuchFile) =
    some mappings := rfl
  have hrange : Ranges mappings
      [⟨str "198.18.0.2", ⟨[1, 1, 1, 3], 90⟩, 15⟩, ⟨str "198.18.0.1", ⟨[1, 1, 1, 3], 90⟩, 15⟩] := by
    have h1 : IP.string [198, 18, 0, 1] = str "198.18.0.1" := by decide +kernel
    have h2 : IP.string [198, 18, 0, 2] = str "198.18.0.2" := by decide +kernel
    intro s record
    rw [lookup_collectMappings (by decide +kernel)]
    simp only [List.mem_cons, List.not_mem_nil, or_false, exists_eq_or_imp, exists_eq_left, h1, h2,
      Visit.mk.injEq, exists_or]
    constructor
    · rintro (⟨rfl, rfl⟩ | ⟨rfl, rfl⟩)
      · exact .inr ⟨15, rfl, rfl, rfl⟩
      · exact .inl ⟨15, rfl, rfl, rfl⟩
    · rintro (⟨_, rfl, rfl, -⟩ | ⟨_, rfl, rfl, -⟩)
      · exact .inr ⟨rfl, rfl⟩
      · exact .inl ⟨rfl, rfl⟩
  have hrestored := restored Kernel.typed_empty es hdump (fun h => by cases h) hread hrange [] []
    ⟨4, 4⟩
  exact ⟨by decide +kernel, by decide +kernel, hrestored.2.1⟩

end NextPath.Netlink
