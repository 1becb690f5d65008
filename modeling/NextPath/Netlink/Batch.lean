import NextPath.Pool.State

/-!
# Writing to the kernel map

`NFTClient` collects the mappings to be written and `batchWorker` flushes them to the kernel, up to
256 at a time, in one transaction. The maps `v4_map` and `v6_map` of the kernel are one map here:
their keys differ in length.

What is assumed of the kernel is in `Kernel.add`: an element that is there with the same value
changes nothing, one that is there with another value fails with "file exists" and aborts the
transaction. Any other failure is a failure of the socket (`Link`). The rules `update @v4_map` and
`update @v6_map`, which packets of translated connections pass, are in `Kernel.update`.

* `Kernel.find_add`: an entry of the kernel was there before or is an element of the transaction.
* `Kernel.find_update`: the same of a rule.
* `find_flush`: the same of a flush with its retry.
-/

namespace NextPath.Netlink

open Net Pool

/-! ## The kernel -/

/-- `nftables.SetElement`. -/
structure SetElement where
  key : Bytes
  val : Bytes
  timeout : Time
  deriving DecidableEq

/-- The elements of the kernel maps, each with its value and the time when it times out. -/
abbrev Kernel := Map Bytes (Bytes × Time)

/-- The timeout of the maps. -/
def mapTimeout : Time := 120 * minute

namespace Kernel

/-- One element of a transaction at `now`; `none` is "file exists". -/
def addElement (now : Time) (k : Kernel) (e : SetElement) : Option Kernel :=
  match k.lookup e.key with
  | none => some (k.insert e.key (e.val, now + e.timeout))
  | some entry => if entry.1 = e.val then some k else none

/-- A transaction, which is made as a whole or not at all. -/
def add (now : Time) (k : Kernel) (es : List SetElement) : Option Kernel :=
  es.foldlM (addElement now) k

/-- The value a key is bound to. -/
def find (k : Kernel) (key : Bytes) : Option Bytes := (k.lookup key).map Prod.fst

/-- The timer of an entry fires. -/
def timeout (k : Kernel) (key : Bytes) (now : Time) : Kernel :=
  match k.lookup key with
  | some entry => if entry.2 ≤ now then k.erase key else k
  | none => k

/-- The value of a key, unless its time is over. -/
def look (k : Kernel) (now : Time) (key : Bytes) : Option Bytes := (k.timeout key now).find key

/-- `update` in a rule: an entry that is there keeps its value and gets the timeout of the map, and
where there is none one is made. -/
def update (k : Kernel) (now : Time) (key val : Bytes) : Kernel :=
  match (k.timeout key now).lookup key with
  | some entry => k.insert key (entry.1, now + mapTimeout)
  | none => k.insert key (val, now + mapTimeout)

theorem find_addElement {now : Time} {k k' : Kernel} {e : SetElement}
    (h : addElement now k e = some k') {key val : Bytes} (hk : k'.find key = some val) :
    k.find key = some val ∨ e.key = key ∧ e.val = val := by
  rw [addElement] at h
  split at h
  · obtain rfl := Option.some.inj h
    rw [find, Map.lookup_insert_ite] at hk
    split_ifs at hk with hkey
    · exact .inr ⟨hkey.symm, Option.some.inj hk⟩
    · exact .inl hk
  · split_ifs at h
    obtain rfl := Option.some.inj h
    exact .inl hk

/-- **A transaction adds its elements.** -/
theorem find_add {now : Time} {k k' : Kernel} {es : List SetElement} (h : add now k es = some k')
    {key val : Bytes} (hk : k'.find key = some val) :
    k.find key = some val ∨ ∃ e ∈ es, e.key = key ∧ e.val = val := by
  induction es generalizing k with
  | nil =>
    obtain rfl := Option.some.inj h
    exact .inl hk
  | cons e es ih =>
    rw [add, List.foldlM_cons, Option.bind_eq_bind, Option.bind_eq_some_iff] at h
    obtain ⟨k₁, he, hes⟩ := h
    rcases ih hes with hk₁ | ⟨e', he', hkey⟩
    · exact (find_addElement he hk₁).imp_right fun h => ⟨e, List.mem_cons_self, h⟩
    · exact .inr ⟨e', List.mem_cons_of_mem e he', hkey⟩

theorem find_timeout {k : Kernel} {key key' val : Bytes} {now : Time}
    (h : (k.timeout key now).find key' = some val) : k.find key' = some val := by
  rw [timeout] at h
  split at h
  · split_ifs at h
    · rw [find, Map.lookup_erase_ite] at h
      split_ifs at h
      · cases h
      · exact h
    · exact h
  · exact h

/-- **A rule with `update` makes an entry where there is none.** -/
theorem find_update {k : Kernel} {now : Time} {key val key' v : Bytes}
    (h : (k.update now key val).find key' = some v) :
    k.find key' = some v ∨ k.look now key = none ∧ key = key' ∧ val = v := by
  rw [update] at h
  split at h
  · next entry hentry =>
    rw [find, Map.lookup_insert_ite] at h
    split_ifs at h with hkey
    · have hfind : (k.timeout key now).find key' = some v := by
        rw [find, hkey, hentry]
        exact h
      exact .inl (find_timeout hfind)
    · exact .inl h
  · next hnone =>
    rw [find, Map.lookup_insert_ite] at h
    split_ifs at h with hkey
    · exact .inr ⟨by rw [look, find, hnone]; rfl, hkey.symm, Option.some.inj h⟩
    · exact .inl h

end Kernel

/-! ## Batches -/

/-- `mappingOp`, without the channel on which it is answered. -/
structure MappingOp where
  fakeIP : IP
  realIP : IP
  timeout : Time
  deriving DecidableEq

/-- `batchMaxSize`. -/
def batchMaxSize : ℕ := 256

/-- `batchChanSize`. -/
def batchChanSize : ℕ := 8192

/-- The element of an operation, if it has one. -/
def MappingOp.element (enableIPv6 : Bool) (op : MappingOp) : Option SetElement :=
  let isIPv6 := op.fakeIP.to4 = []
  let keyBytes := if isIPv6 then op.fakeIP.to16 else op.fakeIP.to4
  let valBytes := if isIPv6 then op.realIP.to16 else op.realIP.to4
  if isIPv6 ∧ !enableIPv6 then none
  else if keyBytes = [] ∨ valBytes = [] then none
  else some ⟨keyBytes, valBytes, op.timeout⟩

/-- The elements of a batch, the IPv4 ones first. -/
def elements (enableIPv6 : Bool) (batch : List MappingOp) : List SetElement :=
  (batch.filter (·.fakeIP.to4 ≠ [])).filterMap (·.element enableIPv6) ++
    (batch.filter (·.fakeIP.to4 = [])).filterMap (·.element enableIPv6)

theorem mem_elements {enableIPv6 : Bool} {batch : List MappingOp} {e : SetElement} :
    e ∈ elements enableIPv6 batch ↔ ∃ op ∈ batch, op.element enableIPv6 = some e := by
  simp only [elements, List.mem_append, List.mem_filterMap, List.mem_filter, decide_eq_true_eq]
  constructor
  · rintro (⟨op, ⟨hop, -⟩, he⟩ | ⟨op, ⟨hop, -⟩, he⟩) <;> exact ⟨op, hop, he⟩
  · rintro ⟨op, hop, he⟩
    by_cases h4 : op.fakeIP.to4 = []
    · exact .inr ⟨op, ⟨hop, h4⟩, he⟩
    · exact .inl ⟨op, ⟨hop, h4⟩, he⟩

/-- How the socket behaves in one attempt: it works, it fails before the kernel has the batch, or it
fails after. -/
inductive Link
  | up
  | lost
  | unanswered
  deriving DecidableEq

/-- The errors the worker tells apart. -/
inductive FlushErr
  | fileExists
  | other
  deriving DecidableEq

/-- `flushBatchLocked`. -/
def flushBatchLocked (enableIPv6 : Bool) (now : Time) (k : Kernel) (batch : List MappingOp)
    (link : Link) : Kernel × Option FlushErr :=
  match link with
  | .lost => (k, some .other)
  | .up =>
    match k.add now (elements enableIPv6 batch) with
    | some k' => (k', none)
    | none => (k, some .fileExists)
  | .unanswered => ((k.add now (elements enableIPv6 batch)).getD k, some .other)

/-- The flush of the worker: the kernel after it, and the error that the operations of the batch
are answered with. "File exists" is no error; after any other the socket is opened again, if
`reconnected`, and the batch sent once more. -/
def flush (enableIPv6 : Bool) (now : Time) (k : Kernel) (batch : List MappingOp) (link link' : Link)
    (reconnected : Bool) : Kernel × Option FlushErr :=
  match flushBatchLocked enableIPv6 now k batch link with
  | (k', none) => (k', none)
  | (k', some .fileExists) => (k', none)
  | (k', some .other) =>
    if reconnected then
      match flushBatchLocked enableIPv6 now k' batch link' with
      | (k'', some .other) => (k'', some .other)
      | (k'', _) => (k'', none)
    else (k', some .other)

theorem find_flushBatchLocked {enableIPv6 : Bool} {now : Time} {k : Kernel}
    {batch : List MappingOp} {link : Link} {key val : Bytes}
    (h : (flushBatchLocked enableIPv6 now k batch link).1.find key = some val) :
    k.find key = some val ∨
      ∃ op ∈ batch, ∃ e, op.element enableIPv6 = some e ∧ e.key = key ∧ e.val = val := by
  have hadd {k' : Kernel} (hk' : k.add now (elements enableIPv6 batch) = some k')
      (h : k'.find key = some val) : k.find key = some val ∨
        ∃ op ∈ batch, ∃ e, op.element enableIPv6 = some e ∧ e.key = key ∧ e.val = val := by
    refine (Kernel.find_add hk' h).imp_right ?_
    rintro ⟨e, he, hkey⟩
    obtain ⟨op, hop, hel⟩ := mem_elements.1 he
    exact ⟨op, hop, e, hel, hkey⟩
  cases link with
  | lost => exact .inl h
  | up =>
    rw [flushBatchLocked] at h
    split at h
    · next k' hk' => exact hadd hk' h
    · exact .inl h
  | unanswered =>
    rw [flushBatchLocked] at h
    cases hk' : k.add now (elements enableIPv6 batch) with
    | none => exact .inl (by rwa [hk'] at h)
    | some k' => exact hadd hk' (by rwa [hk'] at h)

/-- The batch is sent once or twice. -/
theorem flush_fst (enableIPv6 : Bool) (now : Time) (k : Kernel) (batch : List MappingOp)
    (link link' : Link) (reconnected : Bool) :
    let first := (flushBatchLocked enableIPv6 now k batch link).1
    (flush enableIPv6 now k batch link link' reconnected).1 = first ∨
      (flush enableIPv6 now k batch link link' reconnected).1 =
        (flushBatchLocked enableIPv6 now first batch link').1 := by
  rw [flush]
  rcases flushBatchLocked enableIPv6 now k batch link with ⟨k₁, _ | (_ | _)⟩
  · exact .inl rfl
  · exact .inl rfl
  · cases reconnected with
    | false => exact .inl rfl
    | true =>
      refine .inr ?_
      dsimp only [if_true]
      rcases flushBatchLocked enableIPv6 now k₁ batch link' with ⟨k₂, _ | (_ | _)⟩ <;> rfl

/-- **A flush adds elements of its batch**, with or without the retry. -/
theorem find_flush {enableIPv6 : Bool} {now : Time} {k : Kernel} {batch : List MappingOp}
    {link link' : Link} {reconnected : Bool} {key val : Bytes}
    (h : (flush enableIPv6 now k batch link link' reconnected).1.find key = some val) :
    k.find key = some val ∨
      ∃ op ∈ batch, ∃ e, op.element enableIPv6 = some e ∧ e.key = key ∧ e.val = val := by
  rcases flush_fst enableIPv6 now k batch link link' reconnected with heq | heq <;> rw [heq] at h
  · exact find_flushBatchLocked h
  · exact (find_flushBatchLocked h).elim find_flushBatchLocked .inr

end NextPath.Netlink
