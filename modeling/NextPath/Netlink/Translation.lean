import NextPath.Foundations.Runs
import NextPath.Netlink.Batch

/-!
# Where a packet to a fake goes

The rules of `nat_prerouting` and `nat_output` send the first packet of a connection to a fake
where the map of the kernel leads, and the kernel keeps that for the connection. The rules of
`forward` and `output` then run `update` on the map for every packet of a connection that was
translated: the fake is the key, and the value is the address the packet goes to.

Of `nft` it is assumed that an entry whose time is over is not there any more, and that `update`
does what `Kernel.update` says. Conntrack keeps a connection on its own terms (`Event.closes`).
Packets that the deny sets drop in `forward` are not events.

* A fake to which connections are in use is not led anywhere else (`find_of_busy`).
* The rules do not look at the direction of a packet. A reply goes to the client, so that one that
  comes when the entry is gone makes the fake lead to the client (`captured`).
-/

namespace NextPath.Netlink

open Net Pool

/-- A transaction, once entries whose time is over are gone. -/
def Kernel.transact (k : Kernel) (now : Time) (es : List SetElement) : Kernel :=
  (Kernel.add now (es.foldl (fun k e => k.timeout e.key now) k) es).getD k

/-! ## Connections -/

/-- A connection that conntrack knows. -/
structure Flow where
  /-- The address it comes from. -/
  client : Bytes
  /-- The address its first packet was sent to. -/
  original : Bytes
  /-- Where it was sent instead. -/
  real : Option Bytes
  /-- It goes through the node; otherwise it comes from the node itself. -/
  forwarded : Bool
  deriving DecidableEq

structure Traffic where
  kernel : Kernel
  flows : ℕ → Option Flow

namespace Traffic

inductive Event
  | opens (id : ℕ) (client dest : Bytes) (forwarded : Bool) (now : Time)
  | sends (id : ℕ) (now : Time)
  | replies (id : ℕ) (now : Time)
  | closes (id : ℕ)
  | adds (es : List SetElement) (now : Time)

/-- When it happens. -/
def Event.time : Event → Option Time
  | .opens _ _ _ _ now | .sends _ now | .replies _ now | .adds _ now => some now
  | .closes _ => none

variable (inPool : Bytes → Bool)

/-- The connection that a first packet opens. -/
def newFlow (s : Traffic) (client dest : Bytes) (forwarded : Bool) (now : Time) : Flow where
  client
  original := dest
  real := if inPool dest then s.kernel.look now dest else none
  forwarded

/-- The rules of `forward` and `output`, for a packet of a connection that goes to `daddr`. -/
def pass (k : Kernel) (now : Time) (flow : Flow) (daddr : Bytes) : Kernel :=
  if inPool flow.original && flow.real.isSome then k.update now flow.original daddr else k

/-- The connection of an event whose packet passes the rules, and where the packet goes. -/
def passing (s : Traffic) : Event → Option (Flow × Bytes)
  | .opens _ client dest forwarded now =>
    let flow := s.newFlow inPool client dest forwarded now
    some (flow, flow.real.getD dest)
  | .sends id _ => (s.flows id).map fun flow => (flow, flow.real.getD flow.original)
  -- A reply to the node itself does not come through the two chains.
  | .replies id _ => ((s.flows id).filter (·.forwarded)).map fun flow => (flow, flow.client)
  | .closes _ | .adds _ _ => none

/-- The map after the packet of an event. -/
def passed (s : Traffic) (e : Event) (now : Time) : Kernel :=
  match s.passing inPool e with
  | some (flow, daddr) => pass inPool s.kernel now flow daddr
  | none => s.kernel

def step (s : Traffic) (e : Event) : Traffic :=
  match e with
  | .opens id client dest forwarded now =>
    { kernel := s.passed inPool e now
      flows := Function.update s.flows id (some (s.newFlow inPool client dest forwarded now)) }
  | .sends _ now | .replies _ now => { s with kernel := s.passed inPool e now }
  | .closes id => { s with flows := Function.update s.flows id none }
  | .adds es now => { s with kernel := s.kernel.transact now es }

/-- The packet of an event restarts the timer of a fake. -/
def touches (s : Traffic) (f : Bytes) (e : Event) : Bool :=
  (s.passing inPool e).any fun x => x.1.original = f && inPool f && x.1.real.isSome

/-- Packets of connections to the fake come less than two hours after one another, the first one
less than two hours after `last`; nothing else happens later than two hours after one. -/
def Busy (f : Bytes) : Time → Traffic → List Event → Prop
  | _, _, [] => True
  | last, s, e :: es =>
    (∀ t ∈ e.time, t < last + mapTimeout) ∧
      Busy f (if s.touches inPool f e then e.time.getD last else last) (step inPool s e) es

instance decidableBusy (f : Bytes) :
    (last : Time) → (s : Traffic) → (es : List Event) → Decidable (Busy inPool f last s es)
  | _, _, [] => isTrue trivial
  | last, s, e :: es =>
    have := decidableBusy f (if s.touches inPool f e then e.time.getD last else last)
      (step inPool s e) es
    inferInstanceAs (Decidable ((∀ t ∈ e.time, t < last + mapTimeout) ∧ _))

end Traffic

/-! ## The map -/

namespace Kernel

variable {k : Kernel} {now : Time} {f v : Bytes} {d : Time}

theorem lookup_timeout_of_lt (h : k.lookup f = some (v, d)) (hnow : now < d) (key : Bytes) :
    (k.timeout key now).lookup f = some (v, d) := by
  unfold timeout
  split
  · next entry hentry =>
    split_ifs with hover
    · rw [Map.lookup_erase_ite]
      split_ifs with hkey
      · subst hkey
        rw [h] at hentry
        obtain rfl := Option.some.inj hentry
        exact absurd hover (not_le.2 hnow)
      · exact h
    · exact h
  · exact h

theorem look_of_lt (h : k.lookup f = some (v, d)) (hnow : now < d) : k.look now f = some v := by
  rw [look, find, lookup_timeout_of_lt h hnow]
  rfl

theorem exists_lookup_of_look (h : k.look now f = some v) :
    ∃ d, k.lookup f = some (v, d) ∧ now < d := by
  unfold look timeout at h
  split at h
  · next entry hentry =>
    split_ifs at h with hover
    · rw [find, Map.lookup_erase_ite, if_pos rfl] at h
      cases h
    · rw [find, hentry] at h
      obtain rfl := Option.some.inj h
      exact ⟨entry.2, hentry, not_le.1 hover⟩
  · next hnone =>
    rw [find, hnone] at h
    cases h

theorem lookup_update_self (h : k.lookup f = some (v, d)) (hnow : now < d) (val : Bytes) :
    (k.update now f val).lookup f = some (v, now + mapTimeout) := by
  rw [update, lookup_timeout_of_lt h hnow, Map.lookup_insert_ite, if_pos rfl]

theorem lookup_update_ne {key : Bytes} (hne : key ≠ f) (val : Bytes) :
    (k.update now key val).lookup f = k.lookup f := by
  unfold update
  split <;> rw [Map.lookup_insert_ite, if_neg hne.symm]

/-- Where there is no entry, one is made. -/
theorem lookup_update_of_gone (h : k.look now f = none) (val : Bytes) :
    (k.update now f val).lookup f = some (val, now + mapTimeout) := by
  have hgone : (k.timeout f now).lookup f = none := by
    rwa [look, find, Option.map_eq_none_iff] at h
  rw [update, hgone, Map.lookup_insert_ite, if_pos rfl]

theorem lookup_addElement {k' : Kernel} {e : SetElement} (h : k.lookup f = some (v, d))
    (he : addElement now k e = some k') : k'.lookup f = some (v, d) := by
  unfold addElement at he
  split at he
  · next hnone =>
    obtain rfl := Option.some.inj he
    rw [Map.lookup_insert_ite, if_neg]
    · exact h
    · rintro rfl
      rw [h] at hnone
      cases hnone
  · split_ifs at he
    obtain rfl := Option.some.inj he
    exact h

theorem lookup_add {k' : Kernel} {es : List SetElement} (h : k.lookup f = some (v, d))
    (hadd : add now k es = some k') : k'.lookup f = some (v, d) := by
  induction es generalizing k with
  | nil =>
    obtain rfl := Option.some.inj hadd
    exact h
  | cons e es ih =>
    rw [add, List.foldlM_cons, Option.bind_eq_bind, Option.bind_eq_some_iff] at hadd
    obtain ⟨k₁, he, hes⟩ := hadd
    exact ih (lookup_addElement h he) hes

/-- A transaction does not change an entry whose time is not over. -/
theorem lookup_transact (h : k.lookup f = some (v, d)) (hnow : now < d) (es : List SetElement) :
    (k.transact now es).lookup f = some (v, d) := by
  have hswept : ∀ es' : List SetElement,
      (es'.foldl (fun k e => k.timeout e.key now) k).lookup f = some (v, d) := by
    intro es'
    induction es' using List.reverseRecOn with
    | nil => exact h
    | append_singleton es' e ih =>
      rw [List.foldl_concat]
      exact lookup_timeout_of_lt ih hnow e.key
  unfold transact
  cases hadd : add now (es.foldl (fun k e => k.timeout e.key now) k) es with
  | none => exact h
  | some k' => exact lookup_add (hswept es) hadd

end Kernel

/-! ## A fake in use -/

namespace Traffic

variable {inPool : Bytes → Bool} {s : Traffic} {f v : Bytes} {d : Time}

/-- The packet of an event leaves the entry of a fake with its value, and with its time unless it
restarts the timer. -/
theorem lookup_passed (h : s.kernel.lookup f = some (v, d)) {now : Time} (hnow : now < d)
    (e : Event) :
    (s.passed inPool e now).lookup f =
      some (v, if s.touches inPool f e then now + mapTimeout else d) := by
  unfold passed touches
  cases s.passing inPool e with
  | none => simpa using h
  | some x =>
    obtain ⟨flow, daddr⟩ := x
    simp only [Option.any_some, pass]
    by_cases horig : flow.original = f
    · subst horig
      cases hpass : (inPool flow.original && flow.real.isSome) with
      | true => simp [hpass, Kernel.lookup_update_self h hnow]
      | false => simpa [hpass] using h
    · have htouch : ¬ (decide (flow.original = f) && inPool f && flow.real.isSome) = true := by
        simp [horig]
      rw [if_neg htouch]
      cases inPool flow.original && flow.real.isSome with
      | true => simpa [Kernel.lookup_update_ne horig] using h
      | false => simpa using h

/-- A step before the time of the entry is over leaves its value. -/
theorem lookup_step (h : s.kernel.lookup f = some (v, d)) {e : Event}
    (htime : ∀ t ∈ e.time, t < d) :
    (step inPool s e).kernel.lookup f =
      some (v, if s.touches inPool f e then e.time.getD 0 + mapTimeout else d) := by
  cases e with
  | opens id client dest forwarded now => exact lookup_passed h (htime now rfl) _
  | sends id now => exact lookup_passed h (htime now rfl) _
  | replies id now => exact lookup_passed h (htime now rfl) _
  | closes id => exact h
  | adds es now => exact Kernel.lookup_transact h (htime now rfl) es

theorem time_of_touches {e : Event} (h : s.touches inPool f e = true) : ∃ t, e.time = some t := by
  cases e with
  | opens id client dest forwarded now => exact ⟨now, rfl⟩
  | sends id now => exact ⟨now, rfl⟩
  | replies id now => exact ⟨now, rfl⟩
  | closes id => simp [touches, passing] at h
  | adds es now => exact ⟨now, rfl⟩

/-- The fake leads to `v` before the event, and so does a connection that the event opens. -/
def LeadsTo (inPool : Bytes → Bool) (f v : Bytes) (s : Traffic) (e : Event) : Prop :=
  s.kernel.find f = some v ∧
    ∀ id client forwarded now, e = .opens id client f forwarded now → inPool f = true →
      (step inPool s e).flows id = some ⟨client, f, some v, forwarded⟩

theorem leadsTo_of_lookup (h : s.kernel.lookup f = some (v, d)) {e : Event}
    (htime : ∀ t ∈ e.time, t < d) : LeadsTo inPool f v s e := by
  refine ⟨by rw [Kernel.find, h]; rfl, ?_⟩
  rintro id client forwarded now rfl hpool
  have hlook : s.kernel.look now f = some v := Kernel.look_of_lt h (htime now rfl)
  simp [step, newFlow, hpool, hlook]

/-- An entry keeps its value for as long as connections to the fake are busy. -/
theorem find_of_busy {last : Time} (h : s.kernel.lookup f = some (v, d))
    (hlast : last + mapTimeout ≤ d) {es : List Event} (hbusy : Busy inPool f last s es) :
    Runs.Along (step inPool) (LeadsTo inPool f v) s es ∧
      (Runs.run (step inPool) s es).kernel.find f = some v := by
  induction es generalizing s last d with
  | nil =>
    refine ⟨Runs.along_nil _ _, ?_⟩
    rw [Runs.run_nil, Kernel.find, h]
    rfl
  | cons e es ih =>
    obtain ⟨htime, hrest⟩ := hbusy
    have htime' : ∀ t ∈ e.time, t < d := fun t ht => (htime t ht).trans_le hlast
    have hstep : (step inPool s e).kernel.lookup f =
        some (v, if s.touches inPool f e then e.time.getD 0 + mapTimeout else d) :=
      lookup_step h htime'
    have hnext : (if s.touches inPool f e then e.time.getD last else last) + mapTimeout ≤
        if s.touches inPool f e then e.time.getD 0 + mapTimeout else d := by
      split_ifs with htouch
      · obtain ⟨t, ht⟩ := time_of_touches htouch
        rw [ht]
        exact le_rfl
      · exact hlast
    obtain ⟨halong, hfind⟩ := ih hstep hnext hrest
    exact ⟨(Runs.along_cons _ s e es).2 ⟨leadsTo_of_lookup h htime', halong⟩, hfind⟩

/-- **A fake in use leads where it led.** From the first packet of a connection to a fake on, for as
long as connections to it are busy, every connection that is opened to it goes to the same address,
and no transaction binds it to another. -/
theorem kept_while_busy {id : ℕ} {client : Bytes} {forwarded : Bool} {now : Time}
    (hpool : inPool f = true) (hlook : s.kernel.look now f = some v) {es : List Event}
    (hbusy : Busy inPool f now (step inPool s (.opens id client f forwarded now)) es) :
    Runs.Along (step inPool) (LeadsTo inPool f v)
        (step inPool s (.opens id client f forwarded now)) es ∧
      (Runs.run (step inPool) (step inPool s (.opens id client f forwarded now)) es).kernel.find f =
        some v := by
  obtain ⟨d, hd, hlt⟩ := Kernel.exists_lookup_of_look hlook
  have hopen : (step inPool s (.opens id client f forwarded now)).kernel.lookup f =
      some (v, now + mapTimeout) := by
    have htouch : s.touches inPool f (.opens id client f forwarded now) = true := by
      simp [touches, passing, newFlow, hpool, hlook]
    have hpassed :
        (s.passed inPool (.opens id client f forwarded now) now).lookup f = some (v, _) :=
      lookup_passed hd hlt _
    rw [if_pos htouch] at hpassed
    exact hpassed
  exact find_of_busy hopen le_rfl hbusy

/-- A node with one fake, for an hour to come. -/
def oneFake : Traffic where
  kernel := Finmap.singleton [198, 18, 0, 1] ([203, 0, 113, 9], 60 * minute)
  flows := fun _ => none

/-- The fakes. -/
def fakes (addr : Bytes) : Bool := addr.take 2 = [198, 18]

/-- A connection that is used, an attempt to bind its fake to another address, and another
connection. -/
def usedFake : List Event :=
  [.sends 0 (110 * minute),
    .adds [⟨[198, 18, 0, 1], [203, 0, 113, 77], 120 * minute⟩] (200 * minute),
    .replies 0 (220 * minute), .opens 1 [10, 0, 0, 3] [198, 18, 0, 1] true (300 * minute)]

theorem kept_while_busy_used :
    (Runs.run (step fakes)
      (step fakes oneFake (.opens 0 [10, 0, 0, 2] [198, 18, 0, 1] true 0)) usedFake).kernel.find
        [198, 18, 0, 1] = some [203, 0, 113, 9] :=
  (kept_while_busy (by decide) (by decide +kernel) (by decide +kernel)).2

/-- **A late reply captures the fake.** A reply on a connection that goes through the node, when the
entry of its fake is gone, makes the fake lead to the client of the connection: for as long as
connections to the fake are busy from then on, every connection that is opened to it goes to that
client, and no transaction binds it to the real address again. -/
theorem captured {id : ℕ} {flow : Flow} {now : Time} (hflow : s.flows id = some flow)
    (hforwarded : flow.forwarded = true) (hreal : flow.real.isSome = true)
    (hpool : inPool flow.original = true) (hgone : s.kernel.look now flow.original = none)
    {es : List Event}
    (hbusy : Busy inPool flow.original now (step inPool s (.replies id now)) es) :
    Runs.Along (step inPool) (LeadsTo inPool flow.original flow.client)
        (step inPool s (.replies id now)) es ∧
      (Runs.run (step inPool) (step inPool s (.replies id now)) es).kernel.find flow.original =
        some flow.client := by
  have hreply : (step inPool s (.replies id now)).kernel.lookup flow.original =
      some (flow.client, now + mapTimeout) := by
    have hpassing : s.passing inPool (.replies id now) = some (flow, flow.client) := by
      rw [passing, hflow, Option.filter_some, if_pos hforwarded]
      rfl
    have hkernel : (step inPool s (.replies id now)).kernel =
        s.kernel.update now flow.original flow.client := by
      simp [step, passed, hpassing, pass, hreal, hpool]
    rw [hkernel, Kernel.lookup_update_of_gone hgone]
  exact find_of_busy hreply le_rfl hbusy

/-- The connection has been idle for three hours when the server says something. Then the mapping is
written again and another client connects. -/
def lateFake : List Event :=
  [.adds [⟨[198, 18, 0, 1], [203, 0, 113, 9], 120 * minute⟩] (190 * minute),
    .opens 1 [10, 0, 0, 3] [198, 18, 0, 1] true (191 * minute)]

theorem captured_late :
    (Runs.run (step fakes) (step fakes (step fakes oneFake
      (.opens 0 [10, 0, 0, 2] [198, 18, 0, 1] true 0)) (.replies 0 (180 * minute)))
        lateFake).kernel.find [198, 18, 0, 1] = some [10, 0, 0, 2] :=
  (captured (show _ = some ⟨[10, 0, 0, 2], [198, 18, 0, 1], some [203, 0, 113, 9], true⟩ by
    decide +kernel) rfl rfl (by decide) (by decide +kernel) (by decide +kernel)).2

end Traffic

end NextPath.Netlink
