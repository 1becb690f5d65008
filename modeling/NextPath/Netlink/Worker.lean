import NextPath.Foundations.Runs
import NextPath.Netlink.Attempt

/-!
# The batch worker

A call of `NFTClient.AddMapping` puts an operation in a channel and waits for its answer. One
goroutine, `batchWorker`, takes what is in the channel, up to 256 operations, and sends it to the
kernel in one transaction; when that fails it opens the socket again and sends it once more. All
operations of a batch get the same answer.

The worker is followed here section by section. What the socket answers, what else happens to the
kernel maps, how the calls and the worker interleave and when a caller gives up is in the events. A
`Flush` that fails has changed nothing. Every attempt to send a batch is remembered, with the kernel
maps it met.

An answer without an error is given in three cases: the batch was sent; some error of it had "file
exists" in its text; or the operation has no element and was left out of the batch. Only in the
first has the mapping been written.

* `mem_answers_step`, `mem_returned_step`: where an answer without an error comes from;
* `Truthful.step`: such an answer, in one step;
* `applied_of_explained`: the same over whole runs.
-/

namespace NextPath.Netlink.Worker

open Net Pool Runs Strings

/-! ## The client -/

/-- A call of `AddMapping` that is under way, with its operation. -/
structure Ticket where
  id : ℕ
  op : MappingOp
  deriving DecidableEq

/-- Where the worker is. -/
inductive Phase
  /-- It takes operations from the channel. -/
  | collecting
  /-- The batch is complete and has not been sent. -/
  | complete
  /-- The first attempt has failed, and the socket is to be opened again. -/
  | failed (err : Bytes)
  /-- The socket is open again, and the lock is still held. -/
  | retrying
  | stopped
  deriving DecidableEq

/-- An attempt to send a batch, with the kernel maps that it meets. -/
structure Attempt where
  kernel : Kernel
  /-- The calls of the batch. -/
  tickets : List Ticket
  elements : List SetElement
  /-- A `Flush` was made and succeeded. -/
  flushed : Bool

structure Client where
  /-- The socket is open. -/
  conn : Bool
  /-- `cancelCh` is closed. -/
  cancelled : Bool
  /-- The worker returns after the batch it has. -/
  leaving : Bool
  phase : Phase
  batchCh : List Ticket
  batch : List Ticket
  kernel : Kernel
  /-- The number of calls so far. -/
  calls : ℕ
  /-- The calls that wait for their answer. -/
  waiting : List Ticket
  /-- What the worker has answered. -/
  answers : List (Ticket × Option Bytes)
  /-- What the calls have returned. -/
  returned : List (Ticket × Option Bytes)
  attempts : List Attempt

/-- A client that has just been made, over the kernel maps that are there. -/
def Client.start (kernel : Kernel) : Client :=
  ⟨true, false, false, .collecting, [], [], kernel, 0, [], [], [], []⟩

inductive Event
  /-- A call of `AddMapping`, until it waits. -/
  | addMapping (fakeIP realIP : IP) (timeout : Time)
  /-- The worker takes an operation from the channel. -/
  | take
  /-- The channel is empty or the batch is full. -/
  | drained
  /-- `Close` closes `cancelCh`. -/
  | cancel
  /-- The worker sees that. -/
  | leave
  /-- The worker sends its batch. -/
  | flush (now : Time) (reply : Reply)
  /-- The worker opens the socket again, in up to five tries. -/
  | reconnect (tries : Fin 5 → Bool)
  /-- `Reconnect`, from elsewhere. -/
  | reset (tries : Fin 5 → Bool)
  /-- The end of `Close`. -/
  | close
  /-- A call receives its answer. -/
  | receive (t : Ticket)
  /-- A call has waited for five seconds. -/
  | expire (t : Ticket)
  /-- The kernel maps change: timers, traffic, other programs. -/
  | kernel (k : Kernel)

/-- `reconnectLocked`: whether the socket is open after it. -/
def reconnectLocked (tries : Fin 5 → Bool) : Bool := (List.finRange 5).any tries

namespace Client

variable (enableIPv6 : Bool) (c : Client)

/-- `AddMapping`, up to the point where it waits. -/
def addMapping (fakeIP realIP : IP) (timeout : Time) : Client :=
  let t : Ticket := ⟨c.calls, fakeIP, realIP, timeout⟩
  let c := { c with calls := c.calls + 1 }
  if fakeIP = [] ∨ realIP = [] then
    { c with returned := (t, some (str "invalid address: fake=" ++ fakeIP.string ++ str ", real=" ++
        realIP.string)) :: c.returned }
  else if enableIPv6 = false ∧ fakeIP.to4 = [] then { c with returned := (t, none) :: c.returned }
  else if c.batchCh.length < batchChanSize then
    { c with batchCh := c.batchCh ++ [t], waiting := t :: c.waiting }
  else { c with returned := (t, some (str "batch queue is full")) :: c.returned }

/-- The end of the worker's `flush`: every operation of the batch gets the same answer. -/
def finish (finalErr : Option Bytes) : Client :=
  { c with
    answers := c.batch.map (·, finalErr) ++ c.answers
    batch := []
    phase := if c.leaving then .stopped else .collecting }

/-- The operations of the batch. -/
def ops : List MappingOp := c.batch.map Ticket.op

/-- The state after an attempt, before its error is looked at. -/
def attempt (now : Time) (reply : Reply) : Client :=
  let els := elements enableIPv6 c.ops
  let flushed := decide (flushBatchLocked enableIPv6 c.conn c.ops reply = none ∧ els ≠ [])
  { c with
    kernel := if flushed then (c.kernel.add now els).getD c.kernel else c.kernel
    attempts := ⟨c.kernel, c.batch, els, flushed⟩ :: c.attempts }

/-- The first attempt of the worker's `flush`, and the second. -/
def flush (now : Time) (reply : Reply) : Client :=
  let c' := c.attempt enableIPv6 now reply
  match c.phase, flushBatchLocked enableIPv6 c.conn c.ops reply with
  | .complete, none | .retrying, none => c'.finish none
  | .complete, some err =>
    if contains err fileExists then c'.finish none else { c' with phase := .failed err }
  | .retrying, some err => if contains err fileExists then c'.finish none else c'.finish (some err)
  | _, _ => c

/-- A call that waits returns. -/
def ret (t : Ticket) (err : Option Bytes) : Client :=
  { c with waiting := c.waiting.erase t, returned := (t, err) :: c.returned }

end Client

/-- One step of the client, its callers, its worker or the kernel. An event that cannot happen in
the state leaves it as it is. -/
def step (enableIPv6 : Bool) (c : Client) : Event → Client
  | .addMapping fakeIP realIP timeout => c.addMapping enableIPv6 fakeIP realIP timeout
  | .take =>
    match c.phase, c.batchCh with
    | .collecting, t :: rest =>
      if c.batch.length < batchMaxSize then { c with batchCh := rest, batch := c.batch ++ [t] }
      else c
    | _, _ => c
  | .drained =>
    if c.phase = .collecting ∧ c.batch ≠ [] ∧
      (c.batchCh = [] ∨ c.batch.length = batchMaxSize) then { c with phase := .complete } else c
  | .cancel => { c with cancelled := true }
  | .leave =>
    if c.phase = .collecting ∧ c.cancelled ∧ c.batch.length < batchMaxSize then
      { c with leaving := true, phase := if c.batch = [] then .stopped else .complete }
    else c
  | .flush now reply => c.flush enableIPv6 now reply
  | .reconnect tries =>
    match c.phase with
    | .failed err =>
      let c' := { c with conn := reconnectLocked tries }
      if reconnectLocked tries then { c' with phase := .retrying } else c'.finish (some err)
    | _ => c
  | .reset tries =>
    -- the lock is held from the reconnection to the end of the second attempt
    if c.phase = .retrying then c else { c with conn := reconnectLocked tries }
  | .close => if c.phase = .stopped then { c with conn := false } else c
  | .receive t =>
    match c.answers.lookup t with
    | some err => if t ∈ c.waiting then c.ret t err else c
    | none => c
  | .expire t =>
    if t ∈ c.waiting then c.ret t (some (str "timeout waiting for mapping application")) else c
  | .kernel k => { c with kernel := k }

/-! ## What a step can do -/

section Steps

variable {enableIPv6 : Bool} {c : Client} {e : Event} {t : Ticket}

/-- The events that send nothing, answer nothing and let no call return. -/
def Event.Quiet : Event → Prop
  | .take | .drained | .cancel | .leave | .reset _ | .close | .kernel _ => True
  | .addMapping .. | .flush .. | .reconnect _ | .receive _ | .expire _ => False

/-- What the client remembers is left alone by these. -/
theorem step_of_quiet (he : e.Quiet) :
    (step enableIPv6 c e).answers = c.answers ∧ (step enableIPv6 c e).returned = c.returned ∧
      (step enableIPv6 c e).attempts = c.attempts := by
  cases e with
  | take =>
    rw [step]
    split
    · split_ifs <;> exact ⟨rfl, rfl, rfl⟩
    · exact ⟨rfl, rfl, rfl⟩
  | drained | leave | reset | close =>
    rw [step]
    split_ifs <;> exact ⟨rfl, rfl, rfl⟩
  | cancel | kernel => exact ⟨rfl, rfl, rfl⟩
  | addMapping | flush | reconnect | receive | expire => exact he.elim

theorem mem_answers_finish {finalErr : Option Bytes}
    (h : (t, none) ∈ (c.finish finalErr).answers) :
    (t, none) ∈ c.answers ∨ t ∈ c.batch ∧ finalErr = none := by
  rcases List.mem_append.1 h with h | h
  · obtain ⟨t', ht', heq⟩ := List.mem_map.1 h
    cases heq
    exact .inr ⟨ht', rfl⟩
  · exact .inl h

/-- The attempt that the worker makes next. -/
def nextAttempt (enableIPv6 : Bool) (c : Client) (reply : Reply) : Attempt :=
  ⟨c.kernel, c.batch, elements enableIPv6 c.ops,
    decide (flushBatchLocked enableIPv6 c.conn c.ops reply = none ∧ elements enableIPv6 c.ops ≠ [])⟩

/-- **Where an answer without an error comes from**: an attempt that reports no error, or one in
which the socket has said "file exists". -/
theorem mem_answers_flush {now : Time} {reply : Reply}
    (h : (t, none) ∈ (c.flush enableIPv6 now reply).answers) :
    (t, none) ∈ c.answers ∨ t ∈ c.batch ∧
      (flushBatchLocked enableIPv6 c.conn c.ops reply = none ∨ reply.FileExists) ∧
      nextAttempt enableIPv6 c reply ∈ (c.flush enableIPv6 now reply).attempts := by
  have hfinish {finalErr : Option Bytes}
      (h : (t, none) ∈ ((c.attempt enableIPv6 now reply).finish finalErr).answers) :
      (t, none) ∈ c.answers ∨ t ∈ c.batch ∧ finalErr = none := mem_answers_finish h
  rw [Client.flush] at h ⊢
  cases hphase : c.phase <;> cases herr : flushBatchLocked enableIPv6 c.conn c.ops reply <;>
    simp only [hphase, herr] at h ⊢
  case complete.none => exact (hfinish h).imp_right fun h => ⟨h.1, .inl trivial, List.mem_cons_self⟩
  case retrying.none => exact (hfinish h).imp_right fun h => ⟨h.1, .inl trivial, List.mem_cons_self⟩
  case complete.some err =>
    split_ifs at h ⊢ with hexists
    · exact (hfinish h).imp_right fun h =>
        ⟨h.1, .inr (fileExists_of_contains herr hexists), List.mem_cons_self⟩
    · exact .inl h
  case retrying.some err =>
    split_ifs at h ⊢ with hexists
    · exact (hfinish h).imp_right fun h =>
        ⟨h.1, .inr (fileExists_of_contains herr hexists), List.mem_cons_self⟩
    · exact .inl ((hfinish h).resolve_right fun h => by cases h.2)
  all_goals exact .inl h

theorem mem_answers_step (h : (t, none) ∈ (step enableIPv6 c e).answers) :
    (t, none) ∈ c.answers ∨ ∃ now reply, e = .flush now reply ∧ t ∈ c.batch ∧
      (flushBatchLocked enableIPv6 c.conn c.ops reply = none ∨ reply.FileExists) ∧
      nextAttempt enableIPv6 c reply ∈ (step enableIPv6 c e).attempts := by
  by_cases hquiet : e.Quiet
  · rw [(step_of_quiet hquiet).1] at h
    exact .inl h
  cases e with
  | flush now reply => exact (mem_answers_flush h).imp_right fun h => ⟨now, reply, rfl, h⟩
  | reconnect tries =>
    refine .inl ?_
    rw [step] at h
    split at h
    · dsimp only at h
      split_ifs at h
      · exact h
      · exact (mem_answers_finish h).resolve_right fun h => by cases h.2
    · exact h
  | addMapping fakeIP realIP timeout =>
    refine .inl ?_
    simp only [step, Client.addMapping] at h
    split_ifs at h <;> exact h
  | receive t' =>
    refine .inl ?_
    rw [step] at h
    split at h
    · split_ifs at h <;> exact h
    · exact h
  | expire t' =>
    refine .inl ?_
    rw [step] at h
    split_ifs at h <;> exact h
  | take | drained | cancel | leave | reset | close | kernel =>
    exact absurd trivial hquiet

/-- With IPv6 enabled no call returns without an error before it has waited. -/
theorem mem_returned_addMapping {fakeIP realIP : IP} {timeout : Time}
    (h : (t, none) ∈ (c.addMapping true fakeIP realIP timeout).returned) :
    (t, none) ∈ c.returned := by
  simp only [Client.addMapping, Bool.true_eq_false, false_and, if_false] at h
  split_ifs at h
  · exact (List.mem_cons.1 h).resolve_left fun h => by cases (Prod.ext_iff.1 h).2
  · exact h
  · exact (List.mem_cons.1 h).resolve_left fun h => by cases (Prod.ext_iff.1 h).2

/-- Where a call that returns without an error has it from. -/
theorem mem_returned_step (h : (t, none) ∈ (step true c e).returned) :
    (t, none) ∈ c.returned ∨ (t, none) ∈ c.answers := by
  by_cases hquiet : e.Quiet
  · rw [(step_of_quiet hquiet).2.1] at h
    exact .inl h
  have hnew {t' : Ticket} {err : Option Bytes} (h : (t, none) ∈ (t', err) :: c.returned) :
      (t, none) ∈ c.returned ∨ t' = t ∧ err = none := by
    rcases List.mem_cons.1 h with h | h
    · exact .inr ⟨(Prod.ext_iff.1 h).1.symm, (Prod.ext_iff.1 h).2.symm⟩
    · exact .inl h
  cases e with
  | addMapping fakeIP realIP timeout => exact .inl (mem_returned_addMapping h)
  | receive t' =>
    rw [step] at h
    split at h
    · next err herr =>
      split_ifs at h
      · refine (hnew h).imp_right ?_
        rintro ⟨rfl, rfl⟩
        obtain ⟨l₁, l₂, hl, -⟩ := List.lookup_eq_some_iff.1 herr
        rw [hl]
        exact List.mem_append_right l₁ List.mem_cons_self
      · exact .inl h
    · exact .inl h
  | expire t' =>
    refine .inl ?_
    rw [step] at h
    split_ifs at h
    · exact (hnew h).resolve_right fun h => by cases h.2
    · exact h
  | flush now reply =>
    refine .inl ?_
    simp only [step, Client.flush] at h
    split at h <;> first | exact h | (split_ifs at h <;> exact h)
  | reconnect tries =>
    refine .inl ?_
    rw [step] at h
    split at h
    · dsimp only at h
      split_ifs at h <;> exact h
    · exact h
  | take | drained | cancel | leave | reset | close | kernel =>
    exact absurd trivial hquiet

/-- The attempts are remembered. -/
theorem attempts_step : c.attempts ⊆ (step enableIPv6 c e).attempts := by
  intro a ha
  by_cases hquiet : e.Quiet
  · rwa [(step_of_quiet hquiet).2.2]
  cases e with
  | addMapping fakeIP realIP timeout =>
    simp only [step, Client.addMapping]
    split_ifs <;> exact ha
  | flush now reply =>
    have hcons : a ∈ (c.attempt enableIPv6 now reply).attempts := List.mem_cons_of_mem _ ha
    simp only [step, Client.flush]
    split <;> first | exact hcons | (split_ifs <;> exact hcons) | exact ha
  | reconnect tries =>
    rw [step]
    split
    · dsimp only
      split_ifs <;> exact ha
    · exact ha
  | receive t' =>
    rw [step]
    split
    · split_ifs <;> exact ha
    · exact ha
  | expire t' =>
    rw [step]
    split_ifs <;> exact ha
  | take | drained | cancel | leave | reset | close | kernel =>
    exact absurd trivial hquiet

end Steps

/-! ## Answers -/

/-- A batch of the call, with the element in it, was sent with success, or its sending met kernel
maps that had the element already. -/
def Applied (c : Client) (t : Ticket) (el : SetElement) : Prop :=
  ∃ a ∈ c.attempts, t ∈ a.tickets ∧ el ∈ a.elements ∧
    (a.flushed = true ∨ a.kernel.find el.key = some el.val)

/-- The rule of the call was applied: its operation has an element, and that was. -/
def RuleApplied (c : Client) (t : Ticket) : Prop :=
  ∃ el, t.op.element true = some el ∧ Applied c t el

/-- When the batch of the call is sent and the socket says "file exists", the kernel maps have the
element of its operation. -/
def Explained (t : Ticket) (c : Client) : Event → Prop
  | .flush _ reply => reply.FileExists → t ∈ c.batch →
    ∃ el, t.op.element true = some el ∧ c.kernel.find el.key = some el.val
  | _ => True

/-- An answer to the call that is no error, given or returned, is right. -/
structure Truthful (t : Ticket) (c : Client) : Prop where
  answers : (t, none) ∈ c.answers → RuleApplied c t
  returned : (t, none) ∈ c.returned → RuleApplied c t

theorem RuleApplied.step {t : Ticket} {c : Client} (h : RuleApplied c t) (e : Event) :
    RuleApplied (step true c e) t := by
  obtain ⟨el, hel, a, ha, happlied⟩ := h
  exact ⟨el, hel, a, attempts_step ha, happlied⟩

/-- **One step**: an answer that is given now is for a batch that has just been sent, or refused
because the element is there. -/
theorem Truthful.step {t : Ticket} {el : SetElement} (hel : t.op.element true = some el)
    {c : Client} (h : Truthful t c) {e : Event} (he : Explained t c e) :
    Truthful t (step true c e) := by
  refine ⟨fun hmem => ?_, fun hmem => ?_⟩
  · rcases mem_answers_step hmem with hmem | ⟨now, reply, rfl, hbatch, hwhy, hattempt⟩
    · exact (h.answers hmem).step e
    · have hmem : el ∈ elements true c.ops :=
        mem_elements.2 ⟨t.op, List.mem_map_of_mem hbatch, hel⟩
      -- the attempt that has just been made is one for this call
      refine ⟨el, hel, _, hattempt, hbatch, hmem, ?_⟩
      rcases hwhy with hnone | hexists
      · exact .inl (decide_eq_true ⟨hnone, List.ne_nil_of_mem hmem⟩)
      · obtain ⟨el', hel', hfind⟩ := he hexists hbatch
        obtain rfl := Option.some.inj (hel.symm.trans hel')
        exact .inr hfind
  · rcases mem_returned_step hmem with hmem | hmem
    · exact (h.returned hmem).step e
    · exact (h.answers hmem).step e

/-- **A call that returns without an error has applied its rule**, in every run, if its operation
has an element and its batch is refused with "file exists" only where the kernel maps have that
element: of the attempts to send the batch of this call, one was flushed with success or met kernel
maps with the element. The run interleaves any calls on any addresses, any batches that the worker
forms, any replies of the socket, reconnections and changes of the kernel maps, and begins with any
of them. -/
theorem applied_of_explained (kernel : Kernel) (t : Ticket)
    (hel : t.op.element true ≠ none) (es : List Event)
    (hrun : Along (step true) (Explained t) (Client.start kernel) es)
    (hret : (t, none) ∈ (run (step true) (Client.start kernel) es).returned) :
    RuleApplied (run (step true) (Client.start kernel) es) t := by
  obtain ⟨el, hel⟩ := Option.ne_none_iff_exists'.1 hel
  have hstart : Truthful t (Client.start kernel) :=
    ⟨fun h => absurd h List.not_mem_nil, fun h => absurd h List.not_mem_nil⟩
  exact (invariant (fun _ _ h he => h.step hel he) hstart hrun).returned hret

/-- A mapping that is written, and written again when the kernel maps have lost it. -/
theorem applied_of_explained_again :
    let op : MappingOp := ⟨[198, 18, 0, 1], [1, 1, 1, 1], mappingTTL⟩
    let es : List Event := [.addMapping op.fakeIP op.realIP op.timeout, .take, .drained,
      .flush 0 ⟨none, none, none⟩, .receive ⟨0, op⟩, .kernel ∅,
      .addMapping op.fakeIP op.realIP op.timeout, .take, .drained,
      .flush 0 ⟨none, none, none⟩, .receive ⟨1, op⟩]
    RuleApplied (run (step true) (Client.start ∅) es) ⟨1, op⟩ := by
  intro op es
  have hrun : Along (step true) (Explained ⟨1, op⟩) (Client.start ∅) es := by
    simp only [es, along_cons, along_nil, and_true, Explained, true_and]
    constructor
    all_goals
      rintro ⟨err, h | h | h, -⟩ <;> cases h
  exact applied_of_explained ∅ ⟨1, op⟩ (by decide) es hrun (by decide +kernel)

/-- **Answers that are wrong.** The kernel binds 198.18.0.1 to 9.9.9.9. A call for 198.18.0.1
and 1.1.1.1 and one for 198.18.0.2 and 2.2.2.2 are sent in one batch, which the kernel refuses
because of the first: both return without an error, and nothing was written. A third one maps an
IPv4 fake to an IPv6 real; it has no element, its batch is not sent at all, and it returns without
an error too. -/
theorem answered_and_not_applied :
    let kernel : Kernel := Finmap.singleton [198, 18, 0, 1] ([9, 9, 9, 9], mappingTTL)
    let op₁ : MappingOp := ⟨[198, 18, 0, 1], [1, 1, 1, 1], mappingTTL⟩
    let op₂ : MappingOp := ⟨[198, 18, 0, 2], [2, 2, 2, 2], mappingTTL⟩
    let op₃ : MappingOp :=
      ⟨[198, 18, 0, 3], [0x20, 1, 0, 0, 0, 0, 0, 0, 0, 0, 0, 0, 0, 0, 0, 1], mappingTTL⟩
    let c := run (step true) (Client.start kernel)
      [.addMapping op₁.fakeIP op₁.realIP op₁.timeout, .addMapping op₂.fakeIP op₂.realIP op₂.timeout,
        .take, .take, .drained, .flush 0 ⟨none, none, some (str "file exists")⟩,
        .receive ⟨0, op₁⟩, .receive ⟨1, op₂⟩,
        .addMapping op₃.fakeIP op₃.realIP op₃.timeout, .take, .drained,
        .flush 0 ⟨none, none, none⟩, .receive ⟨2, op₃⟩]
    kernel.add 0 (elements true [op₁, op₂]) = none ∧
      ((⟨1, op₂⟩, none) ∈ c.returned ∧ ¬ RuleApplied c ⟨1, op₂⟩) ∧
      (⟨2, op₃⟩, none) ∈ c.returned ∧ ¬ RuleApplied c ⟨2, op₃⟩ := by
  intro kernel op₁ op₂ op₃ c
  refine ⟨by decide +kernel, ⟨by decide +kernel, ?_⟩, by decide +kernel, ?_⟩
  · rintro ⟨el, hel, a, ha, -, -, happlied⟩
    obtain rfl : (⟨[198, 18, 0, 2], [2, 2, 2, 2], mappingTTL⟩ : SetElement) = el :=
      Option.some.inj hel
    have hnone : ∀ a ∈ c.attempts, a.flushed = false ∧ a.kernel.find [198, 18, 0, 2] = none := by
      decide +kernel
    rw [(hnone a ha).1, (hnone a ha).2] at happlied
    rcases happlied with h | h <;> cases h
  · rintro ⟨el, hel, -⟩
    cases hel

end NextPath.Netlink.Worker
