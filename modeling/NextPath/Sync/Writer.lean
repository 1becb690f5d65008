import NextPath.Foundations.Runs
import NextPath.Foundations.Streams
import NextPath.Sync.Connections

/-!
# The writer of a connection

A connection has a queue of 1024 messages and a goroutine, `writeLoop`, that empties it. The writer
encodes a message into a buffer, goes on with the queue until it finds it empty, and then flushes;
every 30 seconds it writes a ping. Whoever has a message puts it in the queue if there is room, and
closes the connection otherwise. `Close` sets a flag, puts `nil` in the queue if there is room, and
closes the socket. The writer, the senders and the callers of `Close` are followed here section by
section: between finding the queue full and closing the connection a sender may be overtaken, and so
may `Close` between its three steps. How many bytes of the buffer a write moves to the wire, and
whether it fails, is in the events; once the socket is closed no byte is moved.

* `Inv`: what is in the buffer and on the wire is what was encoded, and what was put in the queue is
  what was encoded, what the writer has in hand and what is still in the queue;
* `received_prefix`: what the peer reads from the wire are the first messages of the queue, in its
  order;
* `drains`: while the connection is open, the writer can bring everything to the wire that was
  handed to the connection;
* `returns`: once the socket is closed, the writer returns.

`SafeConn`, as the handlers see it, is the same connection without the writer's buffer
(`Matches`).
-/

namespace NextPath.Sync

open Runs Streams

namespace Writer

variable {M : Type}

/-! ## The connection -/

/-- How far `Close` is. -/
inductive Closing
  | idle
  /-- The flag is set. -/
  | flagged
  /-- `nil` is in the queue, or the queue was full. -/
  | signalled
  /-- The socket is closed. -/
  | shut
  deriving DecidableEq

/-- Where the writer is. -/
inductive Point (M : Type)
  /-- At the outer `select`. -/
  | waiting
  /-- It has a message in hand, or a ping. -/
  | encoding (msg : Option M)
  /-- At the inner `select`. -/
  | draining
  | flushing
  /-- A write has failed. -/
  | failed
  | returned

/-- `SafeConn`, with its writer. Of the senders those are counted that have found the queue full
and have not yet closed the connection. What was handed to the connection, what was put in the
queue and what was encoded (a ping is `none`) is remembered. -/
structure State (M : Type) where
  /-- The queue, where `none` is `nil`. -/
  writeChan : List (Option M)
  closing : Closing
  point : Point M
  buf : Bytes
  wire : Bytes
  refusing : ℕ
  offered : List M
  queued : List M
  encoded : List (Option M)

/-- `NewSafeConn`. -/
def State.new : State M := ⟨[], .idle, .waiting, [], [], 0, [], [], []⟩

/-- The first step of `Close`, which is made once. -/
def State.close (w : State M) : State M :=
  match w.closing with
  | .idle => { w with closing := .flagged }
  | _ => w

/-- The next step of a `Close` that has begun. -/
def State.closeNext (w : State M) : State M :=
  match w.closing with
  | .flagged =>
    { w with
      closing := .signalled
      writeChan := if w.writeChan.length < 1024 then w.writeChan ++ [none] else w.writeChan }
  | .signalled => { w with closing := .shut }
  | _ => w

/-- The `select` of a sender. -/
def State.offer (w : State M) (m : M) : State M :=
  if w.writeChan.length < 1024 then
    { w with
      writeChan := w.writeChan ++ [some m], queued := w.queued ++ [m]
      offered := w.offered ++ [m] }
  else { w with offered := w.offered ++ [m], refusing := w.refusing + 1 }

/-- A sender that has found the queue full closes the connection. -/
def State.refuse (w : State M) : State M :=
  if 0 < w.refusing then { w.close with refusing := w.refusing - 1 } else w

/-! ## The writer -/

/-- A step of `writeLoop`. -/
inductive Own
  /-- It takes the first message of the queue. -/
  | take
  /-- The ticker has fired. -/
  | tick
  | encode (moved : ℕ) (ok : Bool)
  /-- The queue is found empty. -/
  | drained
  | flush (moved : ℕ) (ok : Bool)
  /-- It closes the connection after a failure, and returns when that is done. -/
  | exit

/-- The writer with the first message of the queue. -/
def State.take (w : State M) : Option (State M) :=
  match w.writeChan with
  | [] => none
  | none :: rest => some { w with writeChan := rest, point := .returned }
  | some m :: rest => some { w with writeChan := rest, point := .encoding (some m) }

/-- A write of the bytes in the buffer and of some more: part of them go to the wire, unless the
socket is closed. -/
def State.put (w : State M) (bytes : Bytes) (moved : ℕ) : State M :=
  let moved := if w.closing = .shut then 0 else moved
  { w with wire := w.wire ++ (w.buf ++ bytes).take moved, buf := (w.buf ++ bytes).drop moved }

/-- `enc.Encode`. -/
def State.encode (enc : Encoder (Option M)) (w : State M) (msg : Option M) (moved : ℕ)
    (ok : Bool) : State M :=
  { w.put (enc w.encoded msg) moved with
    encoded := w.encoded ++ [msg]
    point := if ok then (if msg.isSome then .draining else .flushing) else .failed }

/-- `bw.Flush`, which does nothing if the buffer is empty. -/
def State.flush (w : State M) (moved : ℕ) (ok : Bool) : State M :=
  if w.buf = [] then { w with point := .waiting }
  else if ok ∧ w.closing ≠ .shut then { w.put [] w.buf.length with point := .waiting }
  else { w.put [] moved with point := .failed }

/-- A step of `writeLoop`, if the writer can make it where it is. -/
def State.advance (enc : Encoder (Option M)) (w : State M) : Own → Option (State M)
  | .take =>
    match w.point with
    | .waiting | .draining => w.take
    | _ => none
  | .tick =>
    match w.point with
    | .waiting => some { w with point := .encoding none }
    | _ => none
  | .encode moved ok =>
    match w.point with
    | .encoding msg => some (w.encode enc msg moved ok)
    | _ => none
  | .drained =>
    match w.point, w.writeChan with
    | .draining, [] => some { w with point := .flushing }
    | _, _ => none
  | .flush moved ok =>
    match w.point with
    | .flushing => some (w.flush moved ok)
    | _ => none
  | .exit =>
    match w.point with
    | .failed => some (if w.closing = .shut then { w with point := .returned } else w.close)
    | _ => none

/-- What can happen at a connection. -/
inductive Event (M : Type)
  | offer (m : M)
  | refuse
  | close
  | closeNext
  | own (o : Own)

def step (enc : Encoder (Option M)) (w : State M) : Event M → State M
  | .offer m => w.offer m
  | .refuse => w.refuse
  | .close => w.close
  | .closeNext => w.closeNext
  | .own o => (w.advance enc o).getD w

/-! ## What a step of the writer can do -/

variable {enc : Encoder (Option M)}

/-- The writer is at one of its two `select`s. -/
def Point.Receives (p : Point M) : Prop := p = .waiting ∨ p = .draining

/-- The steps of the writer, with where they lead. -/
inductive Moves (enc : Encoder (Option M)) (w : State M) : State M → Prop
  | takeNil {rest : List (Option M)} (hpoint : w.point.Receives)
      (hchan : w.writeChan = none :: rest) :
      Moves enc w { w with writeChan := rest, point := .returned }
  | take {m : M} {rest : List (Option M)} (hpoint : w.point.Receives)
      (hchan : w.writeChan = some m :: rest) :
      Moves enc w { w with writeChan := rest, point := .encoding (some m) }
  | tick (hpoint : w.point = .waiting) : Moves enc w { w with point := .encoding none }
  | encode {msg : Option M} (moved : ℕ) (ok : Bool) (hpoint : w.point = .encoding msg) :
      Moves enc w (w.encode enc msg moved ok)
  | drained (hpoint : w.point = .draining) (hchan : w.writeChan = []) :
      Moves enc w { w with point := .flushing }
  | flush (moved : ℕ) (ok : Bool) (hpoint : w.point = .flushing) : Moves enc w (w.flush moved ok)
  | close (hpoint : w.point = .failed) (hclosing : w.closing ≠ .shut) : Moves enc w w.close
  | exit (hpoint : w.point = .failed) (hclosing : w.closing = .shut) :
      Moves enc w { w with point := .returned }

theorem moves_of_take {w w' : State M} (hpoint : w.point.Receives) (h : w.take = some w') :
    Moves enc w w' := by
  unfold State.take at h
  split at h
  · cases h
  case h_2 rest hchan => exact Option.some.inj h ▸ .takeNil hpoint hchan
  case h_3 m rest hchan => exact Option.some.inj h ▸ .take hpoint hchan

theorem moves_of_advance {w w' : State M} {o : Own} (h : w.advance enc o = some w') :
    Moves enc w w' := by
  cases o with
  | take =>
    simp only [State.advance] at h
    split at h
    case h_1 hpoint => exact moves_of_take (.inl hpoint) h
    case h_2 hpoint => exact moves_of_take (.inr hpoint) h
    · cases h
  | tick =>
    simp only [State.advance] at h
    split at h
    case h_1 hpoint => exact Option.some.inj h ▸ .tick hpoint
    · cases h
  | encode moved ok =>
    simp only [State.advance] at h
    split at h
    case h_1 msg hpoint => exact Option.some.inj h ▸ .encode moved ok hpoint
    · cases h
  | drained =>
    simp only [State.advance] at h
    split at h
    case h_1 hpoint hchan => exact Option.some.inj h ▸ .drained hpoint hchan
    · cases h
  | flush moved ok =>
    simp only [State.advance] at h
    split at h
    case h_1 hpoint => exact Option.some.inj h ▸ .flush moved ok hpoint
    · cases h
  | exit =>
    simp only [State.advance] at h
    split at h
    case h_1 hpoint =>
      rw [← Option.some.inj h]
      by_cases hclosing : w.closing = .shut
      · rw [if_pos hclosing]
        exact .exit hpoint hclosing
      · rw [if_neg hclosing]
        exact .close hpoint hclosing
    · cases h

/-! ## Where a message is -/

/-- The message that the writer has in hand. -/
def Point.hand : Point M → List M
  | .encoding msg => msg.toList
  | _ => []

/-- Every byte and every message is accounted for; and as long as `Close` has not been called, the
messages that are not in the queue are those of the senders that are about to call it. -/
structure Inv (enc : Encoder (Option M)) (w : State M) : Prop where
  bytes : w.wire ++ w.buf = stream enc w.encoded
  account : w.queued = w.encoded.reduceOption ++ w.point.hand ++ w.writeChan.reduceOption
  queued : w.queued.Sublist w.offered
  refused : w.closing = .idle → w.offered.length = w.queued.length + w.refusing
  signal : w.closing = .idle → none ∉ w.writeChan
  running : w.closing = .idle → w.point ≠ .returned
  flushed : w.point = .waiting → w.buf = []

theorem wire_put (w : State M) (bytes : Bytes) (moved : ℕ) :
    (w.put bytes moved).wire ++ (w.put bytes moved).buf = w.wire ++ w.buf ++ bytes := by
  simp only [State.put, List.append_assoc, List.take_append_drop]

theorem close_eq (w : State M) : ∃ c ≠ Closing.idle, w.close = { w with closing := c } := by
  unfold State.close
  split
  · exact ⟨.flagged, by decide, rfl⟩
  case h_2 h => exact ⟨w.closing, h, rfl⟩

namespace Inv

variable {w : State M}

theorem new : Inv enc (State.new : State M) where
  bytes := rfl
  account := rfl
  queued := .refl _
  refused _ := rfl
  signal _ := List.not_mem_nil
  running _ h := nomatch h
  flushed _ := rfl

/-- `Close` goes on. -/
theorem closed (h : Inv enc w) {c : Closing} (hc : c ≠ .idle) {chan : List (Option M)}
    (hchan : chan.reduceOption = w.writeChan.reduceOption) (n : ℕ) :
    Inv enc { w with closing := c, writeChan := chan, refusing := n } where
  bytes := h.bytes
  account := hchan ▸ h.account
  queued := h.queued
  refused hidle := absurd hidle hc
  signal hidle := absurd hidle hc
  running hidle := absurd hidle hc
  flushed := h.flushed

theorem close (h : Inv enc w) : Inv enc w.close := by
  obtain ⟨c, hc, heq⟩ := close_eq w
  rw [heq]
  exact h.closed hc rfl w.refusing

theorem closeNext (h : Inv enc w) : Inv enc w.closeNext := by
  unfold State.closeNext
  split
  · refine h.closed (by decide) ?_ w.refusing
    split
    · rw [List.reduceOption_append, List.reduceOption_singleton, Option.toList_none,
        List.append_nil]
    · rfl
  · exact h.closed (by decide) rfl w.refusing
  · exact h

theorem refuse (h : Inv enc w) : Inv enc w.refuse := by
  unfold State.refuse
  split
  · obtain ⟨c, hc, heq⟩ := close_eq w
    rw [heq]
    exact h.closed hc rfl (w.refusing - 1)
  · exact h

theorem offer (h : Inv enc w) (m : M) : Inv enc (w.offer m) := by
  unfold State.offer
  split
  · exact {
      bytes := h.bytes
      account := by
        rw [List.reduceOption_append, ← List.append_assoc, ← h.account]
        rfl
      queued := h.queued.append (.refl [m])
      refused := fun hidle => by
        rw [List.length_append, List.length_append, h.refused hidle]
        exact Nat.add_right_comm ..
      signal := fun hidle hmem => by simp [h.signal hidle] at hmem
      running := h.running
      flushed := h.flushed }
  · exact {
      bytes := h.bytes
      account := h.account
      queued := h.queued.trans (List.sublist_append_left w.offered [m])
      refused := fun hidle => by
        rw [List.length_append, h.refused hidle]
        rfl
      signal := h.signal
      running := h.running
      flushed := h.flushed }

theorem encode (h : Inv enc w) {msg : Option M} (hpoint : w.point = .encoding msg) (moved : ℕ)
    (ok : Bool) : Inv enc (w.encode enc msg moved ok) where
  bytes := by
    rw [State.encode, wire_put, stream_concat, h.bytes]
  account := by
    have hhand : (w.encode enc msg moved ok).point.hand = [] := by
      cases ok <;> cases msg <;> rfl
    rw [hhand, List.append_nil]
    have haccount := h.account
    rw [hpoint] at haccount
    rw [State.encode, List.reduceOption_append, List.reduceOption_singleton]
    exact haccount
  queued := h.queued
  refused := h.refused
  signal := h.signal
  running _ := by cases ok <;> cases msg <;> exact nofun
  flushed := by cases ok <;> cases msg <;> exact nofun

/-- Bytes go from the buffer to the wire. -/
theorem moved (h : Inv enc w) {p : Point M} (hhand : p.hand = w.point.hand) (hp : p ≠ .returned)
    (n : ℕ) (hflushed : p = .waiting → (w.put [] n).buf = []) :
    Inv enc { w.put [] n with point := p } where
  bytes := by
    rw [wire_put, List.append_nil]
    exact h.bytes
  account := by
    rw [hhand]
    exact h.account
  queued := h.queued
  refused := h.refused
  signal := h.signal
  running _ := hp
  flushed := hflushed

theorem flush (h : Inv enc w) (hpoint : w.point = .flushing) (moved : ℕ) (ok : Bool) :
    Inv enc (w.flush moved ok) := by
  have hhand (p : Point M) (hp : p.hand = []) : p.hand = w.point.hand := by rw [hp, hpoint]; rfl
  unfold State.flush
  split
  case isTrue hbuf =>
    have hput : w.put [] 0 = w := by simp [State.put]
    have hwaiting := h.moved (hhand .waiting rfl) nofun 0 fun _ => by rw [hput, hbuf]
    rwa [hput] at hwaiting
  split
  case isTrue hopen =>
    refine h.moved (hhand .waiting rfl) nofun w.buf.length fun _ => ?_
    simp [State.put, hopen.2]
  · exact h.moved (hhand .failed rfl) nofun moved nofun

theorem take (h : Inv enc w) (hpoint : w.point.Receives) {m : M} {rest : List (Option M)}
    (hchan : w.writeChan = some m :: rest) :
    Inv enc { w with writeChan := rest, point := .encoding (some m) } where
  bytes := h.bytes
  account := by
    have hhand : w.point.hand = [] := by rcases hpoint with hp | hp <;> rw [hp] <;> rfl
    have haccount := h.account
    rw [hhand, hchan, List.append_nil, List.reduceOption_cons_of_some] at haccount
    rw [haccount, List.append_assoc]
    rfl
  queued := h.queued
  refused := h.refused
  signal hidle hmem := h.signal hidle (hchan ▸ List.mem_cons_of_mem _ hmem)
  running _ := nofun
  flushed := nofun

/-- The writer goes to another place with the same message in hand. -/
theorem goto (h : Inv enc w) {p : Point M} (hhand : p.hand = w.point.hand)
    (hp : w.closing = .idle → p ≠ .returned) (hflushed : p ≠ .waiting) :
    Inv enc { w with point := p } where
  bytes := h.bytes
  account := by
    rw [hhand]
    exact h.account
  queued := h.queued
  refused := h.refused
  signal := h.signal
  running := hp
  flushed hw := absurd hw hflushed

/-- **A step of the writer keeps the account.** -/
theorem moves (h : Inv enc w) {w' : State M} (hw : Moves enc w w') : Inv enc w' := by
  cases hw with
  | @takeNil rest hpoint hchan =>
    have hidle : w.closing ≠ .idle := fun hidle => h.signal hidle (hchan ▸ List.mem_cons_self)
    have hhand : w.point.hand = [] := by rcases hpoint with hp | hp <;> rw [hp] <;> rfl
    have hrest : rest.reduceOption = w.writeChan.reduceOption := by
      rw [hchan, List.reduceOption_cons_of_none]
    exact (h.goto (p := .returned) hhand.symm (absurd · hidle) nofun).closed hidle hrest _
  | take hpoint hchan => exact h.take hpoint hchan
  | tick hpoint => exact h.goto (by rw [hpoint]; rfl) (fun _ => nofun) nofun
  | encode moved ok hpoint => exact h.encode hpoint moved ok
  | drained hpoint _ => exact h.goto (by rw [hpoint]; rfl) (fun _ => nofun) nofun
  | flush moved ok hpoint => exact h.flush hpoint moved ok
  | close _ _ => exact h.close
  | exit hpoint hclosing =>
    have hidle : w.closing ≠ .idle := by rw [hclosing]; decide
    exact h.goto (by rw [hpoint]; rfl) (absurd · hidle) nofun

theorem step (h : Inv enc w) (e : Event M) : Inv enc (Writer.step enc w e) := by
  cases e with
  | offer m => exact h.offer m
  | refuse => exact h.refuse
  | close => exact h.close
  | closeNext => exact h.closeNext
  | own o =>
    show Inv enc ((w.advance enc o).getD w)
    cases hw : w.advance enc o with
    | none => exact h
    | some w' => exact h.moves (moves_of_advance hw)

theorem run (h : Inv enc w) (es : List (Event M)) : Inv enc (Runs.run (Writer.step enc) w es) :=
  Runs.invariant (C := fun _ _ => True) (fun _ e h _ => h.step e) h fun _ _ => trivial

/-- As long as nobody closes the connection, everything handed to it is put in the queue. -/
theorem queued_eq (h : Inv enc w) (hidle : w.closing = .idle) (hnone : w.refusing = 0) :
    w.queued = w.offered := by
  have hlength := h.refused hidle
  rw [hnone, Nat.add_zero] at hlength
  exact h.queued.eq_of_length hlength.symm

/-- What can be decoded from the wire are the first messages of the queue. -/
theorem received (h : Inv enc w) (henc : Unambiguous enc) {got : List (Option M)}
    (hgot : stream enc got <+: w.wire) : got.reduceOption <+: w.queued := by
  have hwire : stream enc got <+: stream enc w.encoded :=
    hgot.trans (h.bytes ▸ List.prefix_append w.wire w.buf)
  have hencoded : w.encoded.reduceOption <+: w.queued := by
    rw [h.account, List.append_assoc]
    exact List.prefix_append ..
  exact (henc _ _ hwire).reduceOption.trans hencoded

end Inv

/-! ## What the peer reads -/

/-- **The peer reads the first messages of the queue, in its order.** What the peer can decode from
the wire at any time is, without the pings, an initial part of what was put in the queue; that is
what was handed to the connection without what found the queue full; and nothing found the queue
full unless `Close` has been called or is about to be called. -/
theorem received_prefix (henc : Unambiguous enc) (es : List (Event M)) (got : List (Option M))
    (hgot : stream enc got <+: (Runs.run (step enc) .new es).wire) :
    let w := Runs.run (step enc) .new es
    got.reduceOption <+: w.queued ∧ w.queued.Sublist w.offered ∧
      (w.closing = .idle → w.refusing = 0 → w.queued = w.offered) := by
  intro w
  have hinv : Inv enc w := Inv.new.run es
  exact ⟨hinv.received henc hgot, hinv.queued, hinv.queued_eq⟩

/-- Two messages and the ping, in one byte each. -/
def code : Option Bool → UInt8
  | none => 0
  | some false => 1
  | some true => 2

theorem code_injective : Function.Injective code := by decide

/-- A message is written and flushed, then a ping, and another message is in the writer's hand. -/
def pingRun : List (Event Bool) :=
  [.offer true, .own .take, .own (.encode 0 true), .own .drained, .own (.flush 0 true),
    .own .tick, .own (.encode 1 true), .offer false, .own (.flush 0 true), .own .take]

theorem received_prefix_pingRun :
    let w := Runs.run (step fun _ m => [code m]) .new pingRun
    [true] <+: w.queued ∧ w.queued.Sublist w.offered ∧
      (w.closing = .idle → w.refusing = 0 → w.queued = w.offered) :=
  received_prefix (unambiguous_of_injective code_injective) pingRun [some true, none] ⟨[], rfl⟩

/-! ## While the connection is open -/

/-- The connection is open and its writer waits at an empty queue. -/
structure Idle (w : State M) : Prop where
  closing : w.closing = .idle
  point : w.point = .waiting
  writeChan : w.writeChan = []

/-- By its own steps the writer can come to rest, with nothing more handed to the connection. -/
def CanRest (enc : Encoder (Option M)) (w : State M) : Prop :=
  ∃ os : List Own, let w' := Runs.run (step enc) w (os.map .own)
    Idle w' ∧ w'.refusing = w.refusing ∧ w'.offered = w.offered

theorem CanRest.of_advance {w w' : State M} (h : CanRest enc w') {o : Own}
    (hw : w.advance enc o = some w') (hrefusing : w'.refusing = w.refusing)
    (hoffered : w'.offered = w.offered) : CanRest enc w := by
  obtain ⟨os, hidle, href, hoff⟩ := h
  have hstep : step enc w (.own o) = w' := by rw [step, hw, Option.getD_some]
  refine ⟨o :: os, ?_⟩
  rw [List.map_cons, run_cons, hstep]
  exact ⟨hidle, href.trans hrefusing, hoff.trans hoffered⟩

variable {w : State M}

/-- A flush of an open connection that does not fail. -/
theorem CanRest.of_flush (hidle : w.closing = .idle) (hpoint : w.point = .flushing)
    (h : ∀ w' : State M, w'.closing = .idle → w'.point = .waiting →
      w'.writeChan = w.writeChan → CanRest enc w') : CanRest enc w := by
  have hadvance : w.advance enc (.flush 0 true) = some (w.flush 0 true) := by
    simp only [State.advance, hpoint]
  have hflush : w.flush 0 true = { w with point := .waiting } ∨
      w.flush 0 true = { w.put [] w.buf.length with point := .waiting } := by
    unfold State.flush
    split
    · exact .inl rfl
    · rw [if_pos ⟨rfl, by rw [hidle]; decide⟩]
      exact .inr rfl
  have hrest : CanRest enc (w.flush 0 true) := by
    rcases hflush with heq | heq <;> rw [heq] <;> exact h _ hidle rfl rfl
  refine hrest.of_advance hadvance ?_ ?_ <;> rcases hflush with heq | heq <;> rw [heq] <;> rfl

/-- A message that is in hand is encoded without an error. -/
theorem CanRest.of_encoding {m : M} (hpoint : w.point = .encoding (some m))
    (h : ∀ w' : State M, w'.closing = w.closing → w'.point = .draining →
      w'.writeChan = w.writeChan → CanRest enc w') : CanRest enc w := by
  have hadvance : w.advance enc (.encode 0 true) = some (w.encode enc (some m) 0 true) := by
    simp only [State.advance, hpoint]
  exact (h (w.encode enc (some m) 0 true) rfl rfl rfl).of_advance hadvance rfl rfl

/-- The first message of the queue is taken and encoded. -/
theorem CanRest.of_take {m : M} {rest : List (Option M)} (hpoint : w.point.Receives)
    (hchan : w.writeChan = some m :: rest)
    (h : ∀ w' : State M, w'.closing = w.closing → w'.point = .draining →
      w'.writeChan = rest → CanRest enc w') : CanRest enc w := by
  have hadvance : w.advance enc .take =
      some { w with writeChan := rest, point := .encoding (some m) } := by
    rcases hpoint with hp | hp <;> simp only [State.advance, hp, State.take, hchan]
  have hrest : CanRest enc { w with writeChan := rest, point := .encoding (some m) } :=
    .of_encoding rfl h
  exact hrest.of_advance hadvance rfl rfl

theorem canRest_of_draining (hidle : w.closing = .idle) (hpoint : w.point = .draining)
    (hsignal : none ∉ w.writeChan) : CanRest enc w := by
  -- One message after the other, until the queue is empty.
  generalize hchan : w.writeChan = chan at hsignal
  induction chan generalizing w with
  | nil =>
    have hadvance : w.advance enc .drained = some { w with point := .flushing } := by
      simp only [State.advance, hpoint, hchan]
    have hrest : CanRest enc { w with point := .flushing } :=
      .of_flush hidle rfl fun w' hidle' hpoint' hchan' =>
        ⟨[], ⟨hidle', hpoint', hchan'.trans hchan⟩, rfl, rfl⟩
    exact hrest.of_advance hadvance rfl rfl
  | cons x rest ih =>
    cases x with
    | none => exact absurd List.mem_cons_self hsignal
    | some m =>
      exact .of_take (.inr hpoint) hchan fun w' hidle' hpoint' hchan' =>
        ih (hidle'.trans hidle) hpoint' hchan' fun hmem => hsignal (List.mem_cons_of_mem _ hmem)

theorem canRest_of_waiting (hidle : w.closing = .idle) (hpoint : w.point = .waiting)
    (hsignal : none ∉ w.writeChan) : CanRest enc w := by
  cases hchan : w.writeChan with
  | nil => exact ⟨[], ⟨hidle, hpoint, hchan⟩, rfl, rfl⟩
  | cons x rest =>
    cases x with
    | none => exact absurd (hchan ▸ List.mem_cons_self) hsignal
    | some m =>
      rw [hchan, List.mem_cons, not_or] at hsignal
      exact .of_take (.inl hpoint) hchan fun w' hidle' hpoint' hchan' =>
        canRest_of_draining (hidle'.trans hidle) hpoint' (hchan' ▸ hsignal.2)

/-- Wherever the writer of an open connection is, unless a write has failed, it can come to rest. -/
theorem Inv.canRest (h : Inv enc w) (hidle : w.closing = .idle) (hpoint : w.point ≠ .failed) :
    CanRest enc w := by
  have hsignal := h.signal hidle
  have hflushing {v : State M} (hv : v.closing = .idle) (hp : v.point = .flushing)
      (hchan : v.writeChan = w.writeChan) : CanRest enc v :=
    .of_flush hv hp fun v' hv' hp' hchan' =>
      canRest_of_waiting hv' hp' (by rwa [hchan', hchan])
  cases hp : w.point with
  | waiting => exact canRest_of_waiting hidle hp hsignal
  | encoding msg =>
    cases msg with
    | some m =>
      exact .of_encoding hp fun w' hidle' hpoint' hchan' =>
        canRest_of_draining (hidle'.trans hidle) hpoint' (hchan' ▸ hsignal)
    | none =>
      have hadvance : w.advance enc (.encode 0 true) = some (w.encode enc none 0 true) := by
        simp only [State.advance, hp]
      have hrest : CanRest enc (w.encode enc none 0 true) := hflushing hidle rfl rfl
      exact hrest.of_advance hadvance rfl rfl
  | draining => exact canRest_of_draining hidle hp hsignal
  | flushing => exact hflushing hidle hp rfl
  | failed => exact absurd hp hpoint
  | returned => exact absurd hp (h.running hidle)

/-- **Nothing is stuck in an open connection.** After any run, if nobody has called `Close` or is
about to, the writer can by its own steps bring all that was handed to the connection to the
wire, in the order in which it was handed over. -/
theorem drains (es : List (Event M)) :
    let w := Runs.run (step enc) .new es
    w.closing = .idle → w.refusing = 0 → w.point ≠ .failed →
      ∃ os : List Own, let w' := Runs.run (step enc) w (os.map .own)
        w'.wire = stream enc w'.encoded ∧ w'.encoded.reduceOption = w.offered := by
  intro w hidle hnone hpoint
  have hinv : Inv enc w := Inv.new.run es
  obtain ⟨os, hrest, hrefusing, hoffered⟩ := hinv.canRest hidle hpoint
  refine ⟨os, ?_⟩
  have hinv' := hinv.run (os.map .own)
  constructor
  · have hbytes := hinv'.bytes
    rwa [hinv'.flushed hrest.point, List.append_nil] at hbytes
  · have haccount := hinv'.account
    rw [hrest.point, hrest.writeChan, List.reduceOption_nil, List.append_nil] at haccount
    rw [← hoffered, ← hinv'.queued_eq hrest.closing (hrefusing.trans hnone), haccount]
    exact (List.append_nil _).symm

theorem drains_pingRun :
    ∃ os : List Own,
      let w' := Runs.run (step fun _ m => [code m])
        (Runs.run (step fun _ m => [code m]) .new pingRun) (os.map .own)
      w'.wire = stream (fun _ m => [code m]) w'.encoded ∧
        w'.encoded.reduceOption = [true, false] :=
  drains pingRun rfl rfl nofun

/-! ## After the socket is closed -/

/-- How many steps the writer has still to make at a closed socket, where `rest` says that the
buffer is empty. -/
def Point.left (p : Point M) (rest : Bool) : ℕ :=
  match p with
  | .returned => 0
  | .failed => 1
  | .flushing => if rest then 6 else 2
  | .draining => if rest then 7 else 3
  | .encoding _ => 4
  | .waiting => 5

def State.left (w : State M) : ℕ := 8 * w.writeChan.length + w.point.left (decide (w.buf = []))

theorem Point.left_le (p : Point M) (rest : Bool) : p.left rest ≤ 7 := by
  cases p <;> cases rest <;> simp [Point.left]

/-- **A step of the writer at a closed socket.** A message stays in the buffer, so that the next
flush fails; without a message in the buffer the flush succeeds once more. -/
theorem left_lt_of_moves (henc : ∀ ms msg, enc ms msg ≠ []) (hshut : w.closing = .shut)
    {w' : State M} (h : Moves enc w w') : w'.left < w.left ∧ w'.closing = .shut := by
  cases h with
  | takeNil hpoint hchan =>
    refine ⟨?_, hshut⟩
    simp only [State.left, hchan, List.length_cons, Point.left]
    omega
  | take hpoint hchan =>
    refine ⟨?_, hshut⟩
    simp only [State.left, hchan, List.length_cons, Point.left]
    omega
  | tick hpoint => exact ⟨by simp [State.left, hpoint, Point.left], hshut⟩
  | @encode msg moved ok hpoint =>
    refine ⟨?_, hshut⟩
    have hbuf : (w.encode enc msg moved ok).buf ≠ [] := by
      simp [State.encode, State.put, hshut, henc]
    have hlt : (w.encode enc msg moved ok).point.left false < 4 := by
      cases ok <;> cases msg <;> simp [State.encode, Point.left]
    rw [State.left, State.left, hpoint, decide_eq_false hbuf]
    exact Nat.add_lt_add_left hlt _
  | drained hpoint hchan =>
    refine ⟨?_, hshut⟩
    simp only [State.left, hpoint, Point.left]
    split <;> omega
  | flush moved ok hpoint =>
    unfold State.flush
    split
    case isTrue hbuf => exact ⟨by simp [State.left, hpoint, Point.left, hbuf], hshut⟩
    case isFalse hbuf =>
      rw [if_neg fun h => h.2 hshut]
      exact ⟨by simp [State.left, State.put, hpoint, Point.left, hbuf], hshut⟩
  | close hpoint hclosing => exact absurd hshut hclosing
  | exit hpoint _ => exact ⟨by simp [State.left, hpoint, Point.left], hshut⟩

/-- A message is handed to the connection. -/
def Event.isOffer : Event M → Bool
  | .offer _ => true
  | _ => false

/-- The writer makes a step. -/
def Event.isMove (enc : Encoder (Option M)) (w : State M) : Event M → Bool
  | .own o => (w.advance enc o).isSome
  | _ => false

theorem left_step (henc : ∀ ms msg, enc ms msg ≠ []) (hshut : w.closing = .shut) (e : Event M) :
    (step enc w e).left + (e.isMove enc w).toNat ≤ w.left + 8 * e.isOffer.toNat ∧
      (step enc w e).closing = .shut := by
  have hclose : w.close = w := by
    unfold State.close
    rw [hshut]
  cases e with
  | offer m =>
    show (w.offer m).left + 0 ≤ w.left + 8 ∧ (w.offer m).closing = .shut
    unfold State.offer
    split
    · refine ⟨?_, hshut⟩
      simp only [State.left, List.length_append, List.length_singleton]
      omega
    · exact ⟨Nat.le_add_right w.left 8, hshut⟩
  | refuse =>
    show w.refuse.left ≤ w.left ∧ w.refuse.closing = .shut
    unfold State.refuse
    rw [hclose]
    split
    · exact ⟨le_rfl, hshut⟩
    · exact ⟨le_rfl, hshut⟩
  | close =>
    show w.close.left ≤ w.left ∧ w.close.closing = .shut
    rw [hclose]
    exact ⟨le_rfl, hshut⟩
  | closeNext =>
    show w.closeNext.left ≤ w.left ∧ w.closeNext.closing = .shut
    have hnext : w.closeNext = w := by
      unfold State.closeNext
      rw [hshut]
    rw [hnext]
    exact ⟨le_rfl, hshut⟩
  | own o =>
    show ((w.advance enc o).getD w).left + (w.advance enc o).isSome.toNat ≤ w.left ∧
      ((w.advance enc o).getD w).closing = .shut
    cases hw : w.advance enc o with
    | none => exact ⟨le_rfl, hshut⟩
    | some w' => exact left_lt_of_moves henc hshut (moves_of_advance hw)

/-- Over a run, every message that is handed over gives the writer eight steps at most. -/
theorem countP_isMove_le (henc : ∀ ms msg, enc ms msg ≠ []) (hshut : w.closing = .shut)
    (es : List (Event M)) :
    (trace (step enc) w es).countP (fun x => x.2.isMove enc x.1) ≤
      w.left + 8 * es.countP Event.isOffer := by
  induction es generalizing w with
  | nil => exact Nat.zero_le _
  | cons e es ih =>
    obtain ⟨hleft, hclosing⟩ := left_step henc hshut e
    have hes := ih hclosing
    rw [trace, List.countP_cons, List.countP_cons]
    cases hmove : e.isMove enc w <;> cases hoffer : e.isOffer <;>
      simp [hmove, hoffer] at hleft ⊢ <;> omega

/-- The writer has a step to make wherever it is. -/
theorem exists_advance (hpoint : w.point ≠ .returned) : ∃ o, (w.advance enc o).isSome := by
  cases hp : w.point with
  | waiting => exact ⟨.tick, by simp [State.advance, hp]⟩
  | encoding msg => exact ⟨.encode 0 true, by simp [State.advance, hp]⟩
  | draining =>
    cases hchan : w.writeChan with
    | nil => exact ⟨.drained, by simp [State.advance, hp, hchan]⟩
    | cons x rest => exact ⟨.take, by cases x <;> simp [State.advance, State.take, hp, hchan]⟩
  | flushing => exact ⟨.flush 0 true, by simp [State.advance, hp]⟩
  | failed => exact ⟨.exit, by simp [State.advance, hp]⟩
  | returned => exact absurd hp hpoint

/-- **The writer returns.** Once the socket is closed, and whatever else happens to the connection,
the writer makes at most eight steps for every message that is in the queue or is put there, and
seven more; and it always has a step to make until it has returned. So it returns also if `Close`
found the queue full and could not put `nil` in it. -/
theorem returns (henc : ∀ ms msg, enc ms msg ≠ []) (hshut : w.closing = .shut)
    (es : List (Event M)) :
    (trace (step enc) w es).countP (fun x => x.2.isMove enc x.1) ≤
        8 * (w.writeChan.length + es.countP Event.isOffer) + 7 ∧
      ((run (step enc) w es).point ≠ .returned →
        ∃ o, ((run (step enc) w es).advance enc o).isSome) := by
  refine ⟨?_, exists_advance⟩
  have hcount := countP_isMove_le henc hshut es
  have hleft : w.left ≤ 8 * w.writeChan.length + 7 := Nat.add_le_add_left (Point.left_le _ _) _
  omega

/-- The socket is closed while the ticker fires at a queue with a message, and another message
comes in. -/
theorem returns_shut :
    let w : State Bool := ⟨[some true], .shut, .waiting, [], [], 0, [true], [true], []⟩
    let es : List (Event Bool) :=
      [.own .tick, .own (.encode 1 true), .offer false, .own (.flush 1 true), .own .exit]
    (trace (step fun _ m => [code m]) w es).countP
        (fun x => x.2.isMove (fun _ m => [code m]) x.1) ≤ 23 ∧
      ((run (step fun _ m => [code m]) w es).point ≠ .returned →
        ∃ o, ((run (step fun _ m => [code m]) w es).advance (fun _ m => [code m]) o).isSome) :=
  returns (fun _ _ => List.cons_ne_nil _ _) rfl _

/-! ## The connection of the handlers -/

/-- What the handlers do with a connection, and that its writer takes a message. -/
inductive Op
  | push (mappings : List Mapping)
  | write
  | close

/-- What the handlers put in the queue, if they do. -/
def Op.pushed : Op → Option (List Mapping)
  | .push mappings => some mappings
  | _ => none

def applyOp (sc : SafeConn) : Op → SafeConn
  | .push mappings => sc.push mappings
  | .write => sc.write
  | .close => sc.close

/-- A sender that is not overtaken looks at the flag, hands its message over, and closes the
connection if the queue is full. -/
def State.send (w : State M) (m : M) : State M :=
  if w.closing = .idle then (w.offer m).refuse else w

/-- What happens at a connection whose senders are not overtaken. -/
inductive Act (M : Type)
  | send (m : M)
  | close
  | closeNext
  | own (o : Own)

/-- What is handed to the connection, if something is. -/
def Act.sent : Act M → Option M
  | .send m => some m
  | _ => none

def act (enc : Encoder (Option M)) (w : State M) : Act M → State M
  | .send m => w.send m
  | .close => w.close
  | .closeNext => w.closeNext
  | .own o => (w.advance enc o).getD w

theorem Inv.act (h : Inv enc w) (a : Act M) : Inv enc (Writer.act enc w a) := by
  cases a with
  | send m =>
    show Inv enc (if w.closing = .idle then (w.offer m).refuse else w)
    split
    · exact (h.offer m).refuse
    · exact h
  | close => exact h.close
  | closeNext => exact h.closeNext
  | own o => exact h.step (.own o)

section

variable {mappings : M → List Mapping} {sc : SafeConn}

/-- The same connection with and without its writer: they are open together, and while they are,
the queue holds the mappings of the same messages. -/
structure Matches (mappings : M → List Mapping) (sc : SafeConn) (w : State M) : Prop where
  closed : sc.closed = true ↔ w.closing ≠ .idle
  pending : w.closing = .idle → sc.pending = w.writeChan.length
  queued : w.closing = .idle → sc.queued = w.queued.flatMap mappings
  refusing : w.refusing = 0

namespace Matches

/-- Of a closed connection nothing else is compared. -/
theorem of_closed {sc' : SafeConn} {w' : State M} (hsc : sc'.closed = true)
    (hw : w'.closing ≠ .idle) (hrefusing : w'.refusing = 0) : Matches mappings sc' w' where
  closed := iff_of_true hsc hw
  pending hidle := absurd hidle hw
  queued hidle := absurd hidle hw
  refusing := hrefusing

theorem close (h : Matches mappings sc w) : Matches mappings sc.close w.close := by
  obtain ⟨c, hc, heq⟩ := close_eq w
  rw [heq]
  exact of_closed rfl hc h.refusing

theorem closeNext (h : Matches mappings sc w) : Matches mappings sc w.closeNext := by
  unfold State.closeNext
  split
  case h_1 hclosing => exact of_closed (h.closed.2 (by rw [hclosing]; decide)) nofun h.refusing
  case h_2 hclosing => exact of_closed (h.closed.2 (by rw [hclosing]; decide)) nofun h.refusing
  · exact h

theorem send (h : Matches mappings sc w) (m : M) :
    Matches mappings (sc.push (mappings m)) (w.send m) := by
  unfold State.send SafeConn.push
  by_cases hidle : w.closing = .idle
  · have hopen : ¬ sc.closed = true := fun hclosed => h.closed.1 hclosed hidle
    rw [if_pos hidle, if_neg hopen, h.pending hidle]
    unfold State.offer
    split
    · rw [State.refuse, if_neg (by simp [h.refusing])]
      exact {
        closed := h.closed
        pending := fun _ => by rw [List.length_append, List.length_singleton]
        queued := fun _ => by simp [h.queued hidle]
        refusing := h.refusing }
    · rw [State.refuse, if_pos (Nat.succ_pos _)]
      refine of_closed rfl ?_ h.refusing
      simp [State.close, hidle]
  · rw [if_neg hidle, if_pos (h.closed.2 hidle)]
    exact h

/-- To the handlers, a step of the writer is that a message is taken, that the connection is closed,
or nothing. -/
theorem moves (h : Matches mappings sc w) {w' : State M} (hw : Moves enc w w') :
    ∃ ops, ops.filterMap Op.pushed = [] ∧ Matches mappings (run applyOp sc ops) w' := by
  have htaken {x : Option M} {rest : List (Option M)} (hchan : w.writeChan = x :: rest)
      {p : Point M} : Matches mappings sc.write { w with writeChan := rest, point := p } := {
    closed := h.closed
    pending := fun hidle => by
      rw [SafeConn.write, h.pending hidle, hchan, List.length_cons, Nat.add_sub_cancel]
    queued := h.queued
    refusing := h.refusing }
  have hsame {w' : State M} (hclosing : w'.closing = w.closing)
      (hchan : w'.writeChan = w.writeChan) (hqueued : w'.queued = w.queued)
      (hrefusing : w'.refusing = w.refusing) : Matches mappings sc w' := {
    closed := hclosing ▸ h.closed
    pending := by rw [hclosing, hchan]; exact h.pending
    queued := by rw [hclosing, hqueued]; exact h.queued
    refusing := hrefusing ▸ h.refusing }
  cases hw with
  | takeNil _ hchan => exact ⟨[.write], rfl, htaken hchan⟩
  | take _ hchan => exact ⟨[.write], rfl, htaken hchan⟩
  | close _ _ => exact ⟨[.close], rfl, h.close⟩
  | tick _ => exact ⟨[], rfl, hsame rfl rfl rfl rfl⟩
  | encode moved ok _ => exact ⟨[], rfl, hsame rfl rfl rfl rfl⟩
  | drained _ _ => exact ⟨[], rfl, hsame rfl rfl rfl rfl⟩
  | exit _ _ => exact ⟨[], rfl, hsame rfl rfl rfl rfl⟩
  | flush moved ok _ =>
    refine ⟨[], rfl, ?_⟩
    unfold State.flush
    split
    · exact hsame rfl rfl rfl rfl
    split
    · exact hsame rfl rfl rfl rfl
    · exact hsame rfl rfl rfl rfl

theorem act (h : Matches mappings sc w) (enc : Encoder (Option M)) (a : Act M) :
    ∃ ops, ops.filterMap Op.pushed = (a.sent.map mappings).toList ∧
      Matches mappings (run applyOp sc ops) (Writer.act enc w a) := by
  cases a with
  | send m => exact ⟨[.push (mappings m)], rfl, h.send m⟩
  | close => exact ⟨[.close], rfl, h.close⟩
  | closeNext => exact ⟨[], rfl, h.closeNext⟩
  | own o =>
    show ∃ ops, _ ∧ Matches mappings (run applyOp sc ops) ((w.advance enc o).getD w)
    cases hw : w.advance enc o with
    | none => exact ⟨[], rfl, h⟩
    | some w' => exact h.moves (moves_of_advance hw)

theorem run (h : Matches mappings sc w) (enc : Encoder (Option M)) (as : List (Act M)) :
    ∃ ops, ops.filterMap Op.pushed = (as.filterMap Act.sent).map mappings ∧
      Matches mappings (Runs.run applyOp sc ops) (Runs.run (Writer.act enc) w as) := by
  induction as generalizing sc w with
  | nil => exact ⟨[], rfl, h⟩
  | cons a as ih =>
    obtain ⟨ops, hpushed, hmatches⟩ := h.act enc a
    obtain ⟨ops', hpushed', hmatches'⟩ := ih hmatches
    refine ⟨ops ++ ops', ?_, ?_⟩
    · rw [List.filterMap_append, hpushed, hpushed']
      cases hsent : a.sent <;> simp [hsent]
    · rw [Runs.run, List.foldl_append]
      exact hmatches'

end Matches

end

/-- **The connection of the handlers.** A connection whose senders are not overtaken is, to the
handlers, a queue to which the mappings of the same messages were pushed: it is open as long as the
queue is, and the mappings that the peer reads while it is open are the first of the queue. -/
theorem received_queued (henc : Unambiguous enc) (mappings : M → List Mapping)
    (selfAddr localCanonical : Bytes) (peerUUID : UInt64) (isOutgoing : Bool)
    (as : List (Act M)) :
    ∃ ops : List Op, ops.filterMap Op.pushed = (as.filterMap Act.sent).map mappings ∧
      let sc := run applyOp (.new selfAddr localCanonical peerUUID isOutgoing) ops
      let w := run (act enc) .new as
      (sc.closed = true ↔ w.closing ≠ .idle) ∧
      (sc.closed = false → ∀ got, stream enc got <+: w.wire →
        got.reduceOption.flatMap mappings <+: sc.queued) := by
  have hnew : Matches mappings (.new selfAddr localCanonical peerUUID isOutgoing) .new :=
    ⟨by simp [SafeConn.new, State.new], fun _ => rfl, fun _ => rfl, rfl⟩
  obtain ⟨ops, hpushed, h⟩ := hnew.run enc as
  refine ⟨ops, hpushed, h.closed, fun hopen got hgot => ?_⟩
  have hidle : (run (act enc) .new as).closing = .idle := by
    by_contra hne
    exact absurd (h.closed.2 hne) (by simp [hopen])
  have hinv : Inv enc (run (act enc) .new as) :=
    Runs.invariant (C := fun _ _ => True) (fun _ a h _ => h.act a) Inv.new fun _ _ => trivial
  obtain ⟨rest, hrest⟩ := hinv.received henc hgot
  rw [h.queued hidle, ← hrest, List.flatMap_append]
  exact List.prefix_append ..

/-- A message with a mapping and one without are sent, and the first is written. -/
theorem received_queued_one :
    let mappings : Bool → List Mapping := fun b =>
      if b then [⟨[10, 0, 0, 1], [1, 2, 3, 4], 7⟩] else []
    let as : List (Act Bool) := [.send true, .send false, .own .take, .own (.encode 1 true)]
    ∃ ops : List Op, ops.filterMap Op.pushed = (as.filterMap Act.sent).map mappings ∧
      let sc := run applyOp (.new [] [] 1 true) ops
      let w := run (act fun _ m => [code m]) .new as
      (sc.closed = true ↔ w.closing ≠ .idle) ∧
      (sc.closed = false → ∀ got, stream (fun _ m => [code m]) got <+: w.wire →
        got.reduceOption.flatMap mappings <+: sc.queued) :=
  received_queued (unambiguous_of_injective code_injective) _ [] [] 1 true _

end Writer

end NextPath.Sync
