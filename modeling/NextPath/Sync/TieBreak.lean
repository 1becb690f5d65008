import NextPath.Sync.Connections

/-!
# The tie-break between connections to one peer

Two nodes may be connected more than once: both dial, and a node may dial again before the peer has
answered the first time. Each end registers the connections in the order in which their handshakes
end there, and keeps one of them (`shouldKeepNewConnection`). Every other one is closed, so the
nodes stay connected only if the two ends keep the same.

Of two connections that were dialled from different ends, both ends prefer the one that was dialled
by the node with the smaller UUID. Of two that were dialled from the same end, each end keeps the
one it registers last, and nothing makes that the same one.

* `favourite`: the connection that an end keeps, read off the order in which it registers them;
* `shouldKeepNewConnection_iff`: the rule, in terms of who has dialled;
* `Registered.register`, `Ready.registerAll`: one registration, and all those of an end, leave the
  favourite in the table and every other connection closed.
-/

namespace NextPath.Sync.TieBreak

open Join

/-! ## Two nodes -/

/-- The two ends of a connection. -/
inductive Side
  | first
  | second
  deriving DecidableEq

/-- The other end. -/
def Side.other : Side → Side
  | .first => .second
  | .second => .first

theorem Side.eq_other_of_ne {x y : Side} (h : y ≠ x) : y = x.other := by
  cases x <;> cases y <;> first | rfl | exact absurd rfl h

/-- Two ends are the same if they compare alike with a third. -/
theorem Side.eq_iff_iff (z : Side) {x y : Side} : (x = z ↔ y = z) ↔ x = y := by
  cases x <;> cases y <;> cases z <;> simp

@[simp] theorem Side.other_other (x : Side) : x.other.other = x := by
  cases x <;> rfl

theorem Side.other_ne (x : Side) : x.other ≠ x := by
  cases x <;> decide

/-- A connection between the two nodes: the end that dialled it, and what each end takes for its own
address on it. -/
structure Link where
  dialler : Side
  localCanonical : Side → Bytes

/-- Two nodes with different UUIDs, and the address under which each registers the other. -/
structure Pair where
  uuid : Side → UInt64
  selfAddr : Side → Bytes
  uuid_ne : uuid .first ≠ uuid .second

namespace Pair

variable (P : Pair)

/-- The end with the smaller UUID. -/
def lower : Side := if P.uuid .first < P.uuid .second then .first else .second

/-- A connection as one end has it when its handshake ends: outgoing if this end has dialled it. -/
def conn (x : Side) (l : Link) : SafeConn :=
  .new (P.selfAddr x) (l.localCanonical x) (P.uuid x.other) (decide (l.dialler = x))

@[simp] theorem conn_phase (x : Side) (l : Link) : (P.conn x l).phase = .handshake := rfl

@[simp] theorem conn_selfAddr (x : Side) (l : Link) : (P.conn x l).selfAddr = P.selfAddr x := rfl

theorem uuid_ne_other (x : Side) : P.uuid x ≠ P.uuid x.other := by
  cases x with
  | first => exact P.uuid_ne
  | second => exact P.uuid_ne.symm

theorem uuid_lt_other_iff (x : Side) : P.uuid x < P.uuid x.other ↔ x = P.lower := by
  have hne := P.uuid_ne
  unfold lower
  cases x with
  | first => by_cases h : P.uuid .first < P.uuid .second <;> simp [Side.other, h]
  | second =>
    by_cases h : P.uuid .first < P.uuid .second
    · simp [Side.other, h, h.le]
    · simp [Side.other, h, lt_of_le_of_ne (not_lt.1 h) hne.symm]

end Pair

/-! ## One decision -/

variable {P : Pair} {x : Side}

/-- **The tie-break**: a new connection takes the place of the old one if the same end has dialled
both, or if it was dialled by the end with the smaller UUID. -/
theorem shouldKeepNewConnection_iff {l l' : Link} {sc sc' : SafeConn} {addr : Bytes}
    (hpeer : sc.peerUUID = P.uuid x.other) (hpeer' : sc'.peerUUID = P.uuid x.other)
    (hout : sc.isOutgoing = decide (l.dialler = x))
    (hout' : sc'.isOutgoing = decide (l'.dialler = x)) :
    shouldKeepNewConnection (P.uuid x) sc sc' addr = true ↔
      l'.dialler = l.dialler ∨ l'.dialler = P.lower := by
  have hne := P.uuid_ne_other x
  have hlt := P.uuid_lt_other_iff x
  have hgt := P.uuid_lt_other_iff x.other
  rw [Side.other_other] at hgt
  simp only [shouldKeepNewConnection, hpeer, hpeer', hout, hout', ne_eq, not_true_eq_false,
    if_false,
    hne, decide_eq_decide, decide_eq_true_eq]
  by_cases hx : l.dialler = x <;> by_cases hx' : l'.dialler = x
  · simp [hx, hx']
  · -- the new one is incoming: the other end has dialled it
    rw [Side.eq_other_of_ne hx', hx]
    simp [Side.other_ne, gt_iff_lt, hgt]
  · rw [Side.eq_other_of_ne hx, hx']
    simp [Side.other_ne x, (Side.other_ne x).symm, hlt]
  · rw [Side.eq_other_of_ne hx, Side.eq_other_of_ne hx']
    simp

/-! ## An order of registration -/

variable (P) in
/-- The connection was dialled by the end with the smaller UUID. -/
def Preferred (links : List Link) (c : ℕ) : Bool := (links[c]?.map Link.dialler) = some P.lower

variable (P) in
/-- What remains of an order in which connections are registered: the last of those that the end
with the smaller UUID has dialled, or the last of all if it has dialled none. -/
def favourite (links : List Link) (order : List ℕ) : Option ℕ :=
  ((order.filter (Preferred P links)).getLast?).or order.getLast?

variable {links : List Link}

theorem preferred_eq {c : ℕ} {l : Link} (hl : links[c]? = some l) :
    Preferred P links c = decide (l.dialler = P.lower) := by
  simp [Preferred, hl]

@[simp] theorem favourite_nil : favourite P links [] = none := rfl

theorem favourite_mem {order : List ℕ} {k : ℕ} (h : favourite P links order = some k) :
    k ∈ order := by
  rw [favourite, Option.or_eq_some_iff] at h
  rcases h with h | ⟨-, h⟩
  · exact List.mem_of_mem_filter (List.mem_of_getLast? h)
  · exact List.mem_of_getLast? h

theorem exists_favourite (P : Pair) (links : List Link) {order : List ℕ} (h : order ≠ []) :
    ∃ k, favourite P links order = some k := by
  rw [← Option.isSome_iff_exists, favourite, Option.isSome_or, Bool.or_eq_true]
  exact .inr (by simpa using h)

/-- A further connection becomes the favourite, unless the favourite is preferred and it is not. -/
theorem favourite_append {order : List ℕ} {c k : ℕ} (hk : favourite P links order = some k) :
    favourite P links (order ++ [c]) =
      if Preferred P links c = Preferred P links k ∨ Preferred P links c = true then some c
      else some k := by
  by_cases hc : Preferred P links c = true
  · simp [favourite, List.filter_append, hc]
  · have hc' : Preferred P links c = false := by simpa using hc
    rw [favourite, List.filter_append, List.filter_cons_of_neg hc, List.filter_nil, List.append_nil]
    rw [favourite] at hk
    cases hlast : (order.filter (Preferred P links)).getLast? with
    | none =>
      -- nothing is preferred so far, so neither is the favourite
      rw [hlast, Option.none_or] at hk
      have hempty := List.getLast?_eq_none_iff.1 hlast
      have hk' : Preferred P links k = false := by
        simpa using List.filter_eq_nil_iff.1 hempty k (List.mem_of_getLast? hk)
      simp [hc', hk']
    | some m =>
      rw [hlast, Option.some_or, Option.some.injEq] at hk
      subst hk
      have hm : Preferred P links m = true :=
        (List.mem_filter.1 (List.mem_of_getLast? hlast)).2
      simp [hc', hm]

/-! ## Registration at one end -/

/-- A node whose peer is not registered yet and whose connections to it end their handshakes. -/
structure Ready (P : Pair) (links : List Link) (x : Side) (s : Node) : Prop where
  uuid : s.nodeUUID = P.uuid x
  free : s.conns.lookup (P.selfAddr x) = none
  fresh : ∀ (c : ℕ) l, links[c]? = some l → s.links[c]? = some (P.conn x l)

/-- The node after the registrations of an order. -/
def registerAll (s : Node) (order : List ℕ) : Node := order.foldl Node.register s

/-- What the node has when the connections of an order have been registered: the table has the
favourite, and of these connections only the favourite is open. -/
structure Registered (P : Pair) (links : List Link) (x : Side) (order : List ℕ) (s : Node) :
    Prop where
  uuid : s.nodeUUID = P.uuid x
  kept : s.conns.lookup (P.selfAddr x) = favourite P links order
  fresh : ∀ c l, c ∉ order → links[c]? = some l → s.links[c]? = some (P.conn x l)
  used : ∀ c l, c ∈ order → links[c]? = some l → ∃ sc, s.links[c]? = some sc ∧
    sc.peerUUID = P.uuid x.other ∧ sc.isOutgoing = decide (l.dialler = x) ∧
    (sc.closed = false ↔ favourite P links order = some c)

theorem Ready.registered {s : Node} (h : Ready P links x s) : Registered P links x [] s where
  uuid := h.uuid
  kept := h.free
  fresh c l _ hl := h.fresh c l hl
  used c l hc := by simp at hc

/-- A registration where the peer has none. -/
theorem register_of_free {s : Node} {c : ℕ} {l : Link} (hc : s.links[c]? = some (P.conn x l))
    (hfree : s.conns.lookup (P.selfAddr x) = none) :
    s.register c = s.enter c (P.conn x l) := by
  simp only [Node.register, hc, Pair.conn_phase, Pair.conn_selfAddr, hfree, Option.bind_none]

/-- A registration where the peer has one. -/
theorem register_of_taken {s : Node} {c k : ℕ} {l : Link} {sc : SafeConn}
    (hc : s.links[c]? = some (P.conn x l)) (hk : s.conns.lookup (P.selfAddr x) = some k)
    (hsc : s.links[k]? = some sc) :
    s.register c =
      if shouldKeepNewConnection s.nodeUUID sc (P.conn x l) (P.selfAddr x) then
        (s.modifyConn k SafeConn.close).enter c (P.conn x l)
      else s.modifyConn c fun sc => { sc.close with phase := .stopped } := by
  simp only [Node.register, hc, Pair.conn_phase, Pair.conn_selfAddr, hk, hsc, Option.bind_some,
    Option.map_some]
  rfl

/-- The connection is put in the table, when the others are closed. -/
theorem Registered.enter {order : List ℕ} {s : Node} {c : ℕ} (huuid : s.nodeUUID = P.uuid x)
    (hlt : c < links.length) (hc : s.links[c]? = some (P.conn x links[c]))
    (hfav : favourite P links (order ++ [c]) = some c)
    (hfresh : ∀ (c' : ℕ) l, c' ∉ order → c' ≠ c → links[c']? = some l →
      s.links[c']? = some (P.conn x l))
    (hused : ∀ (c' : ℕ) l, c' ∈ order → links[c']? = some l → ∃ sc, s.links[c']? = some sc ∧
      sc.peerUUID = P.uuid x.other ∧ sc.isOutgoing = decide (l.dialler = x) ∧ sc.closed = true) :
    Registered P links x (order ++ [c]) (s.enter c (P.conn x links[c])) where
  uuid := huuid
  kept := by simp [Node.enter, hfav]
  fresh c' l hc' hl := by
    rw [List.mem_append, List.mem_singleton, not_or] at hc'
    rw [Node.enter, List.getElem?_set_ne (Ne.symm hc'.2)]
    exact hfresh c' l hc'.1 hc'.2 hl
  used c' l hc' hl := by
    rw [hfav]
    by_cases heq : c' = c
    · subst heq
      obtain rfl : links[c'] = l := Option.some.inj ((List.getElem?_eq_getElem hlt).symm.trans hl)
      refine ⟨_, List.getElem?_set_self (List.getElem?_eq_some_iff.1 hc).1, rfl, rfl, ?_⟩
      exact iff_of_true rfl rfl
    · have hmem : c' ∈ order := by simpa [heq] using hc'
      obtain ⟨sc, hsc, hpeer, hout, hclosed⟩ := hused c' l hmem hl
      refine ⟨sc, ?_, hpeer, hout, ?_⟩
      · rw [Node.enter, List.getElem?_set_ne (Ne.symm heq), hsc]
      · simp [hclosed, Ne.symm heq]

section Taken

variable {order : List ℕ} {s : Node} (h : Registered P links x order s) {c k : ℕ}
  (hfav : favourite P links order = some k) (hnew : c ∉ order) (hlt : c < links.length)

include h hfav hnew hlt

/-- The new connection is kept, and the old one is closed. -/
theorem Registered.replace (hsnoc : favourite P links (order ++ [c]) = some c) :
    Registered P links x (order ++ [c])
      ((s.modifyConn k SafeConn.close).enter c (P.conn x links[c])) := by
  have hk := favourite_mem hfav
  have hkc : k ≠ c := fun heq => hnew (heq ▸ hk)
  have huuid : (s.modifyConn k SafeConn.close).nodeUUID = P.uuid x := h.uuid
  refine .enter huuid hlt ?_ hsnoc (fun c' l' hc' _ hl' => ?_) fun c' l' hc' hl' => ?_
  · have hc := h.fresh c _ hnew (List.getElem?_eq_getElem hlt)
    simpa [Node.modifyConn, List.getElem?_modify, hkc] using hc
  · have hkc' : k ≠ c' := fun heq => hc' (heq ▸ hk)
    simpa [Node.modifyConn, List.getElem?_modify, hkc'] using h.fresh c' l' hc' hl'
  · obtain ⟨sc', hsc', hpeer', hout', hclosed'⟩ := h.used c' l' hc' hl'
    by_cases heq : k = c'
    · refine ⟨sc'.close, ?_, hpeer', hout', rfl⟩
      simp [Node.modifyConn, heq, hsc']
    · refine ⟨sc', ?_, hpeer', hout', ?_⟩
      · simp [Node.modifyConn, heq, hsc']
      · simpa [hfav, heq] using hclosed'

/-- The old connection is kept, and the new one is closed. -/
theorem Registered.refuse (hsnoc : favourite P links (order ++ [c]) = some k) :
    Registered P links x (order ++ [c])
      (s.modifyConn c fun sc => { sc.close with phase := .stopped }) := by
  have hl : links[c]? = some links[c] := List.getElem?_eq_getElem hlt
  have hkc : k ≠ c := fun heq => hnew (heq ▸ favourite_mem hfav)
  refine ⟨h.uuid, h.kept.trans (hfav.trans hsnoc.symm), fun c' l' hc' hl' => ?_,
    fun c' l' hc' hl' => ?_⟩
  · rw [List.mem_append, List.mem_singleton, not_or] at hc'
    simpa [Node.modifyConn, List.getElem?_modify, Ne.symm hc'.2] using h.fresh c' l' hc'.1 hl'
  · rw [hsnoc]
    by_cases heq : c' = c
    · subst heq
      obtain rfl : links[c'] = l' := Option.some.inj (hl.symm.trans hl')
      refine ⟨{ (P.conn x links[c']).close with phase := .stopped }, ?_, rfl, rfl, ?_⟩
      · simp [Node.modifyConn, h.fresh c' _ hnew hl]
      · simp [SafeConn.close, hkc]
    · have hmem : c' ∈ order := by simpa [heq] using hc'
      obtain ⟨sc', hsc', hpeer', hout', hclosed'⟩ := h.used c' l' hmem hl'
      refine ⟨sc', ?_, hpeer', hout', hfav ▸ hclosed'⟩
      simp [Node.modifyConn, Ne.symm heq, hsc']

end Taken

/-- **One registration.** -/
theorem Registered.register {order : List ℕ} {s : Node} (h : Registered P links x order s)
    (hvalid : ∀ k ∈ order, k < links.length) {c : ℕ} (hnew : c ∉ order) (hlt : c < links.length) :
    Registered P links x (order ++ [c]) (s.register c) := by
  have hl : links[c]? = some links[c] := List.getElem?_eq_getElem hlt
  have hc := h.fresh c _ hnew hl
  cases hfav : favourite P links order with
  | none =>
    -- the first connection
    obtain rfl : order = [] := by
      by_contra hne
      obtain ⟨k, hk⟩ := exists_favourite P links hne
      exact absurd (hk.symm.trans hfav) (by simp)
    rw [register_of_free hc (h.kept.trans hfav)]
    refine .enter h.uuid hlt hc ?_ (fun c' l hc' _ => h.fresh c' l hc') (by simp)
    by_cases hp : Preferred P links c = true <;> simp [favourite, hp]
  | some k =>
    have hk := favourite_mem hfav
    obtain ⟨l, hlk⟩ : ∃ l, links[k]? = some l := ⟨_, List.getElem?_eq_getElem (hvalid k hk)⟩
    obtain ⟨sc, hsc, hpeer, hout, hclosed⟩ := h.used k l hk hlk
    -- the rule compares who has dialled the two, which is what makes the favourite
    have hkeep : shouldKeepNewConnection (P.uuid x) sc (P.conn x links[c]) (P.selfAddr x) = true ↔
        (Preferred P links c = Preferred P links k ∨ Preferred P links c = true) := by
      rw [shouldKeepNewConnection_iff hpeer rfl hout rfl, preferred_eq hl, preferred_eq hlk,
        decide_eq_decide, decide_eq_true_eq, Side.eq_iff_iff P.lower]
    rw [register_of_taken hc (h.kept.trans hfav) hsc, h.uuid]
    have hsnoc := favourite_append (c := c) hfav
    split_ifs with hif
    · rw [if_pos (hkeep.1 hif)] at hsnoc
      exact h.replace hfav hnew hlt hsnoc
    · rw [if_neg fun hpref => hif (hkeep.2 hpref)] at hsnoc
      exact h.refuse hfav hnew hlt hsnoc

/-- **All the registrations of an end.** -/
theorem Ready.registerAll {s : Node} (h : Ready P links x s) {order : List ℕ}
    (hnodup : order.Nodup) (hvalid : ∀ c ∈ order, c < links.length) :
    Registered P links x order (registerAll s order) := by
  induction order using List.reverseRecOn with
  | nil => exact h.registered
  | append_singleton order c ih =>
    rw [List.nodup_append] at hnodup
    have hnew : c ∉ order := fun hc => hnodup.2.2 c hc c (List.mem_singleton_self c) rfl
    have hvalid' : ∀ k ∈ order, k < links.length := fun k hk => hvalid k (by simp [hk])
    rw [TieBreak.registerAll, List.foldl_append]
    exact (ih hnodup.1 hvalid').register hvalid' hnew (hvalid c (by simp))

/-! ## Both ends -/

/-- The connection that an end keeps. -/
def keptBy (P : Pair) (x : Side) (s : Node) : Option ℕ := s.conns.lookup (P.selfAddr x)

/-- The connection is open at this end. -/
def openAt (s : Node) (c : ℕ) : Bool := s.links[c]?.any (!·.closed)

/-- Both ends keep the same connection, and it is open at both. -/
def Agreed (P : Pair) (s : Side → Node) : Prop :=
  ∃ c, ∀ x, keptBy P x (s x) = some c ∧ openAt (s x) c = true

/-- **When the tie-break agrees.** Two nodes have some connections, and each registers them in an
order of its own. They keep the same connection exactly if the two orders have the same favourite:
the last connection that the node with the smaller UUID has dialled, or the last of all if it has
dialled none. If they do not, no connection is open at both ends. -/
theorem agreed_iff (P : Pair) {links : List Link} (hlinks : links ≠ []) {s : Side → Node}
    (hs : ∀ x, Ready P links x (s x)) {order : Side → List ℕ}
    (horder : ∀ x, (order x).Perm (List.range links.length)) :
    (Agreed P (fun x => registerAll (s x) (order x)) ↔
      favourite P links (order .first) = favourite P links (order .second)) ∧
    (favourite P links (order .first) ≠ favourite P links (order .second) →
      ∀ c < links.length, ¬ ∀ x, openAt (registerAll (s x) (order x)) c = true) := by
  have hmem (x : Side) (c : ℕ) : c ∈ order x ↔ c < links.length := by
    rw [(horder x).mem_iff, List.mem_range]
  have hreg (x : Side) := (hs x).registerAll ((horder x).nodup_iff.2 List.nodup_range)
    fun c hc => (hmem x c).1 hc
  have hopen (x : Side) {c : ℕ} (hc : c < links.length) :
      openAt (registerAll (s x) (order x)) c = true ↔ favourite P links (order x) = some c := by
    obtain ⟨sc, hsc, -, -, hclosed⟩ :=
      (hreg x).used c _ ((hmem x c).2 hc) (List.getElem?_eq_getElem hc)
    rw [← hclosed, openAt, hsc, Option.any_some, Bool.not_eq_true']
  refine ⟨⟨fun ⟨c, hc⟩ => ?_, fun heq => ?_⟩, fun hne c hc hall => hne ?_⟩
  · rw [← (hreg .first).kept, ← (hreg .second).kept]
    exact (hc .first).1.trans (hc .second).1.symm
  · have hne : order .first ≠ [] := by
      intro hnil
      have hlen := (horder .first).length_eq
      rw [hnil, List.length_range, List.length_nil] at hlen
      exact hlinks (List.eq_nil_of_length_eq_zero hlen.symm)
    obtain ⟨c, hc⟩ := exists_favourite P links hne
    have hlt := (hmem .first c).1 (favourite_mem hc)
    have hboth (x : Side) : favourite P links (order x) = some c := by
      cases x with
      | first => exact hc
      | second => exact heq ▸ hc
    exact ⟨c, fun x => ⟨(hreg x).kept.trans (hboth x), (hopen x hlt).2 (hboth x)⟩⟩
  · rw [(hopen .first hc).1 (hall .first), (hopen .second hc).1 (hall .second)]

/-- A node that has nothing but its connections to the peer, which end their handshakes. -/
def readyNode (P : Pair) (links : List Link) (x : Side) : Node :=
  { Node.start (P.uuid x) ⟨none, none⟩ (Pool.newIPPoolWithConfig [] [] ⟨1, 1⟩) with
    links := links.map (P.conn x) }

theorem ready_readyNode (P : Pair) (links : List Link) (x : Side) :
    Ready P links x (readyNode P links x) where
  uuid := rfl
  free := rfl
  fresh c l hl := by simp [readyNode, hl]

/-- Two nodes with the UUIDs 1 and 2. -/
def samplePair : Pair where
  uuid := fun x => match x with | .first => 1 | .second => 2
  selfAddr := fun x => match x with
    | .first => str "192.0.2.2:5355"
    | .second => str "192.0.2.1:5355"
  uuid_ne := by decide

/-- A connection that the end has dialled. -/
def dial (x : Side) : Link := ⟨x, fun _ => []⟩

/-- One dial from each end, registered in opposite orders: the ends agree. -/
theorem agreed_crossing_dials :
    Agreed samplePair fun x => registerAll
      (readyNode samplePair [dial .first, dial .second] x)
      (match x with | .first => [0, 1] | .second => [1, 0]) :=
  (agreed_iff samplePair (by simp) (ready_readyNode samplePair _) (by
    intro x
    cases x <;> decide)).1.2 (by decide)

/-- **Two dials from one end can be lost.** The first node has dialled twice, and the connections
are registered in opposite orders: each end keeps the one that the other closes. -/
theorem both_dials_lost :
    let s : Side → Node := fun x => registerAll (readyNode samplePair [dial .first, dial .first] x)
      (match x with | .first => [0, 1] | .second => [1, 0])
    keptBy samplePair .first (s .first) = some 1 ∧ keptBy samplePair .second (s .second) = some 0 ∧
      ¬ Agreed samplePair s ∧
        ∀ c < 2, ¬ (openAt (s .first) c = true ∧ openAt (s .second) c = true) := by
  intro s
  have hfirst : keptBy samplePair .first (s .first) = some 1 := by decide +kernel
  have hsecond : keptBy samplePair .second (s .second) = some 0 := by decide +kernel
  refine ⟨hfirst, hsecond, fun ⟨c, hc⟩ => ?_, by decide +kernel⟩
  have h₁ : c = 1 := Option.some.inj ((hc .first).1.symm.trans hfirst)
  have h₀ : c = 0 := Option.some.inj ((hc .second).1.symm.trans hsecond)
  omega

end NextPath.Sync.TieBreak
