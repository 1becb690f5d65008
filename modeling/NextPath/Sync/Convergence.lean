import Mathlib.Data.Prod.Lex
import NextPath.Foundations.Contest
import NextPath.Pool.Consistency
import NextPath.Sync.Receive

/-!
# Do two nodes that receive the same mappings agree?

A pool is seen as the set of its edges (fake, real, version). The rules by which `AddMapping`
resolves conflicts make an incoming mapping compete with the edges at its fake and at its real, in
the lexicographic order of version, fake and real: `edges_receive` says that receiving a mapping is
one arrival of a contest (`Contest.deliver`). A mapping that loses, or that is thrown out, leaves
no trace, so that what an intermediate winner has beaten can come back or not, depending on the
order.

* `receive_repInv`, `edges_receive`: one mapping.
* `edges_deliverAll`: a whole delivery.
* `agree_iff_edges_eq`: two consistent pools hold the same mappings and versions when they have the
  same edges.
* `converges_of_covered`: a condition on the entries and the mappings alone.
-/

namespace NextPath.Sync

open Net Pool

/-! ## Edges -/

/-- A mapping as the pool stores it. -/
structure Edge where
  version : UInt64
  fake : IPKey
  real : IPKey
  deriving DecidableEq

namespace Edge

/-- An edge as a point of the lexicographic order. -/
def key (e : Edge) : UInt64 ×ₗ IPKey ×ₗ IPKey := toLex (e.version, toLex (e.fake, e.real))

theorem key_injective : Function.Injective key := by
  rintro ⟨v, f, r⟩ ⟨v', f', r'⟩ h
  simpa [key] using h

instance : LinearOrder Edge := LinearOrder.lift' key key_injective

theorem lt_iff (e e' : Edge) :
    e < e' ↔ e.version < e'.version ∨
      e.version = e'.version ∧ (e.fake < e'.fake ∨ e.fake = e'.fake ∧ e.real < e'.real) := by
  change e.key < e'.key ↔ _
  simp only [key, Prod.Lex.toLex_lt_toLex]

/-- Two edges conflict when they share an end. -/
def Conflict (e e' : Edge) : Prop := e.fake = e'.fake ∨ e.real = e'.real

instance (e e' : Edge) : Decidable (Conflict e e') := inferInstanceAs (Decidable (_ ∨ _))

theorem conflict_symm (e e' : Edge) (h : Conflict e e') : Conflict e' e := h.imp Eq.symm Eq.symm

end Edge

/-- The edge of a mapping. -/
def Mapping.edge (m : Mapping) : Edge := ⟨m.version, toIPKey m.fakeIP, toIPKey m.realIP⟩

/-- The edges of a pool. -/
def edges (p : IPPool) : Set Edge :=
  {e | p.realOf e.fake = some e.real ∧ p.versionOf e.fake = some e.version}

theorem mem_edges {p : IPPool} {e : Edge} :
    e ∈ edges p ↔ p.realOf e.fake = some e.real ∧ p.versionOf e.fake = some e.version := Iff.rfl

section Pool

variable {p : IPPool}

/-- A bound fake has its edge. -/
theorem exists_edge (h : RepInv p) {f r : IPKey} (hf : p.realOf f = some r) :
    ∃ v, p.versionOf f = some v ∧ (⟨v, f, r⟩ : Edge) ∈ edges p := by
  have hsome : (p.versionOf f).isSome := (h.isSome_versionOf f).2 (by rw [hf]; rfl)
  obtain ⟨v, hv⟩ := Option.isSome_iff_exists.1 hsome
  exact ⟨v, hv, hf, hv⟩

/-- The edges of a consistent pool do not conflict. -/
theorem independent_edges (h : RepInv p) : Contest.Independent Edge.Conflict (edges p) := by
  rintro ⟨v, f, r⟩ ⟨hr, hv⟩ ⟨v', f', r'⟩ ⟨hr', hv'⟩ hc
  have hf : f = f' := by
    rcases hc with hf | hr''
    · exact hf
    · obtain rfl : r = r' := hr''
      exact Option.some.inj (((h.fakeOf_iff r f).2 hr).symm.trans ((h.fakeOf_iff r f').2 hr'))
  subst hf
  obtain rfl := Option.some.inj (hr.symm.trans hr')
  obtain rfl := Option.some.inj (hv.symm.trans hv')
  rfl

/-- `AddMapping` accepts what wins the contest. -/
theorem wins_iff (h : RepInv p) (r f : IPKey) (v : UInt64) :
    Contest.Wins Edge.Conflict (edges p) ⟨v, f, r⟩ ↔
      p.losesFake r f v = false ∧ p.losesReal (p.fakeOf r) f v = false := by
  rw [p.losesFake_eq_false_iff, p.losesReal_eq_false_iff]
  have hfake {w : UInt64} {r' : IPKey} :
      (⟨w, f, r'⟩ : Edge) < ⟨v, f, r⟩ ↔ IPPool.Beats v r w r' := by
    simp [Edge.lt_iff, IPPool.Beats]
  have hreal {w : UInt64} {f' : IPKey} :
      (⟨w, f', r⟩ : Edge) < ⟨v, f, r⟩ ↔ IPPool.Beats v f w f' := by
    simp [Edge.lt_iff, IPPool.Beats]
  constructor
  · intro hw
    refine ⟨fun r' w hr' hv' => ?_, fun f' w hf' _ hv' => ?_⟩
    · exact hfake.1 (hw ⟨w, f, r'⟩ ⟨hr', hv'⟩ (.inl rfl))
    · exact hreal.1 (hw ⟨w, f', r⟩ ⟨(h.fakeOf_iff r f').1 hf', hv'⟩ (.inr rfl))
  · rintro ⟨hbeatsFake, hbeatsReal⟩ ⟨w, f', r'⟩ ⟨hr', hv'⟩ hc
    by_cases hf : f' = f
    · subst hf
      exact hfake.2 (hbeatsFake r' w hr' hv')
    · obtain rfl : r = r' := hc.resolve_left (Ne.symm hf)
      exact hreal.2 (hbeatsReal f' w ((h.fakeOf_iff r f').2 hr') hf hv')

/-- The edges after the write of an accepted mapping. -/
theorem edges_bind (h : RepInv p) (r f : IPKey) (v : UInt64) (i : Fin 64) (t : Time) :
    edges (((p.dropOldFake (p.fakeOf r) f).clearOldReal (p.oldRealToClear r f)).bind i r f v t) =
      insert ⟨v, f, r⟩ {x ∈ edges p | ¬ Edge.Conflict ⟨v, f, r⟩ x} := by
  ext ⟨v', f', r'⟩
  simp only [mem_edges, IPPool.realOf_bind, IPPool.versionOf_bind, IPPool.realOf_clearOldReal,
    IPPool.versionOf_clearOldReal, IPPool.realOf_dropOldFake, IPPool.versionOf_dropOldFake,
    Set.mem_insert_iff, Set.mem_ofPred_eq, Edge.mk.injEq, Edge.Conflict, not_or]
  by_cases hf : f' = f
  · subst hf
    simp [eq_comm, and_comm]
  · rw [if_neg hf, if_neg hf]
    by_cases hr : p.fakeOf r = some f'
    · -- the old edge of the real goes
      have hreal := (h.fakeOf_iff r f').1 hr
      simp +contextual [hf, hr, hreal]
    · have hreal : p.realOf f' = some r' → r ≠ r' := by
        rintro h' rfl
        exact hr ((h.fakeOf_iff r f').2 h')
      simp only [hr, and_false, if_false, hf, Ne.symm hf, not_false_eq_true, true_and, false_and,
        false_or]
      exact ⟨fun hx => ⟨hx, hreal hx.1⟩, fun hx => hx.1⟩

/-- **Adding a mapping is an arrival in the contest.** -/
theorem edges_addMapping (h : RepInv p) {m : Mapping} (hm : m.realIP.WellFormed) (t : Time) :
    edges (p.addMapping m.realIP m.fakeIP m.version t).1 =
      Contest.deliver Edge.Conflict (edges p) m.edge := by
  have hwins := wins_iff h (toIPKey m.realIP) (toIPKey m.fakeIP) m.version
  have hfakeOf : (p.shards (shardOf (toIPKey m.realIP))).realToFake.lookup (toIPKey m.realIP) =
      p.fakeOf (toIPKey m.realIP) := rfl
  simp only [IPPool.addMapping, getShardIndex_eq hm, hfakeOf]
  split_ifs with hfake hreal
  · refine (Contest.deliver_of_not_wins fun hw => ?_).symm
    rw [(hwins.1 hw).1] at hfake
    cases hfake
  · refine (Contest.deliver_of_not_wins fun hw => ?_).symm
    rw [(hwins.1 hw).2] at hreal
    cases hreal
  · rw [Mapping.edge, Contest.deliver_of_wins
      (hwins.2 ⟨Bool.eq_false_iff.2 hfake, Bool.eq_false_iff.2 hreal⟩)]
    exact edges_bind h _ _ _ _ t

end Pool

/-! ## Deliveries -/

section Receive

variable {nets : Subnets} {p : IPPool}

theorem receive_repInv (h : RepInv p) {m : Mapping} (hm : m.Valid nets) (t t' : Time) :
    RepInv (receive nets p m t t').1 := by
  rw [receive_of_valid hm]
  split_ifs
  · exact h
  · exact (addMapping_updates (h.tick _) hm.wellFormed_realIP _ _ _).repInv (h.tick _)

/-- **Receiving a mapping is an arrival in the contest.** The look at the version of the fake
drops only what `AddMapping` would reject. -/
theorem edges_receive (h : RepInv p) {m : Mapping} (hm : m.Valid nets) (t t' : Time) :
    edges (receive nets p m t t').1 = Contest.deliver Edge.Conflict (edges p) m.edge := by
  rw [receive_of_valid hm]
  split_ifs with hold
  · refine (Contest.deliver_of_not_wins fun hw => ?_).symm
    have hsome : (p.versionOf (toIPKey m.fakeIP)).isSome := by
      by_contra hnone
      rw [IPPool.getVersion, Option.not_isSome_iff_eq_none.1 hnone] at hold
      exact UInt64.not_lt_zero hold
    obtain ⟨v, hv⟩ := Option.isSome_iff_exists.1 hsome
    obtain ⟨r, hr⟩ := Option.isSome_iff_exists.1 ((h.isSome_versionOf _).1 hsome)
    have hlt := hw ⟨v, toIPKey m.fakeIP, r⟩ ⟨hr, hv⟩ (.inl rfl)
    rw [IPPool.getVersion, hv, Option.getD_some] at hold
    rw [Edge.lt_iff] at hlt
    rcases hlt with hlt | ⟨heq, -⟩
    · exact hlt.not_gt hold
    · exact hold.ne heq.symm
  · exact edges_addMapping (h.tick _) hm.wellFormed_realIP _

/-- A delivery of a mapping, with the two readings of the clock. -/
structure Delivery where
  mapping : Mapping
  t : Time
  t' : Time

/-- The pool after a sequence of deliveries. -/
def deliverAll (nets : Subnets) (p : IPPool) (l : List Delivery) : IPPool :=
  l.foldl (fun p d => (receive nets p d.mapping d.t d.t').1) p

/-- **A sequence of deliveries is a contest.** -/
theorem edges_deliverAll (h : RepInv p) {l : List Delivery}
    (hl : ∀ d ∈ l, d.mapping.Valid nets) :
    RepInv (deliverAll nets p l) ∧
      edges (deliverAll nets p l) =
        Contest.deliverAll Edge.Conflict Mapping.edge (edges p) (l.map (·.mapping)) := by
  induction l generalizing p with
  | nil => exact ⟨h, rfl⟩
  | cons d l ih =>
    have hd := hl d List.mem_cons_self
    obtain ⟨hinv, heq⟩ := ih (receive_repInv h hd d.t d.t')
      fun x hx => hl x (List.mem_cons_of_mem d hx)
    refine ⟨hinv, ?_⟩
    rw [List.map_cons, Contest.deliverAll_cons, ← edges_receive h hd d.t d.t']
    exact heq

end Receive

/-! ## Agreement -/

/-- The pools hold the same fake-to-real mapping and the same versions. -/
def Agree (p q : IPPool) : Prop := ∀ f, p.realOf f = q.realOf f ∧ p.versionOf f = q.versionOf f

theorem agree_iff_edges_eq {p q : IPPool} (hp : RepInv p) (hq : RepInv q) :
    Agree p q ↔ edges p = edges q := by
  constructor
  · intro h
    ext e
    rw [mem_edges, mem_edges, (h e.fake).1, (h e.fake).2]
  · intro h f
    -- each pool's entry at a fake is an edge, and so is the other's
    have hle {p q : IPPool} (hp : RepInv p) (h : edges p = edges q) (r : IPKey)
        (hr : p.realOf f = some r) : q.realOf f = some r ∧ p.versionOf f = q.versionOf f := by
      obtain ⟨v, hv, he⟩ := exists_edge hp hr
      rw [h] at he
      exact ⟨he.1, hv.trans he.2.symm⟩
    cases hr : p.realOf f with
    | some r => exact ⟨(hle hp h r hr).1.symm, (hle hp h r hr).2⟩
    | none =>
      cases hr' : q.realOf f with
      | some r => exact absurd ((hle hq h.symm r hr').1.symm.trans hr) (Option.some_ne_none r)
      | none =>
        have hnone {p : IPPool} (hp : RepInv p) (hr : p.realOf f = none) :
            p.versionOf f = none := by
          rw [← Option.not_isSome_iff_eq_none, hp.isSome_versionOf, hr]
          decide
        exact ⟨rfl, (hnone hp hr).trans (hnone hq hr').symm⟩

/-- Every mapping of the collection is delivered, and nothing else is. -/
def Delivers (M : List Mapping) (l : List Delivery) : Prop :=
  ∀ m, m ∈ M ↔ m ∈ l.map (·.mapping)

/-- All deliveries of the collection end in pools that agree. -/
def Converges (nets : Subnets) (p : IPPool) (M : List Mapping) : Prop :=
  ∀ l₁ l₂, Delivers M l₁ → Delivers M l₂ →
    Agree (deliverAll nets p l₁) (deliverAll nets p l₂)

/-- The entries of the pool and the mappings to come. -/
def contestants (p : IPPool) (M : List Mapping) : Set Edge :=
  edges p ∪ {e | ∃ m ∈ M, m.edge = e}

section Converge

variable {nets : Subnets} {p : IPPool} {M : List Mapping}

/-- A list of mappings as deliveries. -/
def deliveries (l : List Mapping) : List Delivery := l.map fun m => ⟨m, 0, 0⟩

@[simp] theorem map_mapping_deliveries (l : List Mapping) :
    (deliveries l).map (·.mapping) = l := by
  rw [deliveries, List.map_map]
  exact List.map_id l

theorem edges_deliveries (hp : RepInv p) {l : List Mapping} (hl : ∀ m ∈ l, m.Valid nets) :
    edges (deliverAll nets p (deliveries l)) =
      Contest.deliverAll Edge.Conflict Mapping.edge (edges p) l := by
  have hvalid : ∀ d ∈ deliveries l, d.mapping.Valid nets := by simpa [deliveries] using hl
  rw [(edges_deliverAll hp hvalid).2, map_mapping_deliveries]

/-- Convergence is confluence of the contest. -/
theorem converges_iff_confluent (hp : RepInv p) (hM : ∀ m ∈ M, m.Valid nets) :
    Converges nets p M ↔ Contest.Confluent Edge.Conflict Mapping.edge (edges p) M := by
  have hvalid {l : List Delivery} (hl : Delivers M l) : ∀ d ∈ l, d.mapping.Valid nets :=
    fun d hd => hM _ ((hl _).2 (List.mem_map_of_mem hd))
  constructor
  · intro h l₁ l₂ hl₁ hl₂
    have hd₁ : Delivers M (deliveries l₁) := by simpa [Delivers] using hl₁
    have hd₂ : Delivers M (deliveries l₂) := by simpa [Delivers] using hl₂
    have hagree := h _ _ hd₁ hd₂
    rwa [agree_iff_edges_eq (edges_deliverAll hp (hvalid hd₁)).1
        (edges_deliverAll hp (hvalid hd₂)).1,
      edges_deliveries hp fun m hm => hM m ((hl₁ m).2 hm),
      edges_deliveries hp fun m hm => hM m ((hl₂ m).2 hm)] at hagree
  · intro h l₁ l₂ hl₁ hl₂
    obtain ⟨hinv₁, heq₁⟩ := edges_deliverAll hp (hvalid hl₁)
    obtain ⟨hinv₂, heq₂⟩ := edges_deliverAll hp (hvalid hl₂)
    rw [agree_iff_edges_eq hinv₁ hinv₂, heq₁, heq₂]
    exact h _ _ hl₁ hl₂

/-- **A collection converges if every beaten entry or mapping is beaten by an unbeaten one**, and
only then if no entry of the pool beats a mapping, as when the pool is empty. -/
theorem converges_of_covered (hp : RepInv p) (hM : ∀ m ∈ M, m.Valid nets) :
    (Contest.Covered Edge.Conflict (contestants p M) → Converges nets p M) ∧
    ((∀ x ∈ edges p, ∀ m ∈ M, ¬ Contest.Beats Edge.Conflict x m.edge) →
      Converges nets p M → Contest.Covered Edge.Conflict (contestants p M)) := by
  rw [converges_iff_confluent hp hM]
  exact ⟨Contest.confluent_of_covered Edge.conflict_symm (independent_edges hp),
    Contest.covered_of_confluent Edge.conflict_symm (independent_edges hp)⟩

/-- **When the order of arrival does not matter.** The kernel of a pool and a collection is the
selection without conflicts that beats every other entry and mapping. All deliveries of the
collection end in pools that agree, exactly if no entry of the pool beats a member of the kernel
and in no state on the way a mapping wins that does. -/
theorem converges_iff (hp : RepInv p) (hM : ∀ m ∈ M, m.Valid nets) :
    Converges nets p M ↔
      ∃ K, Contest.IsKernel Edge.Conflict (contestants p M) K ∧
        (∀ x ∈ edges p, ∀ k ∈ K, ¬ Contest.Beats Edge.Conflict x k) ∧
        ∀ l, (∀ d ∈ l, d.mapping ∈ M) → ∀ m ∈ M,
          Contest.Wins Edge.Conflict (edges (deliverAll nets p l)) m.edge →
            ∀ k ∈ K, ¬ Contest.Beats Edge.Conflict m.edge k := by
  rw [converges_iff_confluent hp hM,
    Contest.confluent_iff Edge.conflict_symm (independent_edges hp)]
  refine exists_congr fun K => and_congr_right fun _ => ⟨fun h => ⟨h.start, ?_⟩, fun h => ⟨h.1, ?_⟩⟩
  · intro l hl m hm hw
    rw [(edges_deliverAll hp fun d hd => hM _ (hl d hd)).2] at hw
    exact h.step _ (by simpa [List.subset_def] using hl) m hm hw
  · intro l hl m hm hw
    rw [← edges_deliveries hp fun m' hm' => hM m' (hl hm')] at hw
    have hmem : ∀ m' ∈ l, m' ∈ M := fun m' hm' => hl hm'
    exact h.2 _ (by simpa [deliveries] using hmem) m hm hw

end Converge

theorem edges_new (base4 base6 : Bytes) (cfg : IPPoolConfig) :
    edges (newIPPoolWithConfig base4 base6 cfg) = ∅ := by
  ext e
  simp [edges, newIPPoolWithConfig, IPPool.realOf]

/-- Two mappings that compete for one fake: the kernel is the newer one, which nothing beats. -/
theorem converges_two :
    let p := newIPPoolWithConfig [] [] ⟨4, 4⟩
    let M : List Mapping := [⟨[198, 18, 0, 1], [1, 1, 1, 1], 1⟩, ⟨[198, 18, 0, 1], [2, 2, 2, 2], 2⟩]
    Converges (.ofPool p.toPoolRange) p M := by
  intro p M
  have hbest : ∀ m ∈ M, ¬ Contest.Beats Edge.Conflict m.edge (M.getLast (by decide)).edge := by
    intro m hm hb
    have : ∀ m ∈ M, m.edge ≤ (M.getLast (by decide)).edge := by decide +kernel
    exact hb.2.not_ge (this m hm)
  refine (converges_iff (.new _ _ _) (by decide +kernel)).2
    ⟨{(M.getLast (by decide)).edge}, ⟨?_, ?_, ?_⟩, by simp [edges_new], ?_⟩
  · rintro x rfl
    exact .inr ⟨_, List.getLast_mem _, rfl⟩
  · rintro x rfl y rfl -
    rfl
  · rintro x (hx | ⟨m, hm, rfl⟩)
    · exact absurd hx (by simp [edges_new])
    · rcases List.mem_pair.1 hm with rfl | rfl
      · exact .inr ⟨_, rfl, .inl rfl, by decide +kernel⟩
      · exact .inl rfl
  · rintro l - m hm - k rfl
    exact hbest m hm

/-- The second mapping takes the fake from the first and loses its real to the third. If it arrives
between them the first is gone; if it arrives after the third it is turned away, and the first
stays. -/
theorem not_converges_three :
    let p := newIPPoolWithConfig [] [] ⟨4, 4⟩
    let M : List Mapping := [⟨[198, 18, 0, 1], [1, 1, 1, 1], 1⟩, ⟨[198, 18, 0, 1], [2, 2, 2, 2], 2⟩,
      ⟨[198, 18, 0, 2], [2, 2, 2, 2], 3⟩]
    (∀ m ∈ M, m.Valid (.ofPool p.toPoolRange)) ∧ ¬ Converges (.ofPool p.toPoolRange) p M := by
  intro p M
  refine ⟨by decide +kernel, fun h => ?_⟩
  have hreal := (h (deliveries M) (deliveries M.reverse) (by simp [Delivers]) (by simp [Delivers])
    (toIPKey [198, 18, 0, 1])).1
  exact absurd hreal (by decide +kernel)

end NextPath.Sync
