import Mathlib.Data.List.Induction
import Mathlib.Data.List.Sort
import Mathlib.Data.Set.Finite.Lemmas
import Mathlib.Data.Set.Insert

/-!
# Contests

Entries of a linear order compete where they conflict. An entry that arrives at a set is let in
when it is greater than every member it conflicts with, and then throws those out; no trace is kept
of what was thrown out or turned away. The question is when the set that remains does not depend on
the order of arrival.

The entries have one kernel: a set without conflicts that beats everything outside it. Arrival in
descending order ends in the kernel, so that is where every order has to end.

* `Undisturbed.deliverAll_eq`: an order in which nothing is let in that beats a member of the kernel
  ends in the kernel.
* `confluent_iff`: all orders agree exactly if in none of them anything is let in that beats a
  member of the kernel.
* `confluent_of_covered`: this is so if every beaten entry is beaten by an unbeaten one.
* `deliverAll_eq_unbeaten`: then the unbeaten ones remain.
-/

namespace NextPath.Contest

variable {E : Type} [LinearOrder E] (c : E → E → Prop)

/-- The first entry conflicts with the second and is greater. -/
def Beats (x y : E) : Prop := c x y ∧ y < x

/-- The entry is greater than every member of the set it conflicts with. -/
def Wins (S : Set E) (e : E) : Prop := ∀ x ∈ S, c e x → x < e

open Classical in
/-- The set after an entry has arrived. -/
noncomputable def deliver (S : Set E) (e : E) : Set E :=
  if Wins c S e then insert e {x ∈ S | ¬ c e x} else S

/-- No two members conflict. -/
def Independent (S : Set E) : Prop := ∀ x ∈ S, ∀ y ∈ S, c x y → x = y

/-- A set of entries without conflicts, of which every other entry is beaten by a member. -/
structure IsKernel (X K : Set E) : Prop where
  subset : K ⊆ X
  independent : Independent c K
  absorbs : ∀ x ∈ X, x ∈ K ∨ ∃ k ∈ K, Beats c k x

/-- The entries that none beats. -/
def unbeaten (X : Set E) : Set E := {x ∈ X | ∀ y ∈ X, ¬ Beats c y x}

/-- Every entry is unbeaten or beaten by an unbeaten one. -/
def Covered (X : Set E) : Prop := ∀ x ∈ X, x ∈ unbeaten c X ∨ ∃ d ∈ unbeaten c X, Beats c d x

variable {c} {S X K : Set E} {e x k : E}

theorem deliver_of_wins (h : Wins c S e) : deliver c S e = insert e {x ∈ S | ¬ c e x} := by
  rw [deliver, if_pos h]

theorem deliver_of_not_wins (h : ¬ Wins c S e) : deliver c S e = S := by
  rw [deliver, if_neg h]

/-- What a member of the set beats is turned away. -/
theorem not_wins_of_beats (hsymm : ∀ x y, c x y → c y x) (hx : x ∈ S) (h : Beats c x e) :
    ¬ Wins c S e :=
  fun hw => (h.2.trans (hw x hx (hsymm _ _ h.1))).false

theorem deliver_subset (hS : S ⊆ X) (he : e ∈ X) : deliver c S e ⊆ X := by
  by_cases h : Wins c S e
  · rw [deliver_of_wins h]
    exact Set.insert_subset he fun x hx => hS hx.1
  · rwa [deliver_of_not_wins h]

theorem Independent.deliver (hsymm : ∀ x y, c x y → c y x) (hS : Independent c S) (e : E) :
    Independent c (deliver c S e) := by
  by_cases h : Wins c S e
  · rw [deliver_of_wins h]
    rintro x (rfl | hx) y (rfl | hy) hxy
    · rfl
    · exact absurd hxy hy.2
    · exact absurd (hsymm _ _ hxy) hx.2
    · exact hS x hx.1 y hy.1 hxy
  · rwa [deliver_of_not_wins h]

/-- An independent set that includes the kernel is the kernel. -/
theorem IsKernel.eq_of_subset (hK : IsKernel c X K) (hS : S ⊆ X) (hind : Independent c S)
    (h : K ⊆ S) : S = K := by
  refine Set.Subset.antisymm (fun x hx => ?_) h
  rcases hK.absorbs x (hS hx) with hxK | ⟨k, hk, hc, hlt⟩
  · exact hxK
  · exact absurd (hind k (h hk) x hx hc) hlt.ne'

/-- Where every beaten entry is beaten by an unbeaten one, the unbeaten ones are the kernel. -/
theorem Covered.isKernel (hsymm : ∀ x y, c x y → c y x) (h : Covered c X) :
    IsKernel c X (unbeaten c X) where
  subset := fun _ hx => hx.1
  independent x hx y hy hc :=
    le_antisymm (not_lt.1 fun hlt => hy.2 x hx.1 ⟨hc, hlt⟩)
      (not_lt.1 fun hlt => hx.2 y hy.1 ⟨hsymm _ _ hc, hlt⟩)
  absorbs := h

/-- Where conflict is transitive, the greatest of the entries that conflict with an entry is
unbeaten. -/
theorem covered_of_trans (hsymm : ∀ x y, c x y → c y x) (hX : X.Finite)
    (htrans : ∀ x ∈ X, ∀ y ∈ X, ∀ z ∈ X, c x y → c y z → c x z) : Covered c X := by
  intro x hx
  obtain ⟨y, ⟨hyX, hy⟩, hmax⟩ := Set.exists_max_image {y ∈ X | y = x ∨ c x y} id
    (hX.subset (Set.sep_subset _ _)) ⟨x, hx, .inl rfl⟩
  -- what beats the greatest one would be among them
  have hunbeaten : y ∈ unbeaten c X := by
    refine ⟨hyX, fun z hz hb => hb.2.not_ge (hmax z ⟨hz, .inr ?_⟩)⟩
    rcases hy with rfl | hc
    · exact hsymm _ _ hb.1
    · exact htrans x hx y hyX z hz hc (hsymm _ _ hb.1)
  rcases hy with rfl | hc
  · exact .inl hunbeaten
  · rcases (hmax x ⟨hx, .inl rfl⟩).eq_or_lt with heq | hlt
    · obtain rfl : x = y := heq
      exact .inl hunbeaten
    · exact .inr ⟨y, hunbeaten, hsymm _ _ hc, hlt⟩

/-- Entries may be missing that an unbeaten one beats. -/
theorem Covered.of_subset {Y : Set E} (h : Covered c X) (hsub : Y ⊆ X)
    (hun : unbeaten c X ⊆ Y) : Covered c Y ∧ unbeaten c Y = unbeaten c X := by
  have hkeep : unbeaten c X ⊆ unbeaten c Y := fun x hx =>
    ⟨hun hx, fun y hy => hx.2 y (hsub hy)⟩
  refine ⟨fun x hx => ?_, Set.Subset.antisymm (fun x hx => ?_) hkeep⟩
  · exact (h x (hsub hx)).imp (@hkeep x) fun ⟨d, hd, hb⟩ => ⟨d, hkeep hd, hb⟩
  · refine (h x (hsub hx.1)).resolve_right ?_
    rintro ⟨d, hd, hb⟩
    exact hx.2 d (hun hd) hb

/-! ## Arrival of many -/

variable {ι : Type} (val : ι → E)

variable (c) in
/-- The set after a list of arrivals. -/
noncomputable def deliverAll (S : Set E) (l : List ι) : Set E :=
  l.foldl (fun S m => deliver c S (val m)) S

variable (c) in
/-- No member of the set, and nothing that is ever let in, beats a member of `K`. -/
structure Undisturbed (S : Set E) (M : List ι) (K : Set E) : Prop where
  start : ∀ s ∈ S, ∀ k ∈ K, ¬ Beats c s k
  step : ∀ l ⊆ M, ∀ m ∈ M, Wins c (deliverAll c val S l) (val m) → ∀ k ∈ K, ¬ Beats c (val m) k

variable (c) in
/-- All orders in which the entries can arrive, each at least once, end in the same set. -/
def Confluent (S : Set E) (M : List ι) : Prop :=
  ∀ l₁ l₂ : List ι, (∀ m, m ∈ M ↔ m ∈ l₁) → (∀ m, m ∈ M ↔ m ∈ l₂) →
    deliverAll c val S l₁ = deliverAll c val S l₂

variable {val} {M l : List ι} {m : ι}

@[simp] theorem deliverAll_nil : deliverAll c val S [] = S := rfl

theorem deliverAll_cons :
    deliverAll c val S (m :: l) = deliverAll c val (deliver c S (val m)) l := rfl

theorem deliverAll_map_val : deliverAll c id S (l.map val) = deliverAll c val S l :=
  List.foldl_map

theorem deliverAll_append {l' : List ι} :
    deliverAll c val S (l ++ l') = deliverAll c val (deliverAll c val S l) l' :=
  List.foldl_append

theorem deliverAll_subset (hS : S ⊆ X) (hl : ∀ m ∈ l, val m ∈ X) :
    deliverAll c val S l ⊆ X := by
  induction l generalizing S with
  | nil => exact hS
  | cons m l ih =>
    exact ih (deliver_subset hS (hl m List.mem_cons_self))
      fun m' hm' => hl m' (List.mem_cons_of_mem m hm')

theorem Independent.deliverAll (hsymm : ∀ x y, c x y → c y x) (hS : Independent c S)
    (l : List ι) : Independent c (deliverAll c val S l) := by
  induction l generalizing S with
  | nil => exact hS
  | cons m l ih => exact ih (hS.deliver hsymm (val m))

/-! ## Orders that leave the kernel alone -/

/-- A member of the kernel stays, unless what is let in beats it. -/
theorem mem_deliver_of_mem (he : Wins c S e → ¬ Beats c e k) (hk : k ∈ S) :
    k ∈ deliver c S e := by
  by_cases h : Wins c S e
  · rw [deliver_of_wins h]
    exact .inr ⟨hk, fun hc => he h ⟨hc, h k hk hc⟩⟩
  · rwa [deliver_of_not_wins h]

/-- An entry that no member beats is there when it has arrived. -/
theorem mem_deliver_self (hsymm : ∀ x y, c x y → c y x) (h : ∀ x ∈ S, ¬ Beats c x e) :
    e ∈ deliver c S e := by
  by_cases hw : Wins c S e
  · rw [deliver_of_wins hw]
    exact .inl rfl
  · rw [deliver_of_not_wins hw]
    -- what keeps it out conflicts with it and is not smaller, so it is the entry itself
    simp only [Wins, not_forall, not_lt] at hw
    obtain ⟨x, hx, hc, hle⟩ := hw
    rcases hle.eq_or_lt with rfl | hlt
    · exact hx
    · exact absurd ⟨hsymm _ _ hc, hlt⟩ (h x hx)

/-- What is in the set after an arrival was there or has been let in. -/
theorem mem_of_mem_deliver (hx : x ∈ deliver c S e) : x ∈ S ∨ x = e ∧ Wins c S e := by
  by_cases h : Wins c S e
  · rw [deliver_of_wins h] at hx
    exact hx.elim (fun hx => .inr ⟨hx, h⟩) fun hx => .inl hx.1
  · rw [deliver_of_not_wins h] at hx
    exact .inl hx

/-- **What has arrived is there, or has been beaten** by something that arrived. -/
theorem mem_deliverAll_or_beaten (hsymm : ∀ x y, c x y → c y x)
    (hx : x ∈ S ∪ {e | ∃ m ∈ l, val m = e}) :
    x ∈ deliverAll c val S l ∨ ∃ y ∈ S ∪ {e | ∃ m ∈ l, val m = e}, Beats c y x := by
  induction l using List.reverseRecOn with
  | nil => exact .inl (hx.resolve_right (by simp))
  | append_singleton l m ih =>
    have hmono : S ∪ {e | ∃ m' ∈ l, val m' = e} ⊆ S ∪ {e | ∃ m' ∈ l ++ [m], val m' = e} :=
      Set.union_subset_union_right S fun e ⟨m', hm', he⟩ =>
        ⟨m', List.mem_append_left _ hm', he⟩
    have hall : deliverAll c val S l ⊆ S ∪ {e | ∃ m' ∈ l, val m' = e} :=
      deliverAll_subset (fun y hy => .inl hy) fun m' hm' => .inr ⟨m', hm', rfl⟩
    rw [deliverAll_append, deliverAll_cons, deliverAll_nil]
    by_cases hold : x ∈ S ∪ {e | ∃ m' ∈ l, val m' = e}
    · rcases ih hold with hmem | ⟨y, hy, hb⟩
      · by_cases hb : Beats c (val m) x
        · exact .inr ⟨val m, .inr ⟨m, by simp, rfl⟩, hb⟩
        · exact .inl (mem_deliver_of_mem (fun _ => hb) hmem)
      · exact .inr ⟨y, hmono hy, hb⟩
    · -- the entry arrives now
      obtain rfl : val m = x := by
        rcases hx with hx | ⟨m', hm', rfl⟩
        · exact absurd (.inl hx) hold
        · rcases List.mem_append.1 hm' with hm' | hm'
          · exact absurd (.inr ⟨m', hm', rfl⟩) hold
          · rw [List.mem_singleton.1 hm']
      by_cases hb : ∃ y ∈ deliverAll c val S l, Beats c y (val m)
      · obtain ⟨y, hy, hb⟩ := hb
        exact .inr ⟨y, hmono (hall hy), hb⟩
      · exact .inl (mem_deliver_self hsymm fun y hy hyb => hb ⟨y, hy, hyb⟩)

/-- **An order that leaves the kernel alone ends in it.** -/
theorem Undisturbed.deliverAll_eq (hsymm : ∀ x y, c x y → c y x) (hind : Independent c S)
    (hK : IsKernel c (S ∪ {e | ∃ m ∈ M, val m = e}) K) (h : Undisturbed c val S M K)
    (hl : ∀ m, m ∈ M ↔ m ∈ l) : deliverAll c val S l = K := by
  -- along the way no member of the set beats one of the kernel, and what is missing is to come
  suffices ∀ l₁ l₂, l = l₁ ++ l₂ →
      (∀ x ∈ deliverAll c val S l₁, ∀ k ∈ K, ¬ Beats c x k) ∧
      ∀ k ∈ K, k ∈ deliverAll c val S l₁ ∨ ∃ m ∈ l₂, val m = k by
    refine hK.eq_of_subset ?_ (hind.deliverAll hsymm l) fun k hk => ?_
    · exact deliverAll_subset (fun x hx => .inl hx) fun m hm => .inr ⟨m, (hl m).2 hm, rfl⟩
    · exact ((this l [] (List.append_nil l).symm).2 k hk).resolve_right (by simp)
  intro l₁
  induction l₁ using List.reverseRecOn with
  | nil =>
    rintro l₂ rfl
    refine ⟨h.start, fun k hk => (hK.subset hk).imp id ?_⟩
    rintro ⟨m, hm, rfl⟩
    exact ⟨m, (hl m).1 hm, rfl⟩
  | append_singleton l₁ m ih =>
    rintro l₂ rfl
    obtain ⟨hbeat, hmem⟩ := ih (m :: l₂) (by simp)
    have hsub : l₁ ⊆ M := fun m' hm' => (hl m').2 (by simp [hm'])
    have hin := h.step l₁ hsub m ((hl m).2 (by simp))
    rw [deliverAll_append, deliverAll_cons, deliverAll_nil]
    refine ⟨fun x hx k hk => ?_, fun k hk => ?_⟩
    · rcases mem_of_mem_deliver hx with hx | ⟨rfl, hw⟩
      · exact hbeat x hx k hk
      · exact hin hw k hk
    · rcases hmem k hk with hkS | ⟨m', hm', rfl⟩
      · exact .inl (mem_deliver_of_mem (fun hw => hin hw k hk) hkS)
      · rcases List.mem_cons.1 hm' with rfl | hm'
        · exact .inl (mem_deliver_self hsymm fun x hx => hbeat x hx _ hk)
        · exact .inr ⟨m', hm', rfl⟩

/-! ## Descending arrival -/

variable (c) in
/-- The entry remains, or a member beats it that none of those to come can throw out. -/
def Settled (S : Set E) (l : List E) (x : E) : Prop :=
  x ∈ S ∨ ∃ y ∈ S, (∀ e ∈ l, ¬ Beats c e y) ∧ Beats c y x

/-- An entry arrives that is at least those to come: what was settled stays so. -/
theorem Settled.deliver {l : List E} (hle : ∀ x ∈ l, x ≤ e) (h : Settled c S (e :: l) x) :
    Settled c (deliver c S e) l x := by
  rcases h with hx | ⟨y, hy, hset, hyx⟩
  · by_cases hw : Wins c S e ∧ c e x
    · refine .inr ⟨e, ?_, fun z hz hb => hb.2.not_ge (hle z hz), hw.2, hw.1 x hx hw.2⟩
      rw [deliver_of_wins hw.1]
      exact .inl rfl
    · exact .inl (mem_deliver_of_mem (fun hwin hb => hw ⟨hwin, hb.1⟩) hx)
  · exact .inr ⟨y, mem_deliver_of_mem (fun _ => hset e List.mem_cons_self) hy,
      fun z hz => hset z (List.mem_cons_of_mem e hz), hyx⟩

/-- An entry that is at least those to come is settled when it has arrived. -/
theorem settled_deliver_self (hsymm : ∀ x y, c x y → c y x) {l : List E} (hle : ∀ x ∈ l, x ≤ e) :
    Settled c (Contest.deliver c S e) l e := by
  by_cases h : ∃ y ∈ S, Beats c y e
  · obtain ⟨y, hy, hb⟩ := h
    rw [deliver_of_not_wins (not_wins_of_beats hsymm hy hb)]
    exact .inr ⟨y, hy, fun z hz hzy => ((hle z hz).trans_lt (hb.2.trans hzy.2)).false, hb⟩
  · exact .inl (mem_deliver_self hsymm fun y hy hb => h ⟨y, hy, hb⟩)

/-- **Descending arrival ends in the kernel**: what does not remain is beaten by what does. -/
theorem settled_deliverAll (hsymm : ∀ x y, c x y → c y x)
    (hl : l.Pairwise fun a b => val b ≤ val a) (hx : Settled c S (l.map val) x ∨ x ∈ l.map val) :
    Settled c (deliverAll c val S l) [] x := by
  induction l generalizing S with
  | nil => exact hx.resolve_right List.not_mem_nil
  | cons m l ih =>
    obtain ⟨hle, hl⟩ := List.pairwise_cons.1 hl
    have hle' : ∀ x ∈ l.map val, x ≤ val m := by simpa using hle
    refine ih hl ?_
    rcases hx with hx | hx
    · exact .inl (hx.deliver hle')
    · rcases List.mem_cons.1 hx with rfl | hx
      · exact .inl (settled_deliver_self hsymm hle')
      · exact .inr hx

theorem exists_isKernel (val : ι → E) (hsymm : ∀ x y, c x y → c y x) (hind : Independent c S)
    (M : List ι) :
    ∃ l : List ι, (∀ m, m ∈ M ↔ m ∈ l) ∧
      IsKernel c (S ∪ {e | ∃ m ∈ M, val m = e}) (deliverAll c val S l) := by
  let r (a b : ι) : Prop := val b ≤ val a
  have : Std.Total r := ⟨fun a b => le_total (val b) (val a)⟩
  have : IsTrans ι r := ⟨fun a b d hab hbd => le_trans hbd hab⟩
  have : DecidableRel r := fun a b => inferInstanceAs (Decidable (val b ≤ val a))
  have hmem (m : ι) : m ∈ M ↔ m ∈ M.insertionSort r := (List.mem_insertionSort r).symm
  refine ⟨M.insertionSort r, hmem, ?_, hind.deliverAll hsymm _, fun x hx => ?_⟩
  · exact deliverAll_subset (fun x hx => .inl hx) fun m hm => .inr ⟨m, (hmem m).2 hm, rfl⟩
  · have hsettled : Settled c (deliverAll c val S (M.insertionSort r)) [] x := by
      refine settled_deliverAll hsymm (List.pairwise_insertionSort r M) ?_
      refine hx.imp .inl ?_
      rintro ⟨m, hm, rfl⟩
      exact List.mem_map_of_mem ((hmem m).1 hm)
    exact hsettled.imp_right fun ⟨y, hy, _, hb⟩ => ⟨y, hy, hb⟩

/-! ## Confluence -/

/-- An entry that a member of the set beats can be made to miss its place: it arrives now, and the
others after it. -/
theorem exists_notMem (val : ι → E) (hsymm : ∀ x y, c x y → c y x) (hx : x ∈ S)
    (hb : Beats c x k) (hk : k ∉ S)
    (M : List ι) : ∃ l : List ι, (∀ m, m ∈ M ↔ m ∈ l) ∧ k ∉ deliverAll c val S l := by
  have hturned (l : List ι) (hl : ∀ m ∈ l, val m = k) : deliverAll c val S l = S := by
    induction l with
    | nil => rfl
    | cons m l ih =>
      rw [deliverAll_cons, hl m List.mem_cons_self,
        deliver_of_not_wins (not_wins_of_beats hsymm hx hb)]
      exact ih fun m' hm' => hl m' (List.mem_cons_of_mem m hm')
  refine ⟨M.filter (val · = k) ++ M.filter (val · ≠ k), fun m => ?_, fun hmem => ?_⟩
  · by_cases hm : val m = k <;> simp [hm]
  · rw [deliverAll_append, hturned _ (by simp)]
      at hmem
    have hsub : deliverAll c val S (M.filter (val · ≠ k)) ⊆ {y | y ≠ k} :=
      deliverAll_subset (fun y hy hyk => hk (hyk ▸ hy)) (by simp)
    exact hsub hmem rfl

/-- **When the order of arrival does not matter**: exactly if the kernel is left alone in every
order. -/
theorem confluent_iff (hsymm : ∀ x y, c x y → c y x) (hind : Independent c S) :
    Confluent c val S M ↔
      ∃ K, IsKernel c (S ∪ {e | ∃ m ∈ M, val m = e}) K ∧ Undisturbed c val S M K := by
  constructor
  · intro hconf
    obtain ⟨l₀, hl₀, hK⟩ := exists_isKernel val hsymm hind M
    refine ⟨_, hK, fun s hs k hk hb => ?_, fun l hl m hm hw k hk hb => ?_⟩
    · have hkS : k ∉ S := fun hkS => hb.2.ne (hind k hkS s hs (hsymm _ _ hb.1))
      obtain ⟨l, hl, hnot⟩ := exists_notMem val hsymm hs hb hkS M
      exact hnot (hconf l₀ l hl₀ hl ▸ hk)
    · -- the entry that wins is let in, and then the one it beats misses its place
      have hin : deliverAll c val S (l ++ [m]) =
          insert (val m) {x ∈ deliverAll c val S l | ¬ c (val m) x} := by
        rw [deliverAll_append, deliverAll_cons, deliverAll_nil, deliver_of_wins hw]
      have hmS : val m ∈ deliverAll c val S (l ++ [m]) := by
        rw [hin]
        exact .inl rfl
      have hkS : k ∉ deliverAll c val S (l ++ [m]) := by
        rw [hin]
        rintro (hkm | hkS)
        · exact hb.2.ne hkm
        · exact hkS.2 hb.1
      obtain ⟨l', hl', hnot⟩ := exists_notMem val hsymm hmS hb hkS M
      refine hnot ?_
      rw [← deliverAll_append, ← hconf l₀ _ hl₀ fun m' => ?_]
      · exact hk
      · rw [List.mem_append, List.mem_append, ← hl' m', List.mem_singleton]
        refine ⟨.inr, ?_⟩
        rintro ((hm' | rfl) | hm')
        · exact hl hm'
        · exact hm
        · exact hm'
  · rintro ⟨K, hK, h⟩ l₁ l₂ hl₁ hl₂
    rw [h.deliverAll_eq hsymm hind hK hl₁, h.deliverAll_eq hsymm hind hK hl₂]

/-- **Entries of which every beaten one is beaten by an unbeaten one** may arrive in any order. -/
theorem confluent_of_covered (hsymm : ∀ x y, c x y → c y x) (hind : Independent c S)
    (h : Covered c (S ∪ {e | ∃ m ∈ M, val m = e})) : Confluent c val S M := by
  refine (confluent_iff hsymm hind).2 ⟨_, h.isKernel hsymm, ?_, ?_⟩
  · exact fun s hs k hk => hk.2 s (.inl hs)
  · exact fun l _ m hm _ k hk => hk.2 (val m) (.inr ⟨m, hm, rfl⟩)

/-- In whatever order such entries arrive, the unbeaten ones remain. -/
theorem deliverAll_eq_unbeaten (hsymm : ∀ x y, c x y → c y x) (hind : Independent c S)
    (h : Covered c (S ∪ {e | ∃ m ∈ l, val m = e})) :
    deliverAll c val S l = unbeaten c (S ∪ {e | ∃ m ∈ l, val m = e}) := by
  refine Undisturbed.deliverAll_eq hsymm hind (h.isKernel hsymm) ⟨?_, ?_⟩ fun m => Iff.rfl
  · exact fun s hs k hk => hk.2 s (.inl hs)
  · exact fun l' _ m hm _ k hk => hk.2 (val m) (.inr ⟨m, hm, rfl⟩)

/-- When no member of the set beats an arriving entry, only those may arrive in any order. -/
theorem covered_of_confluent (hsymm : ∀ x y, c x y → c y x) (hind : Independent c S)
    (hbeat : ∀ s ∈ S, ∀ m ∈ M, ¬ Beats c s (val m)) (h : Confluent c val S M) :
    Covered c (S ∪ {e | ∃ m ∈ M, val m = e}) := by
  obtain ⟨K, hK, hund⟩ := (confluent_iff hsymm hind).1 h
  have hsub : K ⊆ unbeaten c (S ∪ {e | ∃ m ∈ M, val m = e}) := by
    refine fun k hk => ⟨hK.subset hk, ?_⟩
    rintro y (hy | ⟨m, hm, rfl⟩) hb
    · exact hund.start y hy k hk hb
    · -- the entry would be let in at once, unless it is there already
      by_cases hy : val m ∈ S
      · exact hund.start _ hy k hk hb
      · refine hund.step [] (List.nil_subset M) m hm (fun s hs hc => ?_) k hk hb
        refine lt_of_le_of_ne (not_lt.1 fun hlt => hbeat s hs m hm ⟨hsymm _ _ hc, hlt⟩) ?_
        rintro rfl
        exact hy hs
  exact fun x hx => (hK.absorbs x hx).imp (@hsub x) fun ⟨k, hk, hb⟩ => ⟨k, hsub hk, hb⟩

end NextPath.Contest
