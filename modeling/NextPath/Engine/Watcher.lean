import NextPath.Foundations.Polling
import NextPath.Foundations.Runs
import NextPath.Netlink.Deny

/-!
# The watcher of the result directory

The lists are compiled by another process, the updater, which puts the files in place and writes the
hash of their sources last. The engine loads the sets of denied addresses and reads the hashes when
it starts, and from then on looks at the times of the hash files every five seconds: when one of
them has changed it loads and reads them again. Nothing is locked, so the files may change between
any two steps of the engine.

* `Point`, `advance`: the start of the engine and `startFileWatcher`, step by step;
* `Event`, `step`: the engine among the writes of the updater;
* `Inv`: whatever the engine has copied is in place, or there is a change it has yet to see.

Once the updater is done, the engine has the files within fifteen steps (`catches_up`). This needs
that no hash is written while the engine starts: it loads the files before it first looks at the
times, and takes a hash written in between for one it has loaded (`lost_while_starting`).
-/

namespace NextPath.Engine

open Strings Polling
open Netlink (Family DenySets)

namespace Watcher

/-! ## The directory and the engine -/

/-- What goes with the time of `.hash_ips`. -/
structure IPFiles where
  deny : Family → Option Bytes
  hash : Bytes

/-- Where the engine is. -/
inductive Point
  | readV4
  | readV6 (v4 : Option Bytes)
  | load (v4 v6 : Option Bytes)
  | hashDomains
  | hashIPs (domainsHash : Bytes)
  | stat
  | statIPs (m1 : ℕ)
  | waiting
  deriving DecidableEq

structure State where
  /-- `.hash_domains`, with its time; a missing file is empty, of time zero. -/
  domains : Board Bytes
  /-- The files of denied networks and `.hash_ips`, with its time. -/
  ips : Board IPFiles
  /-- The watcher has not looked at the times yet. -/
  starting : Bool
  point : Point
  lastM1 : ℕ
  lastM2 : ℕ
  sets : DenySets
  resultHash : Bytes

variable (enableIPv6 : Bool)

/-- The two files that `ReloadDenySets` has read. -/
def denyPair (v4 v6 : Option Bytes) : Family → Option Bytes
  | .ip => v4
  | .ip6 => v6

/-- The sets after `ReloadDenySets`; they stay as they are if `nft` refuses the script. -/
def reload (files : Family → Option Bytes) (sets : DenySets) : DenySets :=
  (Netlink.load (Netlink.reloadDenySets enableIPv6 files) sets).getD sets

/-- The text that `RefreshResultHash` stores. -/
def combined (domainsHash ipsHash : Bytes) : Bytes :=
  trimSpace domainsHash ++ str ":" ++ trimSpace ipsHash

/-- A step of the engine. -/
def advance (s : State) : State :=
  match s.point with
  | .readV4 => { s with point := .readV6 (s.ips.data.deny .ip) }
  | .readV6 v4 => { s with point := .load v4 (s.ips.data.deny .ip6) }
  | .load v4 v6 =>
    { s with sets := reload enableIPv6 (denyPair v4 v6) s.sets, point := .hashDomains }
  | .hashDomains => { s with point := .hashIPs s.domains.data }
  | .hashIPs d =>
    { s with
      resultHash := combined d s.ips.data.hash
      point := if s.starting then .stat else .waiting }
  | .stat => { s with point := .statIPs s.domains.stamp }
  | .statIPs m1 =>
    if s.starting then
      { s with lastM1 := m1, lastM2 := s.ips.stamp, starting := false, point := .waiting }
    else if m1 ≠ s.lastM1 ∨ s.ips.stamp ≠ s.lastM2 then
      { s with lastM1 := m1, lastM2 := s.ips.stamp, point := .readV4 }
    else { s with point := .waiting }
  | .waiting => { s with point := .stat }

section Advance

variable {enableIPv6} {s : State}

theorem advance_readV4 (hp : s.point = .readV4) :
    advance enableIPv6 s = { s with point := .readV6 (s.ips.data.deny .ip) } := by
  simp only [advance, hp]

theorem advance_readV6 {v4 : Option Bytes} (hp : s.point = .readV6 v4) :
    advance enableIPv6 s = { s with point := .load v4 (s.ips.data.deny .ip6) } := by
  simp only [advance, hp]

theorem advance_load {v4 v6 : Option Bytes} (hp : s.point = .load v4 v6) :
    advance enableIPv6 s =
      { s with sets := reload enableIPv6 (denyPair v4 v6) s.sets, point := .hashDomains } := by
  simp only [advance, hp]

theorem advance_hashDomains (hp : s.point = .hashDomains) :
    advance enableIPv6 s = { s with point := .hashIPs s.domains.data } := by
  simp only [advance, hp]

theorem advance_hashIPs {d : Bytes} (hp : s.point = .hashIPs d) :
    advance enableIPv6 s =
      { s with
        resultHash := combined d s.ips.data.hash
        point := if s.starting then .stat else .waiting } := by
  simp only [advance, hp]

theorem advance_stat (hp : s.point = .stat) :
    advance enableIPv6 s = { s with point := .statIPs s.domains.stamp } := by
  simp only [advance, hp]

theorem advance_statIPs {m1 : ℕ} (hp : s.point = .statIPs m1) :
    advance enableIPv6 s =
      if s.starting then
        { s with lastM1 := m1, lastM2 := s.ips.stamp, starting := false, point := .waiting }
      else if m1 ≠ s.lastM1 ∨ s.ips.stamp ≠ s.lastM2 then
        { s with lastM1 := m1, lastM2 := s.ips.stamp, point := .readV4 }
      else { s with point := .waiting } := by
  simp only [advance, hp]

theorem advance_waiting (hp : s.point = .waiting) :
    advance enableIPv6 s = { s with point := .stat } := by
  simp only [advance, hp]

end Advance

/-- What happens. A hash file is emptied and then written, each with a time of its own. -/
inductive Event
  | engine
  | deny (f : Family) (content : Option Bytes)
  | hashIPs (content : Bytes) (mtime : ℕ)
  | hashDomains (content : Bytes) (mtime : ℕ)

def step (s : State) : Event → State
  | .engine => advance enableIPv6 s
  | .deny f content =>
    let files := { s.ips.data with deny := Function.update s.ips.data.deny f content }
    { s with ips := s.ips.write files }
  | .hashIPs content mtime =>
    let files := { s.ips.data with hash := content }
    { s with ips := Board.published files mtime }
  | .hashDomains content mtime => { s with domains := Board.published content mtime }

/-- The engine when it starts, in whatever state the updater and the sets are. -/
def initial (domainsHash : Bytes) (mtime : ℕ) (ips : Board IPFiles) (sets : DenySets) : State where
  domains := Board.published domainsHash mtime
  ips
  starting := true
  point := .readV4
  lastM1 := mtime
  lastM2 := ips.stamp
  sets
  resultHash := []

/-- Times of a file increase, and no hash is written while the engine starts. -/
def Orderly (s : State) : Event → Prop
  | .engine | .deny _ _ => True
  | .hashIPs _ mtime => s.starting = false ∧ s.ips.stamp < mtime
  | .hashDomains _ mtime => s.starting = false ∧ s.domains.stamp < mtime

instance (s : State) (e : Event) : Decidable (Orderly s e) :=
  match e with
  | .engine | .deny _ _ => isTrue trivial
  | .hashIPs _ mtime => inferInstanceAs (Decidable (s.starting = false ∧ s.ips.stamp < mtime))
  | .hashDomains _ mtime =>
    inferInstanceAs (Decidable (s.starting = false ∧ s.domains.stamp < mtime))

/-! ## The invariant -/

namespace State

variable (s : State)

/-- A file of denied networks that was read. -/
def FollowsDeny (f : Family) (v : Option Bytes) : Prop :=
  Follows s.ips (·.deny f) v s.lastM2

/-- The sets were loaded from files that were in place. -/
def SetsFollow : Prop :=
  ∃ v prev, s.sets = reload enableIPv6 v prev ∧ ∀ f, s.FollowsDeny f (v f)

/-- The text was put together from hashes that were in place. -/
def HashFollows : Prop :=
  ∃ d i, s.resultHash = combined d i ∧ Follows s.domains id d s.lastM1 ∧
    Follows s.ips (·.hash) i s.lastM2

/-- What is known where the engine is. -/
def Known : Prop :=
  match s.point with
  | .readV4 => True
  | .readV6 v4 => s.FollowsDeny .ip v4
  | .load v4 v6 => s.FollowsDeny .ip v4 ∧ s.FollowsDeny .ip6 v6
  | .hashDomains => s.SetsFollow enableIPv6
  | .hashIPs d => s.SetsFollow enableIPv6 ∧ Follows s.domains id d s.lastM1
  | .stat | .statIPs _ | .waiting => s.SetsFollow enableIPv6 ∧ s.HashFollows

end State

/-- The times that were seen are not ahead of the files, and are theirs while the engine starts. -/
structure Times (s : State) : Prop where
  lastM1_le : s.lastM1 ≤ s.domains.stamp
  lastM2_le : s.lastM2 ≤ s.ips.stamp
  statIPs_le : ∀ m1, s.point = .statIPs m1 → m1 ≤ s.domains.stamp
  starting : s.starting = true → s.lastM1 = s.domains.stamp ∧ s.lastM2 = s.ips.stamp ∧
    ∀ m1, s.point = .statIPs m1 → m1 = s.domains.stamp

structure Inv (s : State) : Prop where
  times : Times s
  known : s.Known enableIPv6

theorem inv_initial (domainsHash : Bytes) (mtime : ℕ) (ips : Board IPFiles) (sets : DenySets) :
    Inv enableIPv6 (initial domainsHash mtime ips sets) :=
  ⟨⟨le_rfl, le_rfl, by simp [initial], by simp [initial, Board.published]⟩, trivial⟩

variable {enableIPv6} {s : State}

/-- What is known is not lost when the updater writes. -/
theorem State.Known.of_follows {s' : State} (h : s.Known enableIPv6) (hpoint : s'.point = s.point)
    (hsets : s'.sets = s.sets) (hhash : s'.resultHash = s.resultHash)
    (hdeny : ∀ f v, s.FollowsDeny f v → s'.FollowsDeny f v)
    (hdomains : ∀ d, Follows s.domains id d s.lastM1 → Follows s'.domains id d s'.lastM1)
    (hips : ∀ i, Follows s.ips (·.hash) i s.lastM2 → Follows s'.ips (·.hash) i s'.lastM2) :
    s'.Known enableIPv6 := by
  have hsf : s.SetsFollow enableIPv6 → s'.SetsFollow enableIPv6 := by
    rintro ⟨v, prev, hv, hf⟩
    exact ⟨v, prev, hsets.trans hv, fun f => hdeny f _ (hf f)⟩
  have hhf : s.HashFollows → s'.HashFollows := by
    rintro ⟨d, i, hdi, hd, hi⟩
    exact ⟨d, i, hhash.trans hdi, hdomains d hd, hips i hi⟩
  unfold State.Known at h ⊢
  rw [hpoint]
  cases hp : s.point with
  | readV4 => trivial
  | readV6 v4 =>
    rw [hp] at h
    exact hdeny _ _ h
  | load v4 v6 =>
    rw [hp] at h
    exact ⟨hdeny _ _ h.1, hdeny _ _ h.2⟩
  | hashDomains =>
    rw [hp] at h
    exact hsf h
  | hashIPs d =>
    rw [hp] at h
    exact ⟨hsf h.1, hdomains d h.2⟩
  | stat | statIPs m1 | waiting =>
    rw [hp] at h
    exact ⟨hsf h.1, hhf h.2⟩

/-! ### Writes of the updater -/

theorem Inv.deny (h : Inv enableIPv6 s) (f : Family) (content : Option Bytes) :
    Inv enableIPv6 (step enableIPv6 s (.deny f content)) := by
  refine ⟨⟨h.times.lastM1_le, h.times.lastM2_le, h.times.statIPs_le, h.times.starting⟩, ?_⟩
  refine h.known.of_follows ?_ ?_ ?_ (fun g v _ => follows_write _) (fun d hd => hd)
    (fun i _ => follows_write _)
  all_goals rfl

theorem Inv.hashIPs (h : Inv enableIPv6 s) (content : Bytes) {mtime : ℕ}
    (hstart : s.starting = false) (hnew : s.ips.stamp < mtime) :
    Inv enableIPv6 (step enableIPv6 s (.hashIPs content mtime)) := by
  have hlt : s.lastM2 < mtime := h.times.lastM2_le.trans_lt hnew
  refine ⟨⟨h.times.lastM1_le, hlt.le, h.times.statIPs_le, fun hst => ?_⟩, ?_⟩
  · exact absurd (hstart.symm.trans hst) Bool.false_ne_true
  · refine h.known.of_follows ?_ ?_ ?_ (fun g v _ => follows_published _ hlt) (fun d hd => hd)
      (fun i _ => follows_published _ hlt)
    all_goals rfl

theorem Inv.hashDomains (h : Inv enableIPv6 s) (content : Bytes) {mtime : ℕ}
    (hstart : s.starting = false) (hnew : s.domains.stamp < mtime) :
    Inv enableIPv6 (step enableIPv6 s (.hashDomains content mtime)) := by
  have hlt : s.lastM1 < mtime := h.times.lastM1_le.trans_lt hnew
  refine ⟨⟨hlt.le, h.times.lastM2_le, fun m1 hm1 => ?_, fun hst => ?_⟩, ?_⟩
  · exact (h.times.statIPs_le m1 hm1).trans hnew.le
  · exact absurd (hstart.symm.trans hst) Bool.false_ne_true
  · refine h.known.of_follows ?_ ?_ ?_ (fun g v hv => hv) (fun d _ => follows_published _ hlt)
      (fun i hi => hi)
    all_goals rfl

/-! ### Steps of the engine -/

/-- A step that looks at no times. -/
theorem Times.move (h : Times s) {s' : State} (hdomains : s'.domains = s.domains)
    (hips : s'.ips = s.ips) (hstart : s'.starting = s.starting) (hlast1 : s'.lastM1 = s.lastM1)
    (hlast2 : s'.lastM2 = s.lastM2)
    (hpoint : ∀ m1, s'.point = .statIPs m1 → m1 = s.domains.stamp) : Times s' := by
  refine ⟨?_, ?_, fun m1 hm1 => ?_, fun hst => ?_⟩
  · rw [hlast1, hdomains]
    exact h.lastM1_le
  · rw [hlast2, hips]
    exact h.lastM2_le
  · rw [hdomains]
    exact (hpoint m1 hm1).le
  · obtain ⟨h1, h2, -⟩ := h.starting (hstart ▸ hst)
    rw [hlast1, hlast2, hdomains, hips]
    exact ⟨h1, h2, hpoint⟩

/-- The watcher looks at the times. -/
theorem Times.look (h : Times s) {m1 : ℕ} (hp : s.point = .statIPs m1) {s' : State}
    (hdomains : s'.domains = s.domains) (hips : s'.ips = s.ips) (hstart : s'.starting = false)
    (hlast1 : s'.lastM1 = m1) (hlast2 : s'.lastM2 = s.ips.stamp)
    (hpoint : ∀ m, s'.point ≠ .statIPs m) : Times s' := by
  refine ⟨?_, ?_, fun m hm => absurd hm (hpoint m), fun hst => ?_⟩
  · rw [hlast1, hdomains]
    exact h.statIPs_le m1 hp
  · rw [hlast2, hips]
  · exact absurd (hstart.symm.trans hst) Bool.false_ne_true

/-- A step of the engine: what it reads is in place, and what it has read stays known. -/
theorem Inv.engine (h : Inv enableIPv6 s) : Inv enableIPv6 (step enableIPv6 s .engine) := by
  obtain ⟨htimes, hknown⟩ := h
  change Inv enableIPv6 (advance enableIPv6 s)
  unfold State.Known at hknown
  cases hp : s.point with
  | readV4 =>
    have hread : s.FollowsDeny .ip (s.ips.data.deny .ip) := follows_copy _ _ _
    rw [advance_readV4 hp]
    exact ⟨htimes.move rfl rfl rfl rfl rfl (by simp), hread⟩
  | readV6 v4 =>
    rw [hp] at hknown
    rw [advance_readV6 hp]
    exact ⟨htimes.move rfl rfl rfl rfl rfl (by simp), hknown, follows_copy _ _ _⟩
  | load v4 v6 =>
    rw [hp] at hknown
    rw [advance_load hp]
    refine ⟨htimes.move rfl rfl rfl rfl rfl (by simp), denyPair v4 v6, s.sets, rfl, ?_⟩
    rintro (_ | _)
    · exact hknown.1
    · exact hknown.2
  | hashDomains =>
    rw [hp] at hknown
    rw [advance_hashDomains hp]
    exact ⟨htimes.move rfl rfl rfl rfl rfl (by simp), hknown, follows_copy _ _ _⟩
  | hashIPs d =>
    rw [hp] at hknown
    rw [advance_hashIPs hp]
    have hhash : Follows s.ips (·.hash) s.ips.data.hash s.lastM2 := follows_copy _ _ _
    cases hst : s.starting with
    | true =>
      exact ⟨htimes.move rfl rfl hst.symm rfl rfl (by simp), hknown.1, d, _, rfl, hknown.2, hhash⟩
    | false =>
      exact ⟨htimes.move rfl rfl hst.symm rfl rfl (by simp), hknown.1, d, _, rfl, hknown.2, hhash⟩
  | stat =>
    rw [hp] at hknown
    rw [advance_stat hp]
    refine ⟨htimes.move rfl rfl rfl rfl rfl fun m1 hm1 => ?_, hknown⟩
    exact (Point.statIPs.inj hm1).symm
  | statIPs m1 =>
    rw [hp] at hknown
    rw [advance_statIPs hp]
    split_ifs with hst hchanged
    · -- The first look: the times are still those that were there when the engine started.
      obtain ⟨h1, h2, h3⟩ := htimes.starting hst
      have hm1 : m1 = s.lastM1 := (h3 m1 hp).trans h1.symm
      subst hm1
      rw [← h2]
      exact ⟨htimes.look hp rfl rfl rfl rfl h2 (by simp), hknown⟩
    · exact ⟨htimes.look hp rfl rfl (by simpa using hst) rfl rfl (by simp), trivial⟩
    · exact ⟨htimes.move rfl rfl rfl rfl rfl (by simp), hknown⟩
  | waiting =>
    rw [hp] at hknown
    rw [advance_waiting hp]
    exact ⟨htimes.move rfl rfl rfl rfl rfl (by simp), hknown⟩

/-- **The engine follows the directory** in every run. -/
theorem inv_run {es : List Event} {s : State} (h : Inv enableIPv6 s)
    (hes : Runs.Along (step enableIPv6) Orderly s es) :
    Inv enableIPv6 (Runs.run (step enableIPv6) s es) := by
  refine Runs.invariant (fun t e ht he => ?_) h hes
  cases e with
  | engine => exact ht.engine
  | deny f content => exact ht.deny f content
  | hashIPs content mtime => exact ht.hashIPs content he.1 he.2
  | hashDomains content mtime => exact ht.hashDomains content he.1 he.2

/-! ## Catching up -/

/-- The engine has seen the times of the files, and has nothing left to do. -/
def Quiet (s : State) : Prop :=
  s.starting = false ∧ s.lastM1 = s.domains.stamp ∧ s.lastM2 = s.ips.stamp ∧
    (s.point = .waiting ∨ s.point = .stat ∨ s.point = .statIPs s.domains.stamp)

theorem Quiet.advance (h : Quiet s) : Quiet (advance enableIPv6 s) := by
  obtain ⟨hst, h1, h2, hp | hp | hp⟩ := h
  · rw [advance_waiting hp]
    exact ⟨hst, h1, h2, .inr (.inl rfl)⟩
  · rw [advance_stat hp]
    exact ⟨hst, h1, h2, .inr (.inr rfl)⟩
  · rw [advance_statIPs hp, if_neg (by simp [hst]), if_neg (by simp [h1, h2])]
    exact ⟨hst, h1, h2, .inl rfl⟩

/-- The steps to the end of a pass over the files. -/
def Point.left : Point → ℕ
  | .readV4 => 5
  | .readV6 _ => 4
  | .load _ _ => 3
  | .hashDomains => 2
  | .hashIPs _ => 1
  | _ => 0

/-- The times that were seen are those of the files. -/
def Seen (s : State) : Prop := s.lastM1 = s.domains.stamp ∧ s.lastM2 = s.ips.stamp

instance (s : State) : Decidable (Seen s) := inferInstanceAs (Decidable (_ ∧ _))

/-- How far the engine is from being quiet: a pass, a look at the times, and another pass if they
were not seen in the first one. -/
def rank (s : State) : ℕ :=
  match s.point with
  | .waiting => 8
  | .stat => 7
  | .statIPs m1 => if m1 = s.domains.stamp then 6 else 14
  | p => p.left + if s.starting = false ∧ Seen s then 0 else 8

theorem rank_le (s : State) : rank s ≤ 14 := by
  unfold rank
  split
  · omega
  · omega
  · split_ifs <;> omega
  · have hleft : s.point.left ≤ 5 := by cases s.point <;> simp [Point.left]
    split_ifs <;> omega

/-- In a pass, the rank is what is left of it, and another pass if that is needed. -/
theorem rank_of_left {p : Point} (hp : s.point = p) (hleft : 0 < p.left) :
    rank s = p.left + if s.starting = false ∧ Seen s then 0 else 8 := by
  subst hp
  unfold rank
  cases hp : s.point <;> simp [hp, Point.left] at hleft ⊢

/-- A step of a pass but the last. -/
theorem rank_lt_of_left {s' : State} (hleft : 0 < s'.point.left)
    (hlt : s'.point.left < s.point.left) (hstart : s'.starting = s.starting)
    (hseen : Seen s' ↔ Seen s) : rank s' < rank s := by
  rw [rank_of_left rfl hleft, rank_of_left rfl (hleft.trans hlt)]
  simp only [hstart, hseen]
  omega

/-- Every step leads closer to rest, or there. -/
theorem rank_advance (s : State) (h : ¬ Quiet s) :
    Quiet (advance enableIPv6 s) ∨ rank (advance enableIPv6 s) < rank s := by
  cases hp : s.point with
  | readV4 =>
    rw [advance_readV4 hp]
    exact .inr (rank_lt_of_left (by simp [Point.left]) (by simp [hp, Point.left]) rfl Iff.rfl)
  | readV6 v4 =>
    rw [advance_readV6 hp]
    exact .inr (rank_lt_of_left (by simp [Point.left]) (by simp [hp, Point.left]) rfl Iff.rfl)
  | load v4 v6 =>
    rw [advance_load hp]
    exact .inr (rank_lt_of_left (by simp [Point.left]) (by simp [hp, Point.left]) rfl Iff.rfl)
  | hashDomains =>
    rw [advance_hashDomains hp]
    exact .inr (rank_lt_of_left (by simp [Point.left]) (by simp [hp, Point.left]) rfl Iff.rfl)
  | hashIPs d =>
    rw [advance_hashIPs hp]
    have hrank := rank_of_left hp (by simp [Point.left])
    cases hst : s.starting with
    | true =>
      refine .inr ?_
      rw [hrank]
      simp [rank, Point.left, hst]
    | false =>
      by_cases hseen : Seen s
      · exact .inl ⟨rfl, hseen.1, hseen.2, .inl rfl⟩
      · refine .inr ?_
        rw [hrank]
        simp [rank, Point.left, hseen]
  | stat =>
    rw [advance_stat hp]
    exact .inr (by simp [rank, hp])
  | statIPs m1 =>
    rw [advance_statIPs hp]
    have hrank : rank s = if m1 = s.domains.stamp then 6 else 14 := by simp [rank, hp]
    split_ifs with hst hchanged
    · by_cases hm1 : m1 = s.domains.stamp
      · exact .inl ⟨rfl, hm1, rfl, .inl rfl⟩
      · refine .inr ?_
        rw [hrank, if_neg hm1]
        simp [rank]
    · refine .inr ?_
      rw [hrank, rank_of_left rfl (by simp [Point.left])]
      by_cases hm1 : m1 = s.domains.stamp <;> simp [Point.left, Seen, hm1, hst]
    · -- Nothing has changed; then the first time was looked at too early, or all is quiet.
      simp only [ne_eq, not_or, not_not] at hchanged
      by_cases hm1 : m1 = s.domains.stamp
      · refine absurd ⟨by simpa using hst, ?_, hchanged.2.symm, .inr (.inr (hm1 ▸ hp))⟩ h
        exact hchanged.1.symm.trans hm1
      · refine .inr ?_
        rw [hrank, if_neg hm1]
        simp [rank]
  | waiting =>
    rw [advance_waiting hp]
    exact .inr (by simp [rank, hp])

/-! ## What the engine ends up with -/

@[simp] theorem advance_domains (s : State) : (advance enableIPv6 s).domains = s.domains := by
  unfold advance
  split <;> first | rfl | split_ifs <;> rfl

@[simp] theorem advance_ips (s : State) : (advance enableIPv6 s).ips = s.ips := by
  unfold advance
  split <;> first | rfl | split_ifs <;> rfl

/-- The engine has what is in the directory. -/
structure UpToDate (enableIPv6 : Bool) (s : State) : Prop where
  sets : ∃ prev, s.sets = reload enableIPv6 s.ips.data.deny prev
  hash : s.resultHash = combined s.domains.data s.ips.data.hash

theorem Inv.upToDate (h : Inv enableIPv6 s) (hquiet : Quiet s) (hips : s.ips.pending = false)
    (hdomains : s.domains.pending = false) : UpToDate enableIPv6 s := by
  obtain ⟨-, hlast1, hlast2, hpoint⟩ := hquiet
  have hknown : s.SetsFollow enableIPv6 ∧ s.HashFollows := by
    have := h.known
    unfold State.Known at this
    rcases hpoint with hp | hp | hp <;> rwa [hp] at this
  obtain ⟨⟨v, prev, hsets, hv⟩, d, i, hhash, hd, hi⟩ := hknown
  constructor
  · have hfiles : v = s.ips.data.deny := by
      funext f
      exact (hv f).eq hips hlast2
    exact ⟨prev, hfiles ▸ hsets⟩
  · rw [hhash, hd.eq hdomains hlast1, hi.eq hips hlast2]
    rfl

/-- Networks that have been put in place are in the sets. -/
theorem UpToDate.sets_eq (h : UpToDate enableIPv6 s) {nets : Family → List Parser.Prefix}
    (hnets : ∀ f, Netlink.Loadable f (nets f))
    (hfiles : ∀ f, s.ips.data.deny f = some (Parser.ipText (nets f))) {f : Family}
    (hf : f ∈ Netlink.familiesOf enableIPv6) : s.sets f = nets f := by
  obtain ⟨prev, hsets⟩ := h.sets
  rw [hsets, reload, funext hfiles, Netlink.load_reloadDenySets hnets, Option.getD_some, if_pos hf]

theorem pending_domains_run {s : State} (h : s.domains.pending = false) (es : List Event) :
    (Runs.run (step enableIPv6) s es).domains.pending = false := by
  induction es generalizing s with
  | nil => exact h
  | cons e es ih =>
    rw [Runs.run_cons]
    apply ih
    cases e with
    | engine =>
      change (advance enableIPv6 s).domains.pending = false
      rwa [advance_domains]
    | deny f content => exact h
    | hashIPs content mtime => exact h
    | hashDomains content mtime => rfl

/-- **The engine catches up.** Whatever the updater does while the engine runs, in whatever order:
once the hash is written after the files, and no more is written, fifteen steps of the engine later
and from then on the kernel has the denied networks that are in place, and the fingerprint that
peers are told is that of the hashes that are in place. -/
theorem catches_up (domainsHash : Bytes) (mtime : ℕ) (ips : Board IPFiles) (sets : DenySets)
    {es : List Event}
    (hes : Runs.Along (step enableIPv6) Orderly (initial domainsHash mtime ips sets) es)
    (hdone : (Runs.run (step enableIPv6) (initial domainsHash mtime ips sets) es).ips.pending =
      false) {n : ℕ} (hn : 15 ≤ n) :
    let s := Runs.run (step enableIPv6) (initial domainsHash mtime ips sets) es
    let s' := (advance enableIPv6)^[n] s
    s'.ips = s.ips ∧ s'.domains = s.domains ∧ UpToDate enableIPv6 s' ∧
      ∀ nets : Family → List Parser.Prefix, (∀ f, Netlink.Loadable f (nets f)) →
        (∀ f, s.ips.data.deny f = some (Parser.ipText (nets f))) →
        ∀ f ∈ Netlink.familiesOf enableIPv6, s'.sets f = nets f := by
  intro s s'
  have hinv : Inv enableIPv6 s' :=
    Function.Iterate.rec (Inv enableIPv6) (inv_run (inv_initial _ _ _ _ _) hes)
      (fun t ht => ht.engine) n
  have hquiet : Quiet s' :=
    iterate_of_rank (fun t ht => ht.advance) rank_advance ((rank_le s).trans_lt hn)
  have hips : s'.ips = s.ips :=
    Function.Iterate.rec (fun t => t.ips = s.ips) rfl (fun t ht => (advance_ips t).trans ht) n
  have hdomains : s'.domains = s.domains :=
    Function.Iterate.rec (fun t => t.domains = s.domains) rfl
      (fun t ht => (advance_domains t).trans ht) n
  have hup : UpToDate enableIPv6 s' := by
    apply hinv.upToDate hquiet
    · rw [hips]
      exact hdone
    · rw [hdomains]
      exact pending_domains_run rfl es
  refine ⟨hips, hdomains, hup, fun nets hnets hfiles f hf => ?_⟩
  exact hup.sets_eq hnets (fun g => hips ▸ hfiles g) hf

/-- A directory without lists. -/
def emptyFiles : Board IPFiles := Board.published ⟨fun _ => none, []⟩ 0

/-- The networks of a first list. -/
def firstNets : Family → List Parser.Prefix
  | .ip => [⟨[10, 1, 2, 0], 24⟩]
  | .ip6 => []

/-- The list is put in place. -/
def firstList : List Event :=
  [.deny .ip (some (str "10.1.2.0/24\n")), .deny .ip6 (some []), .hashIPs [] 7,
    .hashIPs (str "5f") 8]

theorem loadable_firstNets (f : Family) : Netlink.Loadable f (firstNets f) := by
  cases f with
  | ip => exact ⟨by decide, by decide, List.pairwise_singleton _ _⟩
  | ip6 => exact ⟨by decide, by decide, List.Pairwise.nil⟩

/-- The list arrives while the engine is in the middle of a look at the times. -/
theorem catches_up_firstList :
    ((advance true)^[15] (Runs.run (step true) (initial [] 0 emptyFiles fun _ => [])
      (List.replicate 9 .engine ++ firstList))).sets .ip = [⟨[10, 1, 2, 0], 24⟩] := by
  refine (catches_up [] 0 emptyFiles (fun _ => []) (by decide +kernel) (by decide +kernel)
    le_rfl).2.2.2 firstNets loadable_firstNets ?_ .ip (by decide)
  rintro (_ | _) <;> decide +kernel

/-! ## The start -/

/-- The engine has loaded the sets, and has not looked at the times yet. -/
def Loaded (s : State) : Prop :=
  s.starting = true ∧ (s.point = .hashDomains ∨ (∃ d, s.point = .hashIPs d) ∨ s.point = .stat)

/-- From then on the engine only looks, and is at rest when it has looked. -/
theorem sets_iterate (h : Loaded s ∨ s.starting = true ∧ s.point = .statIPs s.domains.stamp ∨
    Quiet s) (n : ℕ) : ((advance enableIPv6)^[n] s).sets = s.sets := by
  induction n generalizing s with
  | zero => rfl
  | succ n ih =>
    rw [Function.iterate_succ_apply]
    rcases h with ⟨hst, hp | ⟨d, hp⟩ | hp⟩ | ⟨hst, hp⟩ | hquiet
    · rw [advance_hashDomains hp]
      exact ih (.inl ⟨hst, .inr (.inl ⟨_, rfl⟩)⟩)
    · rw [advance_hashIPs hp]
      exact ih (.inl ⟨hst, .inr (.inr (if_pos hst))⟩)
    · rw [advance_stat hp]
      exact ih (.inr (.inl ⟨hst, rfl⟩))
    · rw [advance_statIPs hp, if_pos hst]
      exact ih (.inr (.inr ⟨rfl, rfl, rfl, .inl rfl⟩))
    · have hsets : (advance enableIPv6 s).sets = s.sets := by
        obtain ⟨hst, h1, h2, hp | hp | hp⟩ := hquiet
        · rw [advance_waiting hp]
        · rw [advance_stat hp]
        · rw [advance_statIPs hp, if_neg (by simp [hst]), if_neg (by simp [h1, h2])]
      rw [ih (.inr (.inr hquiet.advance)), hsets]

theorem Loaded.write (h : Loaded s) {e : Event} (he : e ≠ .engine) :
    Loaded (step enableIPv6 s e) ∧ (step enableIPv6 s e).sets = s.sets := by
  cases e with
  | engine => exact absurd rfl he
  | deny f content => exact ⟨h, rfl⟩
  | hashIPs content mtime => exact ⟨h, rfl⟩
  | hashDomains content mtime => exact ⟨h, rfl⟩

/-- **What is compiled while the engine starts is not loaded.** After the engine has loaded the sets
and before it first looks at the times, the updater may put any files and hashes in place: however
long the engine runs then, the sets stay as they are until another hash is written. -/
theorem lost_while_starting {s : State} (h : Loaded s) {us : List Event}
    (hus : ∀ e ∈ us, e ≠ .engine) (n : ℕ) :
    ((advance enableIPv6)^[n] (Runs.run (step enableIPv6) s us)).sets = s.sets := by
  have hloaded : Loaded (Runs.run (step enableIPv6) s us) ∧
      (Runs.run (step enableIPv6) s us).sets = s.sets := by
    induction us generalizing s with
    | nil => exact ⟨h, rfl⟩
    | cons e us ih =>
      have hstep : Loaded (step enableIPv6 s e) ∧ (step enableIPv6 s e).sets = s.sets :=
        h.write (hus e List.mem_cons_self)
      have hrest := ih hstep.1 fun e' he' => hus e' (List.mem_cons_of_mem e he')
      exact ⟨hrest.1, hrest.2.trans hstep.2⟩
  rw [sets_iterate (.inl hloaded.1), hloaded.2]

theorem lost_while_starting_firstList :
    ((advance true)^[1000] (Runs.run (step true)
      (Runs.run (step true) (initial [] 0 emptyFiles fun _ => []) (List.replicate 3 .engine))
      firstList)).sets .ip = [] := by
  rw [lost_while_starting ⟨by decide +kernel, .inl (by decide +kernel)⟩ (by simp [firstList])]
  decide +kernel

end Watcher

end NextPath.Engine
