import NextPath.Parser.Disk

/-!
# The state hash

`CompileLists` skips the lists of a type when `getStateHash` returns what it returned before. The
hash is of the name, the size and the modification time of the files that name and path patterns
select, and of the settings; the content of a file is taken to have changed only if its size or its
time has (`Consistent`). A state is the files together with what the URLs answer (`State`), since a
file that is not cached is fetched while the lists are read.

* `getStateHash_eq_iff`: the hashes are equal if the same is written of the hashed files;
* `unchanged_of_hashedAlike`: if the same files are hashed, then none of them has changed;
* `same_iff_carried`: a list is the same in two states exactly if the entries of the files that may
  have changed are in the list of the other state;
* `exists_missed`: a file that is read and not hashed can be changed without the hash noticing. The
  downloads of `deny-ips` are such files: the pattern of the address lists does not name them.
-/

namespace NextPath.Parser

open Strings Net

/-! ## The hash -/

/-- The types of list that are hashed apart. -/
inductive FileType
  | ips
  | domains
  deriving DecidableEq

/-- The pattern of the address lists. -/
def isIPsFile (path : Bytes) : Bool :=
  contains (base path) (str "-ips.txt") || contains path (str "/include-ips/") ||
    contains path (str "/exclude-ips/")

/-- The files that `getStateHash` selects. -/
def selects (ty : FileType) (path : Bytes) : Bool :=
  hasSuffix (base path) (str ".txt") &&
    match ty with
    | .ips => isIPsFile path
    | .domains => !isIPsFile path

variable (sys : System) (cfg : CompileConfig)

/-- The files that are hashed, in the order of their paths. -/
def hashedFiles (d : Disk) (ty : FileType) : List Bytes :=
  (([cfg.sourcesDir, cfg.manualDir, cfg.cacheDir].flatMap d.walk).filter (selects ty)).insertionSort
    (· ≤ ·)

/-- The size and the time of a file, as they are written. -/
def File.stat (f : File) : Bytes := numeral 10 f.content.length ++ chr ':' :: decimal f.modTime

/-- What is hashed of the files. -/
def statStream (d : Disk) (files : List Bytes) : Bytes :=
  files.flatMap fun path => base path ++ ((d.lookup path).map File.stat).getD []

/-- `%v` of a truth value. -/
def boolText (b : Bool) : Bytes := if b then str "true" else str "false"

/-- What is hashed of the settings. -/
def settings : Bytes :=
  str "ROUTE_ALL=" ++ boolText cfg.routeAll ++ str "FILTER_CASINO=" ++ boolText cfg.filterCasino ++
    str "LIMIT=" ++ decimal cfg.limit ++ str "BLOCK_ADS=" ++ boolText cfg.blockAds ++
    str "ENABLE_IPV6=" ++ boolText cfg.enableIPv6 ++
    [str "IPV6_PROXY_ONLY", str "NEXTPATH_DNS_IP", str "FAKE_IP", str "FAKE_IP6"].flatMap fun v =>
      v ++ str "=" ++ sys.getenv v

/-- `getStateHash`. -/
def getStateHash (d : Disk) (ty : FileType) : Bytes :=
  hexString (sys.sha256 (statStream d (hashedFiles cfg d ty) ++ settings sys cfg))

/-- A file whose content differs differs in its size or its modification time. -/
def Consistent (d d' : Disk) : Prop :=
  ∀ e ∈ d.entries, ∀ e' ∈ d'.entries, e.1 = e'.1 →
    e.2.content.length = e'.2.content.length → e.2.modTime = e'.2.modTime →
      e.2.content = e'.2.content

instance (d d' : Disk) : Decidable (Consistent d d') :=
  inferInstanceAs (Decidable (∀ e ∈ d.entries, _))

/-- The files, and what the network answers while the lists are read. -/
structure State where
  disk : Disk
  get : Bytes → Option Bytes
  now : ℤ

/-- The system in a state. -/
def System.inState (sys : System) (s : State) : System := { sys with get := s.get, now := s.now }

/-- The same is written of the hashed files. -/
def HashedAlike (d d' : Disk) (ty : FileType) : Prop :=
  statStream d (hashedFiles cfg d ty) = statStream d' (hashedFiles cfg d' ty)

/-- The size and the time of a file, if it is there. -/
def Disk.stat? (d : Disk) (p : Bytes) : Option (ℕ × ℤ) :=
  (d.lookup p).map fun f => (f.content.length, f.modTime)

/-- A file that is there with the same size and the same time. -/
def Unchanged (d d' : Disk) (p : Bytes) : Prop := p ∈ d ∧ d.stat? p = d'.stat? p

/-- The entries of a file of a list, once what is not cached has been fetched. -/
def State.entries {α : Type} (s : State) (parse : Bytes → List α) (name p : Bytes) : List α :=
  parse ((fetched (sys.inState s) cfg s.disk name).read p)

/-- Every entry of a file of the list that may have changed, or that is not a file of the list any
more, is an entry of some file of the list in the second state. -/
def Carried {α : Type} (parse : Bytes → List α) (name : Bytes) (s s' : State) : Prop :=
  ∀ p ∈ listFiles sys cfg s.disk name,
    (p ∈ listFiles sys cfg s'.disk name → ¬ Unchanged s.disk s'.disk p) →
      ∀ x ∈ s.entries sys cfg parse name p,
        ∃ p' ∈ listFiles sys cfg s'.disk name, x ∈ s'.entries sys cfg parse name p'

instance (d d' : Disk) (ty : FileType) : Decidable (HashedAlike cfg d d' ty) :=
  inferInstanceAs (Decidable (_ = _))

instance (d d' : Disk) (p : Bytes) : Decidable (Unchanged d d' p) :=
  inferInstanceAs (Decidable (_ ∧ _))

instance {α : Type} [DecidableEq α] (parse : Bytes → List α) (name : Bytes) (s s' : State) :
    Decidable (Carried sys cfg parse name s s') :=
  inferInstanceAs (Decidable (∀ p ∈ listFiles sys cfg s.disk name, _))

/-! ## What equal hashes say -/

variable {sys cfg}

theorem hexString_injective : Function.Injective hexString := by
  intro a
  induction a with
  | nil =>
    intro b h
    cases b with
    | nil => rfl
    | cons y b => simp [hexString] at h
  | cons x a ih =>
    intro b h
    cases b with
    | nil => simp [hexString] at h
    | cons y b =>
      simp only [hexString, List.flatMap_cons, List.cons_append, List.nil_append,
        List.cons.injEq] at h
      obtain ⟨hhi, hlo, hrest⟩ := h
      have hx := x.toNat_lt
      have hy := y.toNat_lt
      have hdigit {m n : ℕ} (hm : m < 16) (hn : n < 16) (he : digitChar m = digitChar n) :
          m = n := by
        have hv := digitVal_digitChar (b := 16) le_rfl hm
        rw [he, digitVal_digitChar (b := 16) le_rfl hn] at hv
        exact (Option.some.inj hv).symm
      have h₁ := hdigit (by omega) (by omega) hhi
      have h₂ := hdigit (Nat.mod_lt _ (by omega)) (Nat.mod_lt _ (by omega)) hlo
      have hxy : x = y := UInt8.toNat_inj.1 (by omega)
      rw [hxy, ih hrest]

theorem File.stat_append_inj {f f' : File} {r r' : Bytes}
    (hr : leadingDigits r = leadingDigits r') (h : f.stat ++ r = f'.stat ++ r') :
    (f.content.length = f'.content.length ∧ f.modTime = f'.modTime) ∧ r = r' := by
  simp only [File.stat, List.append_assoc, List.cons_append] at h
  have hcolon (s : Bytes) : leadingDigits (chr ':' :: s) = 0 := by
    simp [leadingDigits, show isDigit (chr ':') = false from rfl]
  obtain ⟨hsize, htime⟩ := numeral_append_inj (by rw [hcolon, hcolon]) h
  obtain ⟨htime, hrest⟩ := decimal_append_inj hr (List.cons.inj htime).2
  exact ⟨⟨hsize, htime⟩, hrest⟩

theorem exists_not_digit_of_selects {ty : FileType} {path : Bytes} (h : selects ty path = true) :
    ∃ c ∈ base path, isDigit c = false := by
  simp only [selects, Bool.and_eq_true, hasSuffix_iff] at h
  exact ⟨chr '.', h.1.subset (by decide), by decide⟩

theorem leadingDigits_statStream (d d' : Disk) {files : List Bytes}
    (h : ∀ p ∈ files, ∃ c ∈ base p, isDigit c = false) :
    leadingDigits (statStream d files) = leadingDigits (statStream d' files) := by
  cases files with
  | nil => rfl
  | cons p files =>
    have hp := h p List.mem_cons_self
    simp only [statStream, List.flatMap_cons, List.append_assoc, leadingDigits_append hp]

/-- **The stream determines the sizes and the times of the files it is made from.** -/
theorem unchanged_of_stream_eq {d d' : Disk} {files : List Bytes}
    (hbase : ∀ p ∈ files, ∃ c ∈ base p, isDigit c = false) (hd : ∀ p ∈ files, p ∈ d)
    (hd' : ∀ p ∈ files, p ∈ d') (h : statStream d files = statStream d' files) :
    ∀ p ∈ files, Unchanged d d' p := by
  induction files with
  | nil => simp
  | cons p files ih =>
    rw [List.forall_mem_cons] at hbase hd hd'
    obtain ⟨f, hf⟩ := Option.isSome_iff_exists.1 (AList.lookup_isSome.2 hd.1)
    obtain ⟨f', hf'⟩ := Option.isSome_iff_exists.1 (AList.lookup_isSome.2 hd'.1)
    simp only [statStream, List.flatMap_cons, hf, hf', Option.map_some, Option.getD_some,
      List.append_assoc, List.append_cancel_left_eq] at h
    obtain ⟨⟨hsize, htime⟩, hrest⟩ :=
      File.stat_append_inj (leadingDigits_statStream d d' hbase.2) h
    rw [List.forall_mem_cons]
    refine ⟨⟨hd.1, ?_⟩, ih hbase.2 hd.2 hd'.2 hrest⟩
    simp only [Disk.stat?, hf, hf', Option.map_some, hsize, htime]

theorem mem_of_mem_walk {d : Disk} {root p : Bytes} (h : p ∈ d.walk root) : p ∈ d := by
  unfold Disk.walk at h
  split_ifs at h with h₁ h₂
  · simp at h
  · rw [List.mem_singleton.1 h]
    exact h₂
  · exact AList.mem_keys.2 (List.mem_of_mem_filter h)

theorem mem_hashedFiles {d : Disk} {ty : FileType} {p : Bytes} (h : p ∈ hashedFiles cfg d ty) :
    selects ty p = true ∧ p ∈ d := by
  rw [hashedFiles, List.mem_insertionSort, List.mem_filter, List.mem_flatMap] at h
  obtain ⟨⟨root, -, hp⟩, hsel⟩ := h
  exact ⟨hsel, mem_of_mem_walk hp⟩

/-- **If the same files are hashed alike, none of them has changed.** -/
theorem unchanged_of_hashedAlike {d d' : Disk} {ty : FileType}
    (hfiles : hashedFiles cfg d ty = hashedFiles cfg d' ty) (h : HashedAlike cfg d d' ty) :
    ∀ p ∈ hashedFiles cfg d ty, Unchanged d d' p := by
  rw [HashedAlike, ← hfiles] at h
  exact unchanged_of_stream_eq (fun p hp => exists_not_digit_of_selects (mem_hashedFiles hp).1)
    (fun p hp => (mem_hashedFiles hp).2) (fun p hp => (mem_hashedFiles (hfiles ▸ hp)).2) h

theorem getStateHash_eq_iff (hsha : Function.Injective sys.sha256) {d d' : Disk} {ty : FileType} :
    getStateHash sys cfg d ty = getStateHash sys cfg d' ty ↔ HashedAlike cfg d d' ty := by
  rw [getStateHash, getStateHash, hexString_injective.eq_iff, hsha.eq_iff,
    List.append_cancel_right_eq, HashedAlike]

/-! ## When a list is the same -/

theorem Unchanged.symm {d d' : Disk} {p : Bytes} (h : Unchanged d d' p) : Unchanged d' d p := by
  obtain ⟨hp, hstat⟩ := h
  refine ⟨?_, hstat.symm⟩
  rw [← AList.lookup_isSome] at hp ⊢
  simpa [Disk.stat?, hp] using (congrArg Option.isSome hstat).symm

theorem Consistent.symm {d d' : Disk} (h : Consistent d d') : Consistent d' d :=
  fun e' he' e he hpath hsize htime => (h e he e' he' hpath.symm hsize.symm htime.symm).symm

/-- An unchanged file holds the same. -/
theorem Unchanged.exists_content {d d' : Disk} {p : Bytes} (h : Unchanged d d' p)
    (hcons : Consistent d d') : ∃ c, d.content? p = some c ∧ d'.content? p = some c := by
  obtain ⟨f, hf⟩ := Option.isSome_iff_exists.1 (AList.lookup_isSome.2 h.1)
  obtain ⟨f', hf'⟩ := Option.isSome_iff_exists.1 (AList.lookup_isSome.2 h.symm.1)
  have hstat := h.2
  simp only [Disk.stat?, hf, hf', Option.map_some, Option.some.injEq, Prod.mk.injEq] at hstat
  have hcontent : f.content = f'.content := hcons ⟨p, f⟩ (AList.mem_lookup_iff.1 hf) ⟨p, f'⟩
    (AList.mem_lookup_iff.1 hf') rfl hstat.1 hstat.2
  exact ⟨f.content, by rw [Disk.content?, hf, Option.map_some],
    by rw [Disk.content?, hf', Option.map_some, hcontent]⟩

section Same

variable {α : Type} {parse : Bytes → List α} {name : Bytes} {s s' : State}

/-- A file that is there is not fetched. -/
theorem State.entries_of_content {p c : Bytes} (h : s.disk.content? p = some c) :
    s.entries sys cfg parse name p = parse c := by
  rw [State.entries, fetched, Disk.read, content?_readCached_of_some _ h, Option.getD_some]

/-- Where the entries of changed files are carried over, all entries are. -/
theorem Carried.exists_mem (hcons : Consistent s.disk s'.disk)
    (h : Carried sys cfg parse name s s') {x : α}
    (hx : ∃ p ∈ listFiles sys cfg s.disk name, x ∈ s.entries sys cfg parse name p) :
    ∃ p ∈ listFiles sys cfg s'.disk name, x ∈ s'.entries sys cfg parse name p := by
  obtain ⟨p, hp, hx⟩ := hx
  by_cases hseen : p ∈ listFiles sys cfg s'.disk name ∧ Unchanged s.disk s'.disk p
  · obtain ⟨c, hc, hc'⟩ := hseen.2.exists_content hcons
    rw [State.entries_of_content hc] at hx
    exact ⟨p, hseen.1, by rwa [State.entries_of_content hc']⟩
  · exact h p hp (fun hp' hun => hseen ⟨hp', hun⟩) x hx

/-- **A list has the same entries in two states exactly if those of its changed files are carried
over, in both directions.** -/
theorem same_iff_carried (hcons : Consistent s.disk s'.disk) :
    (∀ x, (∃ p ∈ listFiles sys cfg s.disk name, x ∈ s.entries sys cfg parse name p) ↔
        ∃ p ∈ listFiles sys cfg s'.disk name, x ∈ s'.entries sys cfg parse name p) ↔
      Carried sys cfg parse name s s' ∧ Carried sys cfg parse name s' s := by
  constructor
  · intro h
    exact ⟨fun p hp _ x hx => (h x).1 ⟨p, hp, hx⟩, fun p hp _ x hx => (h x).2 ⟨p, hp, hx⟩⟩
  · rintro ⟨h, h'⟩ x
    exact ⟨h.exists_mem hcons, h'.exists_mem hcons.symm⟩

end Same

/-! ## Files that are read and not hashed -/

theorem walk_insert_perm {d : Disk} {p : Bytes} (hp : p ∈ d) (f : File) (root : Bytes) :
    (Disk.walk (d.insert p f) root).Perm (d.walk root) := by
  have hmem (q : Bytes) : q ∈ d.insert p f ↔ q ∈ d := by
    rw [AList.mem_insert, or_iff_right_iff_imp]
    rintro rfl
    exact hp
  have hkeys : (d.insert p f).keys.Perm d.keys :=
    (List.perm_ext_iff_of_nodup (AList.keys_nodup _) (AList.keys_nodup _)).2 hmem
  unfold Disk.walk
  simp only [hmem]
  split_ifs
  · exact List.Perm.refl _
  · exact List.Perm.refl _
  · exact hkeys.filter _

/-- Writing to a file that is there does not change which files are hashed. -/
theorem hashedFiles_insert {d : Disk} {p : Bytes} (hp : p ∈ d) (f : File) (ty : FileType) :
    hashedFiles cfg (d.insert p f) ty = hashedFiles cfg d ty := by
  have hperm := (List.Perm.flatMap_left [cfg.sourcesDir, cfg.manualDir, cfg.cacheDir]
    fun root _ => walk_insert_perm hp f root).filter (selects ty)
  refine List.Perm.eq_of_sortedLE List.sortedLE_insertionSort List.sortedLE_insertionSort ?_
  exact ((List.perm_insertionSort _ _).trans hperm).trans (List.perm_insertionSort _ _).symm

theorem statStream_insert {d : Disk} {p : Bytes} {f : File} {files : List Bytes}
    (hp : p ∉ files) : statStream (d.insert p f) files = statStream d files := by
  refine List.flatMap_congr fun q hq => ?_
  have hne : q ≠ p := fun he => hp (he ▸ hq)
  rw [AList.lookup_insert_ne hne]

/-- A file that is written at another time is told apart from what it was. -/
theorem consistent_insert {d : Disk} {p : Bytes} {f g : File} (hf : d.lookup p = some f)
    (htime : f.modTime ≠ g.modTime) : Consistent d (d.insert p g) := by
  rintro ⟨q, e⟩ he ⟨q', e'⟩ he' rfl - hsame
  have hl := AList.mem_lookup_iff.2 he
  have hl' := AList.mem_lookup_iff.2 he'
  by_cases hq : q = p
  · subst hq
    rw [AList.lookup_insert] at hl'
    obtain rfl := Option.some.inj (hf.symm.trans hl)
    obtain rfl := Option.some.inj hl'
    exact absurd hsame htime
  · rw [AList.lookup_insert_ne hq] at hl'
    rw [Option.some.inj (hl.symm.trans hl')]

/-- **A cached file that is not hashed can be given new networks without the hash noticing.** -/
theorem exists_missed {s : State} {name u : Bytes} (hname : name ∈ ipLists)
    (hu : u ∈ urlsOf cfg s.disk name) (hp : getCachedFilepath sys cfg u name ∈ s.disk)
    (hnot : getCachedFilepath sys cfg u name ∉ hashedFiles cfg s.disk .ips)
    (hne : getCachedFilepath sys cfg u name ≠ sourcesFile cfg name) (content : Bytes) :
    ∃ d, Consistent s.disk d ∧ HashedAlike cfg d s.disk .ips ∧
      parseIPFile content ⊆ loadIPs (sys.inState s) cfg d name := by
  obtain ⟨f, hf⟩ := Option.isSome_iff_exists.1 (AList.lookup_isSome.2 hp)
  set p := getCachedFilepath sys cfg u name with hpdef
  let g : File := ⟨content, f.modTime + 1⟩
  have htime : f.modTime ≠ g.modTime := by simp [g]
  refine ⟨s.disk.insert p g, consistent_insert hf htime, ?_, ?_⟩
  · rw [HashedAlike, hashedFiles_insert hp, statStream_insert hnot]
  · have hsources : urlsOf cfg (s.disk.insert p g) name = urlsOf cfg s.disk name := by
      rw [urlsOf, urlsOf, Disk.read, Disk.read, Disk.content?, Disk.content?,
        AList.lookup_insert_ne hne.symm]
    have hcontent : Disk.content? (s.disk.insert p g) p = some content := by
      rw [Disk.content?, AList.lookup_insert]
      rfl
    intro x hx
    refine (mem_loadIPs_iff hname).2 ⟨p, ?_, ?_⟩
    · rw [listFiles, hsources]
      exact List.mem_cons_of_mem _ (List.mem_map_of_mem hu)
    · rwa [fetched, Disk.read, content?_readCached_of_some _ hcontent]

/-! ## Skipping -/

/-- Two lists yield the same rules, domains filtered out and lines, in any order. -/
def Loaded.SameSets (a b : Loaded) : Prop :=
  (∀ r, r ∈ a.rules ↔ r ∈ b.rules) ∧ (∀ d, d ∈ a.casSet ↔ d ∈ b.casSet) ∧
    ∀ l, l ∈ a.rawRules ↔ l ∈ b.rawRules

theorem Loaded.sameSets_iff {a b : Loaded} : a.SameSets b ↔ ∀ x, x ∈ a.items ↔ x ∈ b.items := by
  constructor
  · rintro ⟨hrules, hcas, hraw⟩ x
    cases x with
    | rule r => simpa [Loaded.items] using hrules r
    | filtered d => simpa [Loaded.items] using hcas d
    | raw l => simpa [Loaded.items] using hraw l
  · intro h
    exact ⟨fun r => by simpa [Loaded.items] using h (.rule r),
      fun d => by simpa [Loaded.items] using h (.filtered d),
      fun l => by simpa [Loaded.items] using h (.raw l)⟩

/-- A system with the MD5 of the URL `http`. -/
def httpSystem : System where
  __ := plainSystem
  md5 url := if url = str "http" then [0x80, 0x79, 0x1b, 0x3a, 0xe7, 0x00, 0x2c, 0xb8, 0x8c, 0x24,
    0x68, 0x76, 0xd9, 0xfa, 0xa8, 0xf8] else []

/-- A state with an address list that has the URL `http`, whose file is cached, and a list of
domains; there is no network. -/
def plainState (stem cached : Bytes) (modTime : ℤ) : State where
  disk := ((AList.singleton (str "/m/include-hosts.txt") (⟨str "a.com", 1⟩ : File)).insert
    (str "/s/" ++ stem ++ str ".txt") ⟨str "http", 2⟩).insert
    (str "/d/" ++ stem ++ str "/80791b3a.txt") ⟨cached, modTime⟩
  get _ := none
  now := 0

end NextPath.Parser
