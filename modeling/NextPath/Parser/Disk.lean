import Mathlib.Data.List.AList
import NextPath.Parser.Lists

/-!
# The files of the compiler

The lists are named in the sources directory, which has the URLs of a list, in the manual directory,
which has entries of its own, and in the download directory, which caches what was fetched from
the URLs. `Disk` is the regular files of the three, by path; the functions of package `filepath`
are on path strings as the standard library has them.

`loadIPs` and `loadDomainsWithRules` read a list: its sources file, and then its manual file and the
cached file of each of its URLs (`listFiles`), fetching what is not cached. What they return is, as
a set, what these files hold once the fetches are done (`mem_loadIPs_iff`,
`mem_loadDomainsWithRules_iff`).
-/

namespace NextPath.Parser

open Strings Net

/-! ## Paths -/

/-- The components of a clean path; `..` goes up where there is somewhere to go. -/
def cleanStep (rooted : Bool) (stack : List Bytes) (c : Bytes) : List Bytes :=
  if c = [] ∨ c = str "." then stack
  else if c = str ".." then
    match stack with
    | top :: rest => if top = str ".." then c :: stack else rest
    | [] => if rooted then [] else [c]
  else c :: stack

/-- `filepath.Clean`. -/
def clean (path : Bytes) : Bytes :=
  let rooted := hasPrefix path (str "/")
  let comps := (path.splitOn (chr '/')).foldl (cleanStep rooted) []
  let rel := joinWith (chr '/') comps.reverse
  if rooted then chr '/' :: rel else if rel = [] then str "." else rel

/-- `filepath.Join`. -/
def joinPath (elem : List Bytes) : Bytes :=
  match elem.dropWhile (· = []) with
  | [] => []
  | elem => clean (joinWith (chr '/') elem)

/-- `filepath.Base`. -/
def base (path : Bytes) : Bytes :=
  if path = [] then str "."
  else
    match cutLast (chr '/') (trimRight path (str "/")) with
    | some (_, name) => name
    | none => if trimRight path (str "/") = [] then str "/" else trimRight path (str "/")

/-! ## Files -/

/-- A regular file; its size is the length of its content. -/
structure File where
  content : Bytes
  modTime : ℤ
  deriving DecidableEq

/-- The regular files, by their clean path. -/
abbrev Disk := AList fun _ : Bytes => File

/-- The content of a file, if it is there. -/
def Disk.content? (d : Disk) (path : Bytes) : Option Bytes := (d.lookup path).map (·.content)

/-- The content that is read: nothing if the file cannot be opened. -/
def Disk.read (d : Disk) (path : Bytes) : Bytes := (d.content? path).getD []

/-- The file lies below the directory. -/
def below (dir path : Bytes) : Bool :=
  if clean dir = str "." then
    !hasPrefix path (str "/") && path ≠ str ".." && !hasPrefix path (str "../")
  else if clean dir = str "/" then hasPrefix path (str "/")
  else hasPrefix path (clean dir ++ str "/")

/-- The regular files that `filepath.Walk` visits. There is nothing at the empty path. -/
def Disk.walk (d : Disk) (root : Bytes) : List Bytes :=
  if root = [] then [] else if root ∈ d then [root] else d.keys.filter (below root ·)

/-! ## The compiler and what it rests on -/

/-- `CompileConfig`, as far as it is read here. -/
structure CompileConfig where
  sourcesDir : Bytes
  manualDir : Bytes
  downloadDir : Bytes
  routeAll : Bool
  filterCasino : Bool
  blockAds : Bool
  enableIPv6 : Bool
  limit : ℤ

/-- The directory of the cached files. -/
def CompileConfig.cacheDir (cfg : CompileConfig) : Bytes :=
  if cfg.downloadDir = [] then str "/app/nextpath/download" else cfg.downloadDir

/-- What the compiler gets from outside: the hash functions, decompression, the body of a
successful answer to a request, the time a new file is given, and the environment. -/
structure System extends Tables where
  gunzip : Bytes → Option Bytes
  md5 : Bytes → Bytes
  sha256 : Bytes → Bytes
  get : Bytes → Option Bytes
  now : ℤ
  getenv : Bytes → Bytes

/-- `hex.EncodeToString`. -/
def hexString (b : Bytes) : Bytes :=
  b.flatMap fun x => [digitChar (x.toNat / 16), digitChar (x.toNat % 16)]

variable (sys : System) (cfg : CompileConfig)

/-- `getCachedFilepath`. -/
def getCachedFilepath (url stem : Bytes) : Bytes :=
  joinPath [cfg.cacheDir, stem, (hexString (sys.md5 url)).take 8 ++ str ".txt"]

/-- `readUrls`. -/
def readUrls (content : Bytes) : List Bytes :=
  ((content.splitOn (chr '\n')).map trimSpace).filter fun l => l ≠ [] && !hasPrefix l (str "#")

/-- `downloadOrGetCached`, for a file that is not cached. -/
def download (d : Disk) (path url : Bytes) : Disk :=
  match d.lookup path, sys.get url with
  | none, some body => if body = [] then d else d.insert path ⟨body, sys.now⟩
  | _, _ => d

/-- Reads the cached file of each URL in turn, fetching it first if there is none. -/
def readCached (stem : Bytes) : Disk → List Bytes → Disk × List Bytes
  | d, [] => (d, [])
  | d, url :: urls =>
    let path := getCachedFilepath sys cfg url stem
    let d := download sys d path url
    let content := d.read path
    let (d', contents) := readCached stem d urls
    (d', content :: contents)

/-- The sources file of a list. -/
def sourcesFile (name : Bytes) : Bytes :=
  if contains name (str "rpz") && !contains name (str "rpz2") then
    joinPath [cfg.sourcesDir, str "rpz.txt"]
  else if contains name (str "rpz2") then joinPath [cfg.sourcesDir, str "rpz2.txt"]
  else joinPath [cfg.sourcesDir, name ++ str ".txt"]

/-- The manual file of a list. -/
def manualFile (name : Bytes) : Bytes := joinPath [cfg.manualDir, name ++ str ".txt"]

/-- `loadIPs`. -/
def loadIPs (d : Disk) (name : Bytes) : List Prefix :=
  let urls := readUrls (d.read (joinPath [cfg.sourcesDir, name ++ str ".txt"]))
  let nets := parseIPFile (d.read (manualFile cfg name))
  let (_, contents) := readCached sys cfg name d urls
  nets ++ contents.flatMap parseIPFile

/-- The kind of a list, which its name tells. -/
def kindOf (name : Bytes) (filterCasino : Bool) : Kind where
  filterCasino := filterCasino
  isExcludeFile := hasPrefix name (str "exclude") || hasPrefix name (str "remove")
  isRpz := contains name (str "rpz")
  isDomain := (contains name (str "hosts") || contains name (str "domain")) &&
    !contains name (str "adblock")

/-- `loadDomainsWithRules`. -/
def loadDomainsWithRules (d : Disk) (name : Bytes) (filterCasino : Bool) : Loaded :=
  let urls := readUrls (d.read (sourcesFile cfg name))
  let validate := validateFile sys.toTables sys.gunzip (kindOf name filterCasino)
  let (d', contents) := readCached sys cfg name d urls
  .concat (contents.map validate ++ [validate (d'.read (manualFile cfg name))])

/-- The address lists. -/
def ipLists : List Bytes := [str "include-ips", str "exclude-ips", str "deny-ips"]

/-- The domain lists, and whether they are filtered. -/
def domainLists : List (Bytes × Bool) :=
  [(str "include-hosts", cfg.filterCasino), (str "include-adblock-hosts", false),
    (str "exclude-adblock-hosts", false), (str "rpz", false), (str "rpz2", false),
    (str "exclude-hosts", false), (str "remove-hosts", false)]

/-! ## What a list is read from -/

/-- The URLs of a list. -/
def urlsOf (d : Disk) (name : Bytes) : List Bytes := readUrls (d.read (sourcesFile cfg name))

/-- The files that the entries of a list are in. -/
def listFiles (d : Disk) (name : Bytes) : List Bytes :=
  manualFile cfg name :: (urlsOf cfg d name).map (getCachedFilepath sys cfg · name)

/-- The files once what is not cached of a list has been fetched. -/
def fetched (d : Disk) (name : Bytes) : Disk := (readCached sys cfg name d (urlsOf cfg d name)).1

theorem sourcesFile_of_mem {name : Bytes} (h : name ∈ ipLists) :
    sourcesFile cfg name = joinPath [cfg.sourcesDir, name ++ str ".txt"] := by
  have hrpz : ∀ n ∈ ipLists, contains n (str "rpz") = false ∧ contains n (str "rpz2") = false := by
    decide +kernel
  simp [sourcesFile, hrpz name h]

variable {sys cfg}

theorem content?_download (d : Disk) (path url p : Bytes) :
    (download sys d path url).content? p =
      if p = path ∧ d.content? p = none then (sys.get url).filter (· ≠ []) else d.content? p := by
  unfold download Disk.content?
  by_cases hp : p = path
  · subst hp
    cases hd : d.lookup p with
    | some f => simp [hd]
    | none =>
      cases hg : sys.get url with
      | none => simp [hd]
      | some body =>
        by_cases hb : body = []
        · simp [hb, hd, Option.filter]
        · simp [hb, Option.filter]
  · simp only [hp, false_and, if_false]
    cases d.lookup path with
    | some f => rfl
    | none =>
      cases sys.get url with
      | none => rfl
      | some body =>
        by_cases hb : body = []
        · simp [hb]
        · simp [hb, AList.lookup_insert_ne hp]

theorem content?_download_of_some {d : Disk} {p c : Bytes} (h : d.content? p = some c)
    (path url : Bytes) : (download sys d path url).content? p = some c := by
  rw [content?_download, h, if_neg (by simp)]

/-- A file that is there is not written to. -/
theorem content?_readCached_of_some {name p c : Bytes} (urls : List Bytes) :
    ∀ {d : Disk}, d.content? p = some c →
      (readCached sys cfg name d urls).1.content? p = some c := by
  induction urls with
  | nil => exact fun h => h
  | cons u urls ih => exact fun h => ih (content?_download_of_some h _ u)

/-- What is there was there before, or is the cached file of a URL. -/
theorem of_content?_readCached {name p c : Bytes} {urls : List Bytes} :
    ∀ {d : Disk}, (readCached sys cfg name d urls).1.content? p = some c →
      d.content? p = some c ∨ ∃ u ∈ urls, getCachedFilepath sys cfg u name = p := by
  induction urls with
  | nil => exact fun h => .inl h
  | cons u urls ih =>
    intro d h
    rcases ih h with hd | ⟨v, hv, hp⟩
    · rw [content?_download] at hd
      split_ifs at hd with hnew
      · exact .inr ⟨u, List.mem_cons_self, hnew.1.symm⟩
      · exact .inl hd
    · exact .inr ⟨v, List.mem_cons_of_mem u hv, hp⟩

/-- The content of a cached file, as it is in the end, has been read for one of its URLs. -/
theorem mem_readCached {name u c : Bytes} {urls : List Bytes} (hu : u ∈ urls) :
    ∀ {d : Disk},
      (readCached sys cfg name d urls).1.content? (getCachedFilepath sys cfg u name) = some c →
      c ∈ (readCached sys cfg name d urls).2 := by
  induction urls generalizing u with
  | nil => simp at hu
  | cons v urls ih =>
    intro d h
    rcases List.mem_cons.1 hu with rfl | hu
    · let path := getCachedFilepath sys cfg u name
      cases hread : (download sys d path u).content? path with
      | some c' =>
        have hc : c' = c :=
          Option.some.inj ((content?_readCached_of_some urls hread).symm.trans h)
        simp [readCached, Disk.read, path, ← hc, hread]
      | none =>
        -- the fetch failed here, so that a later URL has the same cached file
        have hlater : (readCached sys cfg name (download sys d path u) urls).1.content? path =
            some c := h
        obtain hd | ⟨w, hw, hpath⟩ := of_content?_readCached hlater
        · simp [hread] at hd
        · exact List.mem_cons_of_mem _ (ih hw (by rwa [hpath]))
    · exact List.mem_cons_of_mem _ (ih hu h)

/-- What has been read is the content of a cached file in the end, unless it is nothing. -/
theorem of_mem_readCached {name c : Bytes} {urls : List Bytes} :
    ∀ {d : Disk}, c ∈ (readCached sys cfg name d urls).2 → c = [] ∨ ∃ u ∈ urls,
      (readCached sys cfg name d urls).1.content? (getCachedFilepath sys cfg u name) = some c := by
  induction urls with
  | nil => simp [readCached]
  | cons u urls ih =>
    intro d h
    let path := getCachedFilepath sys cfg u name
    rcases List.mem_cons.1 h with rfl | h
    · cases hread : (download sys d path u).content? path with
      | some c' =>
        refine .inr ⟨u, List.mem_cons_self, ?_⟩
        rw [Disk.read, hread]
        exact content?_readCached_of_some urls hread
      | none => exact .inl (by rw [Disk.read, hread, Option.getD_none])
    · rcases ih h with hc | ⟨v, hv, hc⟩
      · exact .inl hc
      · exact .inr ⟨v, List.mem_cons_of_mem u hv, hc⟩

/-! ## The entries of a list -/

section Entries

variable {α : Type} {parse : Bytes → List α} {d : Disk} {name : Bytes} {x : α}

theorem exists_of_mem_read (hnil : parse [] = []) {p : Bytes} (h : x ∈ parse (d.read p)) :
    ∃ c, d.content? p = some c ∧ x ∈ parse c := by
  rw [Disk.read] at h
  cases hc : d.content? p with
  | none => simp [hc, hnil] at h
  | some c => exact ⟨c, rfl, by simpa [hc] using h⟩

/-- The entries of the contents that are read are those of the cached files in the end. -/
theorem exists_mem_readCached_iff (hnil : parse [] = []) {urls : List Bytes} :
    (∃ c ∈ (readCached sys cfg name d urls).2, x ∈ parse c) ↔
      ∃ u ∈ urls, x ∈ parse
        ((readCached sys cfg name d urls).1.read (getCachedFilepath sys cfg u name)) := by
  constructor
  · rintro ⟨c, hc, hx⟩
    rcases of_mem_readCached hc with rfl | ⟨u, hu, hcontent⟩
    · simp [hnil] at hx
    · exact ⟨u, hu, by rwa [Disk.read, hcontent]⟩
  · rintro ⟨u, hu, hx⟩
    obtain ⟨c, hc, hx⟩ := exists_of_mem_read hnil hx
    exact ⟨c, mem_readCached hu hc, hx⟩

/-- It makes no difference whether the manual file is read before the fetch or after it. -/
theorem mem_manualFile_or_iff (hnil : parse [] = []) {P : Prop}
    (hP : ∀ u ∈ urlsOf cfg d name,
      x ∈ parse ((fetched sys cfg d name).read (getCachedFilepath sys cfg u name)) → P) :
    x ∈ parse (d.read (manualFile cfg name)) ∨ P ↔
      x ∈ parse ((fetched sys cfg d name).read (manualFile cfg name)) ∨ P := by
  constructor
  · rintro (hx | h)
    · obtain ⟨c, hc, hx⟩ := exists_of_mem_read hnil hx
      left
      rwa [Disk.read, fetched, content?_readCached_of_some _ hc]
    · exact .inr h
  · rintro (hx | h)
    · obtain ⟨c, hc, hxc⟩ := exists_of_mem_read hnil hx
      rcases of_content?_readCached hc with hd | ⟨u, hu, hpath⟩
      · exact .inl (by rwa [Disk.read, hd])
      · exact .inr (hP u hu (hpath ▸ hx))
    · exact .inr h

/-- **The networks of a list are those of its files.** -/
theorem mem_loadIPs_iff (hname : name ∈ ipLists) {x : Prefix} :
    x ∈ loadIPs sys cfg d name ↔
      ∃ p ∈ listFiles sys cfg d name, x ∈ parseIPFile ((fetched sys cfg d name).read p) := by
  have hcached : (∃ c ∈ (readCached sys cfg name d (urlsOf cfg d name)).2, x ∈ parseIPFile c) ↔
      ∃ u ∈ urlsOf cfg d name,
        x ∈ parseIPFile ((fetched sys cfg d name).read (getCachedFilepath sys cfg u name)) :=
    exists_mem_readCached_iff rfl
  simp only [loadIPs, ← sourcesFile_of_mem cfg hname, List.mem_append, List.mem_flatMap]
  rw [← urlsOf, hcached, mem_manualFile_or_iff rfl fun u hu hx => ⟨u, hu, hx⟩]
  simp [listFiles]

end Entries

/-- What a list of domains yields: a rule, a domain that is filtered out, or a line. -/
inductive Item
  | rule (r : DomainRule)
  | filtered (d : Bytes)
  | raw (line : Bytes)
  deriving DecidableEq

def Loaded.items (l : Loaded) : List Item :=
  l.rules.map .rule ++ l.casSet.map .filtered ++ l.rawRules.map .raw

theorem Loaded.mem_items_concat {l : List Loaded} {x : Item} :
    x ∈ (Loaded.concat l).items ↔ ∃ a ∈ l, x ∈ a.items := by
  induction l with
  | nil => simp [Loaded.concat, Loaded.none, Loaded.items]
  | cons a l ih =>
    have happend : x ∈ (a.append (Loaded.concat l)).items ↔
        x ∈ a.items ∨ x ∈ (Loaded.concat l).items := by
      simp only [Loaded.items, Loaded.append, List.map_append, List.mem_append]
      tauto
    rw [List.exists_mem_cons_iff, ← ih]
    exact happend

/-- The entries of a file of a list of domains. -/
def domainItems (sys : System) (l : Bytes × Bool) (content : Bytes) : List Item :=
  (validateFile sys.toTables sys.gunzip (kindOf l.1 l.2) content).items

/-- **What a list of domains yields is what its files do.** -/
theorem mem_loadDomainsWithRules_iff {d : Disk} {l : Bytes × Bool} {x : Item} :
    x ∈ (loadDomainsWithRules sys cfg d l.1 l.2).items ↔ ∃ p ∈ listFiles sys cfg d l.1,
      x ∈ domainItems sys l ((fetched sys cfg d l.1).read p) := by
  have hcached : (∃ c ∈ (readCached sys cfg l.1 d (urlsOf cfg d l.1)).2, x ∈ domainItems sys l c) ↔
      ∃ u ∈ urlsOf cfg d l.1,
        x ∈ domainItems sys l ((fetched sys cfg d l.1).read (getCachedFilepath sys cfg u l.1)) :=
    exists_mem_readCached_iff rfl
  simp only [loadDomainsWithRules, listFiles, Loaded.mem_items_concat, List.mem_append,
    List.mem_map, List.mem_singleton, List.exists_mem_cons_iff, or_and_right, exists_or,
    exists_exists_and_eq_and, exists_eq_left]
  rw [← urlsOf, ← fetched, or_comm]
  exact or_congr_right hcached

/-- The rules of a file of a list of domains. -/
def domainRules (sys : System) (l : Bytes × Bool) (content : Bytes) : List DomainRule :=
  (validateFile sys.toTables sys.gunzip (kindOf l.1 l.2) content).rules

theorem mem_rules_loadDomainsWithRules_iff {d : Disk} {l : Bytes × Bool} {r : DomainRule} :
    r ∈ (loadDomainsWithRules sys cfg d l.1 l.2).rules ↔ ∃ p ∈ listFiles sys cfg d l.1,
      r ∈ domainRules sys l ((fetched sys cfg d l.1).read p) := by
  have hrule (a : Loaded) : r ∈ a.rules ↔ .rule r ∈ a.items := by simp [Loaded.items]
  simp only [domainRules, hrule]
  exact mem_loadDomainsWithRules_iff

/-! ## A small system -/

/-- A system whose hash functions are the identity and which has no network. -/
def plainSystem : System where
  toTables := asciiTables
  gunzip _ := none
  md5 s := s
  sha256 s := s
  get _ := none
  now := 0
  getenv _ := []

def plainConfig : CompileConfig where
  sourcesDir := str "/s"
  manualDir := str "/m"
  downloadDir := str "/d"
  routeAll := false
  filterCasino := false
  blockAds := true
  enableIPv6 := false
  limit := 500

end NextPath.Parser
