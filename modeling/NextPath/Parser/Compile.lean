import NextPath.Foundations.Runs
import NextPath.Parser.Adblock
import NextPath.Parser.Routes
import NextPath.Parser.StateHash

/-!
# The result directory over calls of the compiler

`CompileLists` compiles the address lists into four files and the domain lists into four zones. Each
file is written beside its place and renamed; where a step of that fails the writer logs it and
returns, and the file stays as it was. The hash of the inputs is then stored in a file of its own,
and a later call with the same hash compiles nothing.

A call is given the input files as they are after the downloads, and what fails in it. A session is
the result directory together with the call that has stored the hash which is there.

* `Session.Recorded`: a hash that is there was stored by a call, and the files are the ones that the
  inputs of this call compile to, but for the time in a zone.
* `recorded_current`: this is so after every run in which a hash is stored only where all files
  could be written, and an older one is not left where the new one cannot be.
* `stale_recorded`: one failure to rename leaves a list that all later calls take for current.
-/

namespace NextPath.Parser

open Net Strings Runs

/-! ## Files -/

/-- The files that are compiled. -/
inductive Output
  | denyIPs (isV6 : Bool)
  | routeIPs (isV6 : Bool)
  | proxy
  | adblock
  | deny
  | deny2
  deriving DecidableEq

namespace Output

/-- The lists that a file is compiled from. -/
def group : Output → FileType
  | denyIPs _ | routeIPs _ => .ips
  | proxy | adblock | deny | deny2 => .domains

/-- The name of a file. -/
def name : Output → Bytes
  | denyIPs isV6 => if isV6 then str "deny-ips-v6.txt" else str "deny-ips-v4.txt"
  | routeIPs isV6 => if isV6 then str "route-ips-v6.txt" else str "route-ips-v4.txt"
  | proxy => str "proxy.rpz"
  | adblock => str "adblock.rpz"
  | deny => str "deny.rpz"
  | deny2 => str "deny2.rpz"

/-- The files that must be there for a compilation to be skipped. -/
def required : FileType → List Output
  | .ips => [routeIPs false, routeIPs true]
  | .domains => [proxy, adblock, deny, deny2]

end Output

/-- The result directory: the compiled files, and `.hash_ips` and `.hash_domains`. -/
structure ResultDir where
  file : Output → Option Bytes
  hash : FileType → Option Bytes

/-- `fileExists`, which asks for a file that is not empty. -/
def ResultDir.fileExists (r : ResultDir) (o : Output) : Bool := (r.file o).any (· ≠ [])

/-- `compileIPsNeeded` and `compileDomainsNeeded` of `CompileLists`. -/
def ResultDir.needed (r : ResultDir) (ty : FileType) (currentHash : Bytes) : Bool :=
  let cachedHash := trimSpace ((r.hash ty).getD [])
  cachedHash == [] || cachedHash != currentHash || (Output.required ty).any (!r.fileExists ·)

/-! ## Writing a file -/

/-- What can fail when a file is replaced. -/
inductive Step
  | create
  | write
  | flush
  | sync
  | rename
  deriving DecidableEq

/-- A file after it has been written beside its place and renamed. Where a step fails, the file
beside it is removed and the one in its place stays. -/
def replaceFile (fails : Step → Bool) (steps : List Step) (content : Bytes) (old : Option Bytes) :
    Option Bytes :=
  if steps.any fails then old else some content

/-- The steps of `writeIPFile`; each line is written by itself. -/
def ipSteps (nets : List Prefix) : List Step :=
  [.create] ++ (if nets = [] then [] else [.write]) ++ [.flush, .rename]

/-- The lines that `writeIPFile` writes. -/
def ipText (nets : List Prefix) : Bytes := nets.flatMap fun n => n.string ++ str "\n"

/-- `writeIPFile`. -/
def writeIPFile (fails : Step → Bool) (nets : List Prefix) (old : Option Bytes) : Option Bytes :=
  replaceFile fails (ipSteps nets) (ipText nets) old

/-- What a zone is written from. -/
structure ZoneLists where
  domains : List Bytes
  excl : List Bytes
  rawRules : List Bytes
  routeAll : Bool

/-- The steps of `writeRPZFile`. It does not look at the results of its writes, but the first that
fails makes the flush fail. -/
def rpzSteps : List Step := [.create, .write, .flush, .sync, .rename]

/-- The lines for the domains of a list. -/
def cnameLines (ds : List Bytes) (target : Bytes) : Bytes :=
  ((ds.insertionSort (· ≤ ·)).filter fun d => d ≠ [] && d ≠ str ".").flatMap fun d =>
    d ++ str ". CNAME " ++ target ++ str "\n*." ++ d ++ str ". CNAME " ++ target ++ str "\n"

/-- What `writeRPZFile` writes. -/
def rpzText (unix : ℤ) (path : Bytes) (z : ZoneLists) : Bytes :=
  str "$TTL 10800\n@ SOA . . (" ++ decimal unix ++ str " 1 1 1 10800)\n" ++
    (if z.routeAll && contains path (str "proxy") then str "* CNAME .\n" else []) ++
    (z.rawRules.flatMap fun r => r ++ str "\n") ++ cnameLines z.excl (str "rpz-passthru.") ++
    cnameLines z.domains (str ".")

/-- `writeRPZFile`. -/
def writeRPZFile (fails : Step → Bool) (unix : ℤ) (path : Bytes) (z : ZoneLists)
    (old : Option Bytes) : Option Bytes :=
  replaceFile fails rpzSteps (rpzText unix path z) old

/-- `uniqueSliceFromMap`. -/
def uniqueSliceFromMap (src : List Bytes) : List Bytes := src.dedup.insertionSort (· ≤ ·)

/-- How `os.WriteFile` ends: it cannot open the file, or it writes so many bytes of the content to
the file, which it has emptied. -/
inductive HashWrite
  | unopened
  | wrote (n : ℕ)

namespace HashWrite

/-- The file with the hash after the attempt to write it. -/
def apply (w : HashWrite) (hash : Bytes) (old : Option Bytes) : Option Bytes :=
  match w with
  | unopened => old
  | wrote n => some (hash.take n)

/-- The whole hash has been written. -/
def stores (w : HashWrite) (hash : Bytes) : Bool :=
  match w with
  | unopened => false
  | wrote n => hash.length ≤ n

end HashWrite

/-! ## A call -/

/-- A call of `CompileLists`: what it is given, and what happens in it. All calls are for the same
result directory, which is none of those with the input files. -/
structure Call where
  sys : System
  ipset : IPSets
  cfg : CompileConfig
  resultDir : Bytes
  /-- The input files once `downloadSources` has returned. -/
  disk : Disk
  /-- The directories are there, or could be made. -/
  dirs : Bool
  /-- The reading of the clock when a zone is written. -/
  unix : Output → ℤ
  fails : Output → Step → Bool
  hashWrite : FileType → HashWrite

namespace Call

variable (c : Call)

/-- The settings, with the default of the limit. -/
def config : CompileConfig :=
  { c.cfg with limit := if c.cfg.limit ≤ 0 then 500 else c.cfg.limit }

/-- `currentIPsHash` and `currentDomainsHash`. -/
def stateHash (ty : FileType) : Bytes := getStateHash c.sys c.config c.disk ty

/-- A list of domains. -/
def load (name : Bytes) (filterCasino : Bool) : Loaded :=
  loadDomainsWithRules c.sys c.config c.disk name filterCasino

/-- `incIps`, `excIps` and `denyIps`. -/
def addressLists : AddressLists where
  incIps := loadIPs c.sys c.config c.disk (str "include-ips")
  excIps := loadIPs c.sys c.config c.disk (str "exclude-ips")
  denyIps := loadIPs c.sys c.config c.disk (str "deny-ips")

/-- The networks of an address list. -/
def nets (isRoute isV6 : Bool) : List Prefix :=
  if isRoute then compileRoutes c.ipset c.addressLists c.config.limit isV6
  else compileDeny c.ipset c.addressLists isV6

/-- What `proxy.rpz` is written from. -/
def proxyZone : ZoneLists :=
  let hpr := c.load (str "include-hosts") c.config.filterCasino
  let (pDoms, pExc) := compileProxy c.sys.toTables
    ⟨hpr.rules, (c.load (str "exclude-hosts") false).rules,
      (c.load (str "remove-hosts") false).rules⟩
  ⟨pDoms, pExc, uniqueSliceFromMap hpr.rawRules, c.config.routeAll⟩

/-- What `adblock.rpz` is written from. -/
def adblockZone : ZoneLists :=
  let l := adblockLists c.sys c.config c.disk
  let rawAd :=
    if c.config.blockAds then (c.load (str "include-adblock-hosts") false).rawRules else []
  ⟨l.adFinal, l.adExcl, uniqueSliceFromMap rawAd, false⟩

/-- What `deny.rpz` and `deny2.rpz` are written from. -/
def simpleZone (name : Bytes) : ZoneLists :=
  let l := c.load name false
  let (final, exc) := buildSimpleRPZ l.rules
  ⟨final, exc, uniqueSliceFromMap l.rawRules, false⟩

/-- Where a file is. -/
def path (o : Output) : Bytes := joinPath [c.resultDir, o.name]

/-- The file that the inputs compile to, with the time that a zone carries. -/
def content (o : Output) (unix : ℤ) : Bytes :=
  match o with
  | .denyIPs isV6 => ipText (c.nets false isV6)
  | .routeIPs isV6 => ipText (c.nets true isV6)
  | .proxy => rpzText unix (c.path o) c.proxyZone
  | .adblock => rpzText unix (c.path o) c.adblockZone
  | .deny => rpzText unix (c.path o) (c.simpleZone (str "rpz"))
  | .deny2 => rpzText unix (c.path o) (c.simpleZone (str "rpz2"))

/-- The steps of writing a file. -/
def steps (o : Output) : List Step :=
  match o with
  | .denyIPs isV6 => ipSteps (c.nets false isV6)
  | .routeIPs isV6 => ipSteps (c.nets true isV6)
  | .proxy | .adblock | .deny | .deny2 => rpzSteps

/-- A file after the call has compiled it. -/
def write (o : Output) (old : Option Bytes) : Option Bytes :=
  match o with
  | .denyIPs isV6 => writeIPFile (c.fails o) (c.nets false isV6) old
  | .routeIPs isV6 => writeIPFile (c.fails o) (c.nets true isV6) old
  | .proxy => writeRPZFile (c.fails o) (c.unix o) (c.path o) c.proxyZone old
  | .adblock => writeRPZFile (c.fails o) (c.unix o) (c.path o) c.adblockZone old
  | .deny => writeRPZFile (c.fails o) (c.unix o) (c.path o) (c.simpleZone (str "rpz")) old
  | .deny2 => writeRPZFile (c.fails o) (c.unix o) (c.path o) (c.simpleZone (str "rpz2")) old

/-- A step of writing the file fails. -/
def WriteFails (o : Output) : Prop := ∃ s ∈ c.steps o, c.fails o s = true

/-- **A file is replaced by the one that the inputs compile to, or stays.** -/
theorem write_eq (o : Output) (old : Option Bytes) :
    c.write o old = replaceFile (c.fails o) (c.steps o) (c.content o (c.unix o)) old := by
  cases o <;> rfl

theorem write_of_not_fails {o : Output} (h : ¬ c.WriteFails o) (old : Option Bytes) :
    c.write o old = some (c.content o (c.unix o)) := by
  rw [write_eq, replaceFile, if_neg]
  rintro hany
  exact h (List.any_eq_true.1 hany)

end Call

/-- `CompileLists`. Whether the two groups are compiled is decided before anything is written. -/
def compileLists (r : ResultDir) (c : Call) : ResultDir :=
  if !c.dirs then r
  else
    let needed (ty : FileType) := r.needed ty (c.stateHash ty)
    { file := fun o => if needed o.group then c.write o (r.file o) else r.file o
      hash := fun ty =>
        if needed ty then (c.hashWrite ty).apply (c.stateHash ty) (r.hash ty) else r.hash ty }

/-! ## Sessions -/

/-- The result directory, and for each group the call that has stored the hash which is there. -/
structure Session where
  dir : ResultDir
  storedBy : FileType → Option Call

namespace Session

variable (s : Session) (c : Call)

/-- A directory for which no call has stored a hash yet. -/
def start (r : ResultDir) : Session := ⟨r, fun _ => none⟩

/-- The call compiles the files of a group. -/
def compiles (ty : FileType) : Bool := c.dirs && s.dir.needed ty (c.stateHash ty)

/-- The next call. What it has written of a hash only in part was stored by no call. -/
def call : Session where
  dir := compileLists s.dir c
  storedBy ty :=
    if s.compiles c ty then
      match c.hashWrite ty with
      | .unopened => s.storedBy ty
      | .wrote _ => if (c.hashWrite ty).stores (c.stateHash ty) then some c else none
    else s.storedBy ty

/-- A hash that is recorded is the one of the inputs of the call that has stored it, and the files
of the group are the ones these inputs compile to. -/
def Recorded : Prop :=
  ∀ ty c, s.storedBy ty = some c → s.dir.hash ty = some (c.stateHash ty) ∧
    ∀ o, o.group = ty → ∃ unix, s.dir.file o = some (c.content o unix)

/-- What has to be so in a call: if it can store the hash of a group that it compiles, it can write
every file of the group; if it cannot open the file with the hash, there is none. -/
def Reliable : Prop :=
  ∀ ty, s.compiles c ty = true →
    ((c.hashWrite ty).stores (c.stateHash ty) = true → ∀ o, o.group = ty → ¬ c.WriteFails o) ∧
    (c.hashWrite ty = .unopened → s.dir.hash ty = none)

/-- A call stores no hash of a group of which it could not write a file. -/
def Withholds : Prop :=
  ∀ ty, s.compiles c ty = true → (∃ o, o.group = ty ∧ c.WriteFails o) →
    (s.call c).dir.hash ty ≠ some (c.stateHash ty)

/-! ## One call -/

variable {s c} {ty : FileType}

theorem storedBy_of_skips (h : s.compiles c ty = false) :
    (s.call c).storedBy ty = s.storedBy ty := by
  simp only [call, h, Bool.false_eq_true, if_false]

/-- **The directory after a call**, group by group: what the call compiles is written, and the rest
stays. -/
theorem dir_call : (s.call c).dir =
    ⟨fun o => if s.compiles c o.group then c.write o (s.dir.file o) else s.dir.file o,
      fun ty => if s.compiles c ty then (c.hashWrite ty).apply (c.stateHash ty) (s.dir.hash ty)
        else s.dir.hash ty⟩ := by
  cases hdirs : c.dirs <;> simp [call, compileLists, compiles, hdirs]

theorem hash_of_skips (h : s.compiles c ty = false) : (s.call c).dir.hash ty = s.dir.hash ty := by
  simp only [dir_call, h, Bool.false_eq_true, if_false]

theorem file_of_skips {o : Output} (h : s.compiles c o.group = false) :
    (s.call c).dir.file o = s.dir.file o := by
  simp only [dir_call, h, Bool.false_eq_true, if_false]

theorem hash_of_compiles (h : s.compiles c ty = true) :
    (s.call c).dir.hash ty = (c.hashWrite ty).apply (c.stateHash ty) (s.dir.hash ty) := by
  simp only [dir_call, h, if_true]

theorem file_of_compiles {o : Output} (h : s.compiles c o.group = true) :
    (s.call c).dir.file o = c.write o (s.dir.file o) := by
  simp only [dir_call, h, if_true]

theorem storedBy_of_stores (h : s.compiles c ty = true)
    (hw : (c.hashWrite ty).stores (c.stateHash ty) = true) : (s.call c).storedBy ty = some c := by
  simp only [call, h, if_true]
  cases hc : c.hashWrite ty with
  | unopened => simp [HashWrite.stores, hc] at hw
  | wrote n =>
    rw [hc] at hw
    simp only [hw, if_true]

/-- **Who has stored the hash after a call.** -/
theorem storedBy_cases {c' : Call} (h : (s.call c).storedBy ty = some c') :
    s.storedBy ty = some c' ∧ (s.compiles c ty = false ∨ c.hashWrite ty = .unopened) ∨
      c' = c ∧ s.compiles c ty = true ∧ (c.hashWrite ty).stores (c.stateHash ty) = true := by
  cases hcomp : s.compiles c ty with
  | false => exact .inl ⟨(storedBy_of_skips hcomp).symm.trans h, .inl rfl⟩
  | true =>
    simp only [call, hcomp, if_true] at h
    cases hw : c.hashWrite ty with
    | unopened =>
      simp only [hw] at h
      exact .inl ⟨h, .inr rfl⟩
    | wrote n =>
      simp only [hw] at h
      split_ifs at h with hstores
      · exact .inr ⟨(Option.some.inj h).symm, rfl, hstores⟩

theorem apply_of_stores {w : HashWrite} {hash : Bytes} (h : w.stores hash = true)
    (old : Option Bytes) : w.apply hash old = some hash := by
  cases w with
  | unopened => simp [HashWrite.stores] at h
  | wrote n => rw [HashWrite.apply, List.take_of_length_le (by simpa [HashWrite.stores] using h)]

/-- **One call keeps what is recorded current.** -/
theorem Recorded.call (h : s.Recorded) (hc : s.Reliable c) : (s.call c).Recorded := by
  intro ty c' hstored
  rcases storedBy_cases hstored with ⟨hbefore, hkept⟩ | ⟨rfl, hcomp, hstores⟩
  · obtain ⟨hhash, hfiles⟩ := h ty c' hbefore
    cases hcomp : s.compiles c ty with
    | false =>
      rw [hash_of_skips hcomp]
      refine ⟨hhash, fun o ho => ?_⟩
      subst ho
      rw [file_of_skips hcomp]
      exact hfiles o rfl
    | true =>
      -- the file with the older hash could not be opened, and there is none
      have hnone := (hc ty hcomp).2 (hkept.resolve_left (by simp [hcomp]))
      rw [hhash] at hnone
      exact absurd hnone (by simp)
  · rw [hash_of_compiles hcomp, apply_of_stores hstores]
    refine ⟨rfl, fun o ho => ⟨c'.unix o, ?_⟩⟩
    have hwritten := (hc ty hcomp).1 hstores o ho
    subst ho
    rw [file_of_compiles hcomp, c'.write_of_not_fails hwritten]

theorem Reliable.withholds (hc : s.Reliable c) : s.Withholds c := by
  rintro ty hcomp ⟨o, ho, hfails⟩ hhash
  have hnot : (c.hashWrite ty).stores (c.stateHash ty) = false := by
    rw [Bool.eq_false_iff]
    exact fun hstores => (hc ty hcomp).1 hstores o ho hfails
  rw [hash_of_compiles hcomp] at hhash
  cases hw : c.hashWrite ty with
  | unopened =>
    rw [hw, HashWrite.apply, (hc ty hcomp).2 hw] at hhash
    exact absurd hhash (by simp)
  | wrote n =>
    rw [hw, HashWrite.apply, Option.some.injEq, List.take_eq_self_iff] at hhash
    simp [hw, HashWrite.stores, hhash] at hnot

end Session

/-! ## Runs -/

/-- **A recorded hash means that the files are current**, and a call that fails to write a file does
not record one, in every run of calls that are `Reliable`. -/
theorem recorded_current (r : ResultDir) {calls : List Call}
    (h : Along Session.call Session.Reliable (Session.start r) calls) :
    (run Session.call (Session.start r) calls).Recorded ∧
      Along Session.call Session.Withholds (Session.start r) calls :=
  ⟨invariant (fun _ _ hs hc => hs.call hc) (by simp [Session.start, Session.Recorded]) h,
    fun x hx => (h x hx).withholds⟩

/-! ## A directory and its calls -/

/-- A call for a list with one network of each family, of which some writes may fail. -/
def plainCall (list : Bytes) (modTime : ℤ) (fails : Output → Step → Bool) : Call where
  sys := plainSystem
  ipset inc exc := inc.filter (· ∉ exc)
  cfg := plainConfig
  resultDir := str "/r"
  disk := AList.singleton (str "/m/include-ips.txt") ⟨list, modTime⟩
  dirs := true
  unix _ := modTime
  fails
  hashWrite _ := .wrote 1000000

def emptyDir : ResultDir := ⟨fun _ => none, fun _ => none⟩

/-- A call in which nothing fails. -/
theorem Session.Reliable.plainCall (s : Session) (list : Bytes) (modTime : ℤ) :
    s.Reliable (plainCall list modTime fun _ _ => false) :=
  fun _ _ => ⟨fun _ _ _ h => by simp [Call.WriteFails, Parser.plainCall] at h,
    fun h => by simp [Parser.plainCall] at h⟩

/-- A list that is changed once. -/
theorem recorded_current_plain :
    let calls := [plainCall (str "1.2.3.4\n::1") 1 fun _ _ => false,
      plainCall (str "5.6.7.8\n::1") 2 fun _ _ => false]
    (run Session.call (Session.start emptyDir) calls).Recorded :=
  (recorded_current emptyDir (by
    simp only [along_cons, along_nil, and_true]
    exact ⟨.plainCall _ _ _, .plainCall _ _ _⟩)).1

/-- The calls of a run in which the list is changed, and the new one cannot be put in its place. -/
def firstCall : Call := plainCall (str "1.2.3.4\n::1") 1 fun _ _ => false

def failingCall : Call :=
  plainCall (str "5.6.7.8\n::1") 2 fun o step => o == .routeIPs false && step == .rename

def laterCall : Call := plainCall (str "5.6.7.8\n::1") 2 fun _ _ => false

/-- **One failure leaves a list that all later calls take for current.** The hash is stored by the
call that fails; the list in place is the old one, and the next call compiles nothing. -/
theorem stale_recorded :
    let s := run Session.call (Session.start emptyDir) [firstCall, failingCall]
    failingCall.WriteFails (.routeIPs false) ∧
    s.storedBy .ips = some failingCall ∧
    s.dir.hash .ips = some (failingCall.stateHash .ips) ∧
    s.dir.file (.routeIPs false) = some (str "1.2.3.4/32\n") ∧
    failingCall.content (.routeIPs false) 2 = str "5.6.7.8/32\n" ∧
    s.compiles laterCall .ips = false ∧ ¬ s.Recorded := by
  intro s
  have hstored : s.storedBy .ips = some failingCall :=
    Session.storedBy_of_stores (by decide +kernel) (by decide +kernel)
  have hold : s.dir.file (.routeIPs false) = some (str "1.2.3.4/32\n") := by decide +kernel
  have hnew (unix : ℤ) : failingCall.content (.routeIPs false) unix = str "5.6.7.8/32\n" := by
    rw [Call.content]
    decide +kernel
  refine ⟨⟨.rename, by decide +kernel, rfl⟩, hstored, by decide +kernel, hold, hnew 2,
    by decide +kernel, fun hrec => ?_⟩
  obtain ⟨unix, hfile⟩ := (hrec .ips failingCall hstored).2 (.routeIPs false) rfl
  rw [hold, hnew] at hfile
  exact absurd hfile (by decide +kernel)

end NextPath.Parser
