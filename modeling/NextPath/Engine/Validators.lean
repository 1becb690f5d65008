import NextPath.Engine.Download
import NextPath.Foundations.Runs

/-!
# Cache validators

The entity tag and the date that a server gives with a file are sent back with the next request, so
that the server can answer that the file has not changed. They are stored as two lines: next to the
compiled lists in `.etag`, by the updater loop and by a run that only compiles, and next to each
downloaded list in a file `.meta`, by the list compiler. Only the readers of `.etag` trim the text
before they split it, and an empty first line is lost to them:

* `readEtag_twoLines`, `readMeta_twoLines`: what the readers make of the two lines;
* `validators_survive_iff`: a pair survives in both stores if and only if it has an entity tag;
* `reloads_refine`: with servers that give no date alone, the updater loop does over any number of
  reloads what it would do if it kept the validators in memory.
-/

namespace NextPath

open Strings

/-- A value of a header field: no newline in it and no white space around it. -/
structure IsHeaderValue (v : Bytes) : Prop where
  trimSpace_eq : trimSpace v = v
  newline_notMem : chr '\n' ∉ v

/-- What all the writers write. -/
def twoLines (etag lastMod : Bytes) : Bytes := etag ++ str "\n" ++ lastMod

theorem twoLines_eq (etag lastMod : Bytes) :
    twoLines etag lastMod = etag ++ chr '\n' :: lastMod := by
  rw [twoLines, List.append_assoc]
  rfl

/-! ## The downloaded lists -/

namespace Parser

/-- The validators that `downloadOrGetCached` sends, from the content of `.meta`. -/
def readMeta (b : Bytes) : Bytes × Bytes :=
  match splitN (chr '\n') 2 b with
  | [first, second] => (trimSpace first, trimSpace second)
  | _ => ([], [])

/-- What `downloadOrGetCached` leaves in `.meta`: the file is removed if there is no validator. -/
def writeMeta (etag lastMod : Bytes) : Option Bytes :=
  if etag ≠ [] ∨ lastMod ≠ [] then some (twoLines etag lastMod) else none

/-- An answer to the list compiler; `fileErr` says that the body cannot be stored. -/
structure ListResponse where
  statusCode : ℕ
  etag : Bytes
  lastModified : Bytes
  body : Bytes
  fileErr : Bool

/-- `downloadOrGetCached`: the cached file and its `.meta` afterwards, and whether it succeeds. The
validators are sent only if there is something in the cached file (`fileExists`). -/
def downloadOrGetCached (server : Engine.Request → Option ListResponse) (url : Bytes)
    (cached stored : Option Bytes) : Option Bytes × Option Bytes × Bool :=
  let (etag, lastMod) := if cached.any (· ≠ []) then readMeta (stored.getD []) else ([], [])
  match server ⟨url, if etag ≠ [] then some etag else none,
    if lastMod ≠ [] then some lastMod else none⟩ with
  | none => (cached, stored, false)
  | some resp =>
    if resp.statusCode = 304 then (cached, stored, true)
    else if resp.statusCode ≠ 200 then (cached, stored, false)
    else if resp.fileErr then (cached, stored, false)
    else if resp.body = [] then (cached, stored, true)
    else (some resp.body, writeMeta resp.etag resp.lastModified, true)

/-- A list that is not cached is downloaded as in `download`. -/
theorem content?_download_eq (sys : System) {d : Disk} {path : Bytes} (h : d.content? path = none)
    (url etag lastMod : Bytes) (stored : Option Bytes) :
    (download sys d path url).content? path =
      (downloadOrGetCached (fun _ => (sys.get url).map (⟨200, etag, lastMod, ·, false⟩)) url none
        stored).1 := by
  rw [content?_download, if_pos ⟨rfl, h⟩]
  cases hget : sys.get url with
  | none => simp [downloadOrGetCached]
  | some body =>
    by_cases hbody : body = []
    · simp [downloadOrGetCached, hbody, Option.filter]
    · simp [downloadOrGetCached, hbody, Option.filter]

/-- **What is read from `.meta`** is what was written. -/
theorem readMeta_twoLines {etag lastMod : Bytes} (he : IsHeaderValue etag)
    (hm : IsHeaderValue lastMod) : readMeta (twoLines etag lastMod) = (etag, lastMod) := by
  simp only [twoLines_eq, readMeta, splitN_two_append he.newline_notMem, he.trimSpace_eq,
    hm.trimSpace_eq]

theorem map_readMeta_writeMeta {etag lastMod : Bytes} (he : IsHeaderValue etag)
    (hm : IsHeaderValue lastMod) (hne : etag ≠ [] ∨ lastMod ≠ []) :
    (writeMeta etag lastMod).map readMeta = some (etag, lastMod) := by
  rw [writeMeta, if_pos hne, Option.map_some, readMeta_twoLines he hm]

end Parser

namespace Engine

open NextPath.Parser

/-! ## The compiled lists -/

/-- `lastETag` and `lastLastMod`, which `runReload` and the branch for `COMPILE_ONLY` get from the
content of `.etag` by the same lines. -/
def readEtag (b : Bytes) : Bytes × Bytes :=
  let stored := trimSpace b
  match splitN (chr '\n') 2 stored with
  | [first, second] => (trimSpace first, trimSpace second)
  | _ => (stored, [])

/-- Lists are fetched from a server. -/
def isRemote (source : Bytes) : Bool :=
  hasPrefix source (str "http://") || hasPrefix source (str "https://")

/-- What `runReload` leaves in `.etag`: it writes the validators unless they are the stored ones. -/
def storeChanged (file : Option Bytes) (newETag newLastMod : Bytes) : Option Bytes :=
  let (lastETag, lastLastMod) := readEtag (file.getD [])
  if newETag ≠ lastETag ∨ newLastMod ≠ lastLastMod then some (twoLines newETag newLastMod)
  else file

/-- `runReload` of `startUpdaterLoop` for lists that are not compiled here: the calls made by
`downloadRemoteFiles`, and the content of `.etag` afterwards. -/
def runReload (server : Server) (source resultDir : Bytes) (file : Option Bytes) :
    List Op × Option Bytes :=
  if !isRemote source then ([], file)
  else
    let (lastETag, lastLastMod) := readEtag (file.getD [])
    match downloadRemoteFiles server source resultDir lastETag lastLastMod with
    | (ops, .error _) => (ops, file)
    | (ops, .ok (newETag, newLastMod)) => (ops, storeChanged file newETag newLastMod)

/-- The branch for `COMPILE_ONLY`, likewise, with the exit code. -/
def compileOnly (server : Server) (remoteSource resultDir : Bytes) (file : Option Bytes) :
    List Op × Option Bytes × ℕ :=
  if remoteSource ≠ [] ∧ isRemote remoteSource then
    let (lastETag, lastLastMod) := readEtag (file.getD [])
    match downloadRemoteFiles server remoteSource resultDir lastETag lastLastMod with
    | (ops, .error _) => (ops, file, 1)
    | (ops, .ok (newETag, newLastMod)) => (ops, some (twoLines newETag newLastMod), 0)
  else ([], file, 0)

/-- **What is read from `.etag`**: without an entity tag, the date in its place. -/
theorem readEtag_twoLines {etag lastMod : Bytes} (he : IsHeaderValue etag)
    (hm : IsHeaderValue lastMod) :
    readEtag (twoLines etag lastMod) = if etag = [] then (lastMod, []) else (etag, lastMod) := by
  rw [twoLines_eq, readEtag, trimSpace_lines he.trimSpace_eq hm.trimSpace_eq]
  split_ifs with hnil hnil'
  · simp only [splitN_two_of_notMem hm.newline_notMem]
  · simp only [splitN_two_of_notMem he.newline_notMem, hnil']
  · simp only [splitN_two_append he.newline_notMem, he.trimSpace_eq, hm.trimSpace_eq]

/-- After a reload `.etag` holds the validators it got: they are written and read back, or it held
them already. -/
theorem readEtag_storeChanged {file : Option Bytes} {etag lastMod : Bytes}
    (h : readEtag (file.getD []) = (etag, lastMod) ∨
      readEtag (twoLines etag lastMod) = (etag, lastMod)) :
    readEtag ((storeChanged file etag lastMod).getD []) = (etag, lastMod) := by
  rcases hlast : readEtag (file.getD []) with ⟨lastETag, lastLastMod⟩
  simp only [storeChanged, hlast]
  split_ifs with hchanged
  · rcases h with h | h
    · obtain ⟨rfl, rfl⟩ := Prod.mk.inj (hlast.symm.trans h)
      exact absurd hchanged (by simp)
    · rw [Option.getD_some, h]
  · rw [hlast, Prod.mk.injEq]
    exact ⟨(not_not.1 (not_or.1 hchanged).1).symm, (not_not.1 (not_or.1 hchanged).2).symm⟩

/-! ## Pairs that survive -/

/-- A pair of validators is read back as it was stored, by the updater loop whatever it found in
`.etag`, by a run with `COMPILE_ONLY` and by the list compiler, and the two formats agree on it. -/
structure Survives (etag lastMod : Bytes) : Prop where
  updaterLoop : ∀ file : Option Bytes,
    readEtag ((storeChanged file etag lastMod).getD []) = (etag, lastMod)
  compileOnly : readEtag (twoLines etag lastMod) = (etag, lastMod)
  listCompiler : (writeMeta etag lastMod).map readMeta = some (etag, lastMod)
  agree : some (readEtag (twoLines etag lastMod)) = (writeMeta etag lastMod).map readMeta

/-- **Validators survive if and only if there is an entity tag.** -/
theorem validators_survive_iff {etag lastMod : Bytes} (he : IsHeaderValue etag)
    (hm : IsHeaderValue lastMod) (hne : etag ≠ [] ∨ lastMod ≠ []) :
    Survives etag lastMod ↔ etag ≠ [] := by
  have hread := readEtag_twoLines he hm
  constructor
  · intro h hnil
    rw [if_pos hnil, h.compileOnly, Prod.mk.injEq] at hread
    exact hne.elim (fun h => h hnil) fun h => h hread.2
  · intro hetag
    rw [if_neg hetag] at hread
    have hmeta := map_readMeta_writeMeta he hm hne
    exact ⟨fun file => readEtag_storeChanged (.inr hread), hread, hmeta, by rw [hread, hmeta]⟩

/-- The date that stands for a version of the lists. -/
def sampleDate : Bytes := str "Mon, 02 Jan 2006 15:04:05 GMT"

theorem isHeaderValue_sampleDate : IsHeaderValue sampleDate :=
  ⟨by decide +kernel, by decide +kernel⟩

theorem validators_survive_tagged : Survives (str "\"v1\"") sampleDate :=
  (validators_survive_iff ⟨by decide +kernel, by decide +kernel⟩ isHeaderValue_sampleDate
    (by decide)).2 (by decide)

/-- A server that knows its archive by the date only. -/
def datedServer : Server := fun req =>
  if req.ifModifiedSince = some sampleDate then some ⟨304, [], [], none, 0⟩
  else some ⟨200, [], sampleDate, some [], 0⟩

/-- The same with a list. -/
def datedListServer (body : Bytes) (req : Request) : Option ListResponse :=
  if req.ifModifiedSince = some sampleDate then some ⟨304, [], [], [], false⟩
  else some ⟨200, [], sampleDate, body, false⟩

/-- **A date alone does not survive in `.etag`.** It is read back as the entity tag, and every
reload fetches the archive again. The list compiler, given the same answers, keeps its file. -/
theorem date_lost :
    IsHeaderValue [] ∧ IsHeaderValue sampleDate ∧ sampleDate ≠ [] ∧ ¬ Survives [] sampleDate ∧
      readEtag (twoLines [] sampleDate) = (sampleDate, []) ∧
      runReload datedServer (str "http://h") (str "/r") none =
        ([.mkdirAll (str "/r")], some (twoLines [] sampleDate)) ∧
      runReload datedServer (str "http://h") (str "/r") (some (twoLines [] sampleDate)) =
        ([.mkdirAll (str "/r")], some (twoLines [] sampleDate)) ∧
      downloadOrGetCached (datedListServer (str "a.com")) (str "http://h/l") none none =
        (some (str "a.com"), some (twoLines [] sampleDate), true) ∧
      downloadOrGetCached (datedListServer (str "b.com")) (str "http://h/l") (some (str "a.com"))
          (some (twoLines [] sampleDate)) =
        (some (str "a.com"), some (twoLines [] sampleDate), true) := by
  refine ⟨⟨rfl, List.not_mem_nil⟩, isHeaderValue_sampleDate, by decide, fun h => ?_,
    by decide +kernel⟩
  exact absurd h.compileOnly (by decide +kernel)

/-! ## Runs of the updater loop -/

section Reloads

variable (source resultDir : Bytes)

/-- The updater loop: what is in `.etag`, and the calls made so far. -/
structure Updater where
  file : Option Bytes
  calls : List Op

/-- A reload, with the server as it is at that time. -/
def Updater.reload (u : Updater) (server : Server) : Updater :=
  let (ops, file) := runReload server source resultDir u.file
  ⟨file, u.calls ++ ops⟩

/-- What the loop is meant to be: it keeps the validators of the last answer. -/
structure Memory where
  lastETag : Bytes
  lastLastMod : Bytes
  calls : List Op

/-- A reload that keeps the validators. -/
def Memory.reload (m : Memory) (server : Server) : Memory :=
  if !isRemote source then m
  else
    match downloadRemoteFiles server source resultDir m.lastETag m.lastLastMod with
    | (ops, .error _) => { m with calls := m.calls ++ ops }
    | (ops, .ok (newETag, newLastMod)) => ⟨newETag, newLastMod, m.calls ++ ops⟩

/-- The validators in `.etag` are the ones kept, and the calls are the same. -/
def Updater.Refines (u : Updater) (m : Memory) : Prop :=
  readEtag (u.file.getD []) = (m.lastETag, m.lastLastMod) ∧ u.calls = m.calls

/-- The server gives header values, and a date only with an entity tag. -/
def Tagged (server : Server) : Prop :=
  ∀ req resp, server req = some resp →
    IsHeaderValue resp.etag ∧ IsHeaderValue resp.lastModified ∧
      (resp.etag = [] → resp.lastModified = [])

variable {source resultDir}

/-- The validators that are made up for an answer without any are read back. -/
theorem readEtag_noCache (n : ℕ) :
    readEtag (twoLines (str "no-cache-" ++ numeral 10 n) []) =
      (str "no-cache-" ++ numeral 10 n, []) := by
  have hbytes : ∀ c ∈ str "no-cache-" ++ numeral 10 n, 32 < c.toNat ∧ c.toNat < 128 := by
    intro c hc
    rcases List.mem_append.1 hc with hc | hc
    · have hfixed : ∀ c ∈ str "no-cache-", 32 < c.toNat ∧ c.toNat < 128 := by decide +kernel
      exact hfixed c hc
    · obtain ⟨d, hd, rfl⟩ := numeral_digits (by decide) n c hc
      rw [toNat_digitChar (by omega), if_pos hd]
      omega
  have hvalue : IsHeaderValue (str "no-cache-" ++ numeral 10 n) := by
    refine ⟨(solid_of_forall hbytes).trimSpace, fun hmem => ?_⟩
    exact absurd (hbytes _ hmem).1 (by decide)
  rw [readEtag_twoLines hvalue ⟨rfl, List.not_mem_nil⟩, if_neg (by simp [str])]

/-- The validators of an answer are read back. -/
theorem Tagged.readEtag_newValidators {server : Server} (h : Tagged server) {req : Request}
    {resp : Response} (hresp : server req = some resp) :
    readEtag (twoLines (newValidators resp).1 (newValidators resp).2) = newValidators resp := by
  obtain ⟨he, hm, hdate⟩ := h req resp hresp
  rw [newValidators]
  split_ifs with hnone
  · rw [hnone.2]
    exact readEtag_noCache _
  · have hetag : resp.etag ≠ [] := fun hnil => hnone ⟨hnil, hdate hnil⟩
    rw [readEtag_twoLines he hm, if_neg hetag]

/-- **A reload refines the one that keeps the validators.** -/
theorem Updater.Refines.reload {u : Updater} {m : Memory} (h : u.Refines m) {server : Server}
    (hserver : Tagged server) :
    (u.reload source resultDir server).Refines (m.reload source resultDir server) := by
  obtain ⟨hread, hcalls⟩ := h
  rw [Updater.reload, Memory.reload, runReload]
  split_ifs
  · exact ⟨hread, (List.append_nil _).trans hcalls⟩
  · simp only [hread]
    rcases hdown : downloadRemoteFiles server source resultDir m.lastETag m.lastLastMod with
      ⟨ops, e | ⟨newETag, newLastMod⟩⟩
    · exact ⟨hread, by rw [hcalls]⟩
    · refine ⟨readEtag_storeChanged ?_, by rw [hcalls]⟩
      rcases downloadRemoteFiles_cases _ _ _ _ _ hdown with ⟨-, hsame⟩ | ⟨resp, _, hresp, -, hnew⟩
      · exact .inl (hread.trans (hsame _ rfl).symm)
      · have hback := hserver.readEtag_newValidators hresp
        rw [← hnew _ rfl] at hback
        exact .inr hback

/-- **The updater loop refines the one that keeps the validators**, over any number of reloads with
servers that never give a date alone: it makes the same calls. -/
theorem reloads_refine (servers : List Server) (hservers : ∀ server ∈ servers, Tagged server) :
    (Runs.run (Updater.reload source resultDir) ⟨none, []⟩ servers).Refines
      (Runs.run (Memory.reload source resultDir) ⟨[], [], []⟩ servers) :=
  Runs.simulation (fun _ _ _ h hserver => h.reload hserver) ⟨rfl, rfl⟩ hservers

end Reloads

end Engine

end NextPath
