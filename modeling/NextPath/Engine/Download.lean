import NextPath.Parser.Disk

/-!
# Downloading the compiled lists

`downloadRemoteFiles` asks a server for an archive, unless it has not changed since it was last
fetched, and extracts it into a directory. The names in the archive are whatever the server sends:
a name is cleaned, joined to the directory and cleaned again, and what does not start with the
directory is skipped. Each file is written next to its place and renamed.

The model returns the calls made on the file system in their order (`Op`), with what they answer as
an input (`Answers`). `downloadRemoteFiles_cases` says what there is to know of a download without
looking into the extraction.
-/

namespace NextPath.Engine

open Strings NextPath.Parser Net

/-! ## Extraction -/

/-- `filepath.Dir`. -/
def dir (path : Bytes) : Bytes := clean (path.reverse.dropWhile (· ≠ chr '/')).reverse

/-- The types of entries that are told apart: `tar.TypeDir`, `tar.TypeReg` and the others. -/
inductive Typeflag
  | dir
  | reg
  | other
  deriving DecidableEq

/-- `tar.Header`, as far as it is read; the mode as a `FileMode`. -/
structure Header where
  name : Bytes
  typeflag : Typeflag
  size : ℤ
  mode : UInt32

/-- Which calls fail while a file is extracted. -/
structure Answers where
  openErr : Bool
  copyErr : Bool
  syncErr : Bool
  closeErr : Bool
  renameErr : Bool

/-- A call on the file system. -/
inductive Op
  | mkdirAll (path : Bytes)
  | openFile (path : Bytes) (perm : UInt32)
  | copy (path : Bytes)
  | rename (oldpath newpath : Bytes)
  | remove (path : Bytes)
  deriving DecidableEq

/-- The errors of `downloadRemoteFiles`. -/
inductive DownloadError
  | fetch (url : Bytes)
  | status (url : Bytes) (code : ℕ)
  | gzip
  | readHeader
  | createTemp (path : Bytes)
  | tooLarge (name : Bytes) (size : ℤ)
  | copy
  | sync
  | close
  | rename
  deriving DecidableEq

/-- The body of `case tar.TypeReg`. -/
def extractFile (header : Header) (a : Answers) (targetPath : Bytes) :
    List Op × Option DownloadError :=
  let tmpPath := targetPath ++ str ".tmp"
  let opened : List Op := [.mkdirAll (dir targetPath), .openFile tmpPath (header.mode &&& 0o755)]
  if a.openErr then (opened, some (.createTemp tmpPath))
  else if header.size > 500 * 1024 * 1024 then
    (opened ++ [Op.remove tmpPath], some (.tooLarge header.name header.size))
  else if a.copyErr then (opened ++ [Op.copy tmpPath, .remove tmpPath], some .copy)
  else if a.syncErr then (opened ++ [Op.copy tmpPath, .remove tmpPath], some .sync)
  else if a.closeErr then (opened ++ [Op.copy tmpPath, .remove tmpPath], some .close)
  else if a.renameErr then
    (opened ++ [Op.copy tmpPath, .rename tmpPath targetPath, .remove tmpPath], some .rename)
  else (opened ++ [Op.copy tmpPath, .rename tmpPath targetPath], none)

/-- One round of the extraction loop. -/
def extractEntry (targetDir : Bytes) (header : Header) (a : Answers) :
    List Op × Option DownloadError :=
  let cleanedPath := clean header.name
  let targetPath := joinPath [targetDir, cleanedPath]
  if !hasPrefix targetPath (clean targetDir ++ str "/") then ([], none)
  else
    match header.typeflag with
    | .dir => ([.mkdirAll targetPath], none)
    | .reg => extractFile header a targetPath
    | .other => ([], none)

/-- An archive, as `tarReader.Next` delivers it: headers, with what happens while the file is
extracted, or an error; `io.EOF` is the end of the list. -/
abbrev Archive := List (Option (Header × Answers))

/-- The extraction loop. -/
def extractLoop (targetDir : Bytes) : Archive → List Op × Option DownloadError
  | [] => ([], none)
  | none :: _ => ([], some .readHeader)
  | some (header, a) :: archive =>
    match extractEntry targetDir header a with
    | (ops, some e) => (ops, some e)
    | (ops, none) =>
      let (ops', err) := extractLoop targetDir archive
      (ops ++ ops', err)

/-! ## Download -/

/-- What `downloadRemoteFiles` asks for. -/
structure Request where
  url : Bytes
  ifNoneMatch : Option Bytes
  ifModifiedSince : Option Bytes
  deriving DecidableEq

/-- An answer of the server, with the time it is read at; there is no archive if `gzip.NewReader`
rejects the body. -/
structure Response where
  statusCode : ℕ
  etag : Bytes
  lastModified : Bytes
  body : Option Archive
  unixNano : ℕ

/-- A server; there is no answer if the request cannot be made or fails. -/
abbrev Server := Request → Option Response

/-- `archiveURL`. -/
def archiveURL (sourceURL : Bytes) : Bytes :=
  if hasSuffix sourceURL (str ".tar.gz") then sourceURL
  else if hasSuffix sourceURL (str "/") then sourceURL ++ str "result.tar.gz"
  else sourceURL ++ str "/result.tar.gz"

/-- The request, with the validators that are not empty. -/
def request (sourceURL lastETag lastModified : Bytes) : Request where
  url := archiveURL sourceURL
  ifNoneMatch := if lastETag ≠ [] then some lastETag else none
  ifModifiedSince := if lastModified ≠ [] then some lastModified else none

/-- The validators of an answer. -/
def newValidators (resp : Response) : Bytes × Bytes :=
  if resp.etag = [] ∧ resp.lastModified = [] then
    (str "no-cache-" ++ numeral 10 resp.unixNano, resp.lastModified)
  else (resp.etag, resp.lastModified)

/-- `downloadRemoteFiles`: the calls it makes and what it returns. -/
def downloadRemoteFiles (server : Server)
    (sourceURL targetDir lastETag lastModified : Bytes) :
    List Op × Except DownloadError (Bytes × Bytes) :=
  match server (request sourceURL lastETag lastModified) with
  | none => ([], .error (.fetch (archiveURL sourceURL)))
  | some resp =>
    if resp.statusCode = 304 then ([], .ok (lastETag, lastModified))
    else if resp.statusCode ≠ 200 then
      ([], .error (.status (archiveURL sourceURL) resp.statusCode))
    else
      match resp.body with
      | none => ([], .error .gzip)
      | some archive =>
        let (ops, err) := extractLoop targetDir archive
        (.mkdirAll targetDir :: ops,
          match err with
          | some e => .error e
          | none => .ok (newValidators resp))

/-- **What a download does.** It makes no calls, and if it succeeds it returns the validators it was
given; or it extracts the archive of an answer, and if it succeeds returns its validators. -/
theorem downloadRemoteFiles_cases (server : Server)
    (sourceURL targetDir lastETag lastModified : Bytes) {ops : List Op}
    {result : Except DownloadError (Bytes × Bytes)}
    (h : downloadRemoteFiles server sourceURL targetDir lastETag lastModified = (ops, result)) :
    (ops = [] ∧ ∀ pair, result = .ok pair → pair = (lastETag, lastModified)) ∨
      ∃ resp archive, server (request sourceURL lastETag lastModified) = some resp ∧
        ops = .mkdirAll targetDir :: (extractLoop targetDir archive).1 ∧
        ∀ pair, result = .ok pair → pair = newValidators resp := by
  rw [downloadRemoteFiles] at h
  cases hresp : server (request sourceURL lastETag lastModified) with
  | none =>
    simp only [hresp, Prod.mk.injEq] at h
    obtain ⟨rfl, rfl⟩ := h
    exact .inl ⟨rfl, fun pair hok => by cases hok⟩
  | some resp =>
    simp only [hresp] at h
    split_ifs at h
    · obtain ⟨rfl, rfl⟩ := Prod.mk.inj h
      exact .inl ⟨rfl, fun pair hok => (Except.ok.inj hok).symm⟩
    · obtain ⟨rfl, rfl⟩ := Prod.mk.inj h
      exact .inl ⟨rfl, fun pair hok => by cases hok⟩
    · cases hbody : resp.body with
      | none =>
        simp only [hbody, Prod.mk.injEq] at h
        obtain ⟨rfl, rfl⟩ := h
        exact .inl ⟨rfl, fun pair hok => by cases hok⟩
      | some archive =>
        simp only [hbody, Prod.mk.injEq] at h
        obtain ⟨rfl, rfl⟩ := h
        refine .inr ⟨resp, archive, rfl, rfl, fun pair hok => ?_⟩
        cases herr : (extractLoop targetDir archive).2 with
        | some e => simp [herr] at hok
        | none =>
          simp only [herr, Except.ok.injEq] at hok
          exact hok.symm

end NextPath.Engine
