import NextPath.Engine.Download
import NextPath.Foundations.Paths

/-!
# Where an archive is extracted

The test that `downloadRemoteFiles` makes on the path of an entry is on its characters. What it
says about the components of the path, and of the paths derived from it, rests on the path being
clean: `filepath.Clean` resolves the components of an absolute path from the root, as in
`Foundations.Paths`.

* `components_clean`: a clean absolute path has no empty, `.` or `..` component;
* `exists_of_guard`: a path that passes the test is the directory, followed by components;
* `extraction_stays_inside`: all the calls are about the directory and what is below it.
-/

namespace NextPath.Engine

open Strings NextPath.Parser Net Paths

/-! ## Clean absolute paths -/

/-- The components of a path. -/
abbrev comps (path : Bytes) : List Bytes := components (chr '/') path

/-- A component of a clean absolute path. -/
def IsEntry (c : Bytes) : Prop :=
  IsComponent (chr '/') c ∧ IsName [[], str "."] (str "..") c

theorem cleanStep_eq (isRooted : Bool) :
    cleanStep isRooted = resolve [[], str "."] (str "..") isRooted := by
  funext stack c
  cases stack <;> simp [cleanStep, resolve]

/-- `filepath.Clean` on an absolute path resolves its components from the root. -/
theorem clean_of_absolute {path : Bytes} (h : hasPrefix path (str "/") = true) :
    clean path = rooted (chr '/')
      ((comps path).foldl (resolve [[], str "."] (str "..") true) []).reverse := by
  have hfold : (comps path).foldl (resolve [[], str "."] (str "..") true) [] =
      (path.splitOn (chr '/')).foldl (resolve [[], str "."] (str "..") true) [] :=
    foldl_resolve_filter (fun c hc => List.mem_cons.2 (.inl (by simpa using hc))) _ _
  simp only [clean, h, if_true, cleanStep_eq, joinWith, hfold, rooted]

theorem absolute_rooted (cs : List Bytes) : hasPrefix (rooted (chr '/') cs) (str "/") = true :=
  hasPrefix_iff.2 (List.prefix_cons_inj (chr '/') |>.2 List.nil_prefix)

/-- **A clean absolute path** is its components, none of which is empty, `.` or `..`. -/
theorem components_clean {path : Bytes} (h : hasPrefix path (str "/") = true) :
    (∀ c ∈ comps (clean path), IsEntry c) ∧ clean path = rooted (chr '/') (comps (clean path)) := by
  rw [clean_of_absolute h]
  set stack := (comps path).foldl (resolve [[], str "."] (str "..") true) [] with hstack
  have hentry : ∀ c ∈ stack.reverse, IsEntry c := by
    intro c hc
    rw [List.mem_reverse, hstack] at hc
    refine ⟨?_, isName_foldl_resolve (comps path) (by simp) c hc⟩
    exact isComponent_of_mem ((mem_or_mem_of_mem_foldl_resolve _ hc).resolve_right
      List.not_mem_nil)
  rw [comps, components_rooted fun c hc => (hentry c hc).1]
  exact ⟨hentry, rfl⟩

theorem clean_of_isEntry {path : Bytes} (h : hasPrefix path (str "/") = true)
    (hcs : ∀ c ∈ comps path, IsEntry c) : clean path = rooted (chr '/') (comps path) := by
  rw [clean_of_absolute h, foldl_resolve_of_isName fun c hc => (hcs c hc).2, List.append_nil,
    List.reverse_reverse]

theorem dir_rooted {cs : List Bytes} {c : Bytes} (h : ∀ d ∈ cs ++ [c], IsEntry d) :
    dir (rooted (chr '/') (cs ++ [c])) = rooted (chr '/') cs := by
  have hcs : ∀ d ∈ cs, IsEntry d := fun d hd => h d (List.mem_append_left [c] hd)
  have hslash : chr '/' ∉ c := (h c (by simp)).1.2
  -- what is left of the path ends in its last slash
  obtain ⟨front, hfront⟩ : ∃ front, front = if cs = [] then [] else rooted (chr '/') cs := ⟨_, rfl⟩
  have hcut : ((rooted (chr '/') (cs ++ [c])).reverse.dropWhile (· ≠ chr '/')).reverse =
      front ++ [chr '/'] := by
    rw [rooted_concat, ← hfront, List.reverse_append, List.reverse_cons, List.append_assoc,
      List.singleton_append, List.dropWhile_append_of_pos, List.dropWhile_cons_of_neg (by simp)]
    · simp
    · intro x hx
      exact decide_eq_true fun e => hslash (e ▸ List.mem_reverse.1 hx)
  have hcomps : comps (front ++ [chr '/']) = cs := by
    rw [comps, components_append_sep, components_nil, List.append_nil, hfront]
    split_ifs with hnil
    · rw [components_nil, hnil]
    · exact components_rooted fun d hd => (hcs d hd).1
  have habs : hasPrefix (front ++ [chr '/']) (str "/") = true := by
    rw [hfront]
    split_ifs
    · rfl
    · exact hasPrefix_iff.2 ((hasPrefix_iff.1 (absolute_rooted cs)).trans (List.prefix_append _ _))
  rw [dir, hcut, clean_of_isEntry habs (by rwa [hcomps]), hcomps]

/-! ## What the calls are about -/

/-- The paths a call is given. -/
def Op.paths : Op → List Bytes
  | .mkdirAll path => [path]
  | .openFile path _ => [path]
  | .copy path => [path]
  | .rename oldpath newpath => [oldpath, newpath]
  | .remove path => [path]

/-- A path and the directories above it, up to the root. -/
def ancestors (path : Bytes) : List Bytes := (comps path).inits.reverse.map (rooted (chr '/'))

/-- The directories that a call may make, given those that are there: `os.MkdirAll` makes those on
the way to its path, from the last one that is there. -/
def Op.made (isDir : Bytes → Bool) : Op → List Bytes
  | .mkdirAll path => (ancestors path).takeWhile (!isDir ·)
  | _ => []

/-- The path lies below the directory. -/
def StrictlyInside (targetDir path : Bytes) : Prop :=
  hasPrefix path (str "/") = true ∧ ∃ rest, rest ≠ [] ∧ comps path = comps targetDir ++ rest

/-- The path is the directory or lies below it, and has no `..` in it. -/
def Inside (targetDir path : Bytes) : Prop :=
  (path = targetDir ∨ StrictlyInside targetDir path) ∧ str ".." ∉ comps path

/-- An absolute path that `filepath.Clean` leaves as it is. -/
structure CleanAbsolute (path : Bytes) : Prop where
  absolute : hasPrefix path (str "/") = true
  clean_eq : clean path = path

section Inside

variable {targetDir : Bytes}

theorem CleanAbsolute.isEntry (h : CleanAbsolute targetDir) :
    ∀ c ∈ comps targetDir, IsEntry c := by
  have hentry := (components_clean h.absolute).1
  rwa [h.clean_eq] at hentry

theorem CleanAbsolute.eq_rooted (h : CleanAbsolute targetDir) :
    targetDir = rooted (chr '/') (comps targetDir) := by
  have hrooted := (components_clean h.absolute).2
  rwa [h.clean_eq] at hrooted

theorem inside_rooted (h : CleanAbsolute targetDir) {rest : List Bytes}
    (hrest : ∀ c ∈ rest, IsEntry c) :
    Inside targetDir (rooted (chr '/') (comps targetDir ++ rest)) := by
  have hall : ∀ c ∈ comps targetDir ++ rest, IsEntry c := fun c hc =>
    (List.mem_append.1 hc).elim (h.isEntry c) (hrest c)
  have hcomps := components_rooted fun c hc => (hall c hc).1
  refine ⟨?_, fun hdots => ?_⟩
  · by_cases hnil : rest = []
    · left
      rw [hnil, List.append_nil, ← h.eq_rooted]
    · exact .inr ⟨absolute_rooted _, rest, hnil, hcomps⟩
  · rw [comps, hcomps] at hdots
    exact (hall _ hdots).2.2 rfl

/-- **A path that passes the test** is the directory followed by components. -/
theorem exists_of_guard (h : CleanAbsolute targetDir) {name : Bytes}
    (hguard : hasPrefix (joinPath [targetDir, name]) (clean targetDir ++ str "/") = true) :
    ∃ cs c, joinPath [targetDir, name] = rooted (chr '/') (comps targetDir ++ (cs ++ [c])) ∧
      ∀ d ∈ cs ++ [c], IsEntry d := by
  have hne : targetDir ≠ [] := by
    rintro rfl
    exact absurd h.absolute (by decide)
  have hjoin : joinPath [targetDir, name] = clean (targetDir ++ chr '/' :: name) := by
    simp [joinPath, hne, joinWith, List.intercalate_cons_cons]
  have habs : hasPrefix (targetDir ++ chr '/' :: name) (str "/") = true :=
    hasPrefix_iff.2 ((hasPrefix_iff.1 h.absolute).trans (List.prefix_append _ _))
  obtain ⟨hentry, hrooted⟩ := components_clean habs
  rw [← hjoin] at hentry hrooted
  rw [h.clean_eq, hasPrefix_iff] at hguard
  obtain ⟨z, hz⟩ := hguard
  have hcomps : comps (joinPath [targetDir, name]) = comps targetDir ++ comps z := by
    rw [← hz, List.append_assoc]
    exact components_append_sep _ _
  -- something follows the slash, or the path would be as long as the directory
  have hz' : comps z ≠ [] := by
    intro hnil
    rw [hnil, List.append_nil] at hcomps
    rw [hcomps, ← h.eq_rooted] at hrooted
    have hlen := congrArg List.length (hz.trans hrooted)
    simp [str] at hlen
  obtain ⟨cs, c, hsplit⟩ := (List.eq_nil_or_concat (comps z)).resolve_left hz'
  rw [List.concat_eq_append] at hsplit
  rw [hsplit] at hcomps
  rw [hcomps] at hrooted hentry
  exact ⟨cs, c, hrooted, fun d hd => hentry d (List.mem_append_right _ hd)⟩

theorem ancestors_rooted {cs : List Bytes} (h : ∀ c ∈ cs, IsComponent (chr '/') c) :
    ancestors (rooted (chr '/') cs) = cs.inits.reverse.map (rooted (chr '/')) := by
  rw [ancestors, comps, components_rooted h]

theorem ancestors_eq_cons (h : CleanAbsolute targetDir) :
    ∃ above, ancestors targetDir = targetDir :: above := by
  rw [h.eq_rooted, ancestors_rooted fun c hc => (h.isEntry c hc).1]
  rcases List.eq_nil_or_concat (comps targetDir) with hnil | ⟨cs, c, hcs⟩
  · exact ⟨[], by rw [hnil]; rfl⟩
  · refine ⟨cs.inits.reverse.map (rooted (chr '/')), ?_⟩
    rw [hcs, List.concat_eq_append, List.inits_append]
    simp

/-- The directories on the way to a path below the directory, from the path up, come to the
directory and then to those above it. -/
theorem ancestors_append (h : CleanAbsolute targetDir) {rest : List Bytes}
    (hrest : ∀ c ∈ rest, IsEntry c) :
    ∃ inner, ancestors (rooted (chr '/') (comps targetDir ++ rest)) = inner ++ ancestors targetDir ∧
      ∀ p ∈ inner, Inside targetDir p := by
  have hall : ∀ c ∈ comps targetDir ++ rest, IsComponent (chr '/') c := fun c hc =>
    ((List.mem_append.1 hc).elim (h.isEntry c) (hrest c)).1
  rw [ancestors_rooted hall, List.inits_append, List.reverse_append, List.map_append]
  refine ⟨_, rfl, fun p hp => ?_⟩
  simp only [List.mem_map, List.mem_reverse] at hp
  obtain ⟨_, ⟨cs, hcs, rfl⟩, rfl⟩ := hp
  have hpre : cs <+: rest := (List.mem_inits cs rest).1 (List.mem_of_mem_tail hcs)
  exact inside_rooted h fun c hc => hrest c (hpre.subset hc)

theorem mem_of_mem_takeWhile {α : Type} {p : α → Bool} {x y : α} {l r : List α}
    (hx : p x = false) (hy : y ∈ (l ++ x :: r).takeWhile p) : y ∈ l := by
  induction l with
  | nil =>
    rw [List.nil_append, List.takeWhile_cons_of_neg (by rw [hx]; exact Bool.false_ne_true)] at hy
    exact absurd hy List.not_mem_nil
  | cons z l ih =>
    rw [List.cons_append, List.takeWhile_cons] at hy
    split_ifs at hy
    · rcases List.mem_cons.1 hy with rfl | hy
      · exact List.mem_cons_self
      · exact List.mem_cons_of_mem z (ih hy)
    · exact absurd hy List.not_mem_nil

/-- What a call may do: all its paths are in the directory, and so are the directories it makes,
those above the directory apart, which it makes only if the directory is not there. -/
def Op.Confined (targetDir : Bytes) (op : Op) : Prop :=
  (∀ p ∈ op.paths, Inside targetDir p) ∧
    ∀ isDir : Bytes → Bool, ∀ p ∈ op.made isDir,
      (isDir targetDir = true → Inside targetDir p) ∧
        str ".." ∉ comps p ∧ (Inside targetDir p ∨ p ∈ ancestors targetDir)

theorem confined_of_made {op : Op} (hpaths : ∀ p ∈ op.paths, Inside targetDir p)
    (hmade : ∀ isDir, op.made isDir = []) : op.Confined targetDir :=
  ⟨hpaths, fun isDir p hp => absurd hp (by rw [hmade isDir]; exact List.not_mem_nil)⟩

theorem notMem_of_mem_ancestors (h : CleanAbsolute targetDir) {p : Bytes}
    (hp : p ∈ ancestors targetDir) : str ".." ∉ comps p := by
  simp only [ancestors, List.mem_map, List.mem_reverse, List.mem_inits] at hp
  obtain ⟨cs, hpre, rfl⟩ := hp
  rw [comps, components_rooted fun c hc => (h.isEntry c (hpre.subset hc)).1]
  exact fun hdots => (h.isEntry _ (hpre.subset hdots)).2.2 rfl

theorem confined_mkdirAll (h : CleanAbsolute targetDir) {rest : List Bytes}
    (hrest : ∀ c ∈ rest, IsEntry c) :
    (Op.mkdirAll (rooted (chr '/') (comps targetDir ++ rest))).Confined targetDir := by
  refine ⟨fun p hp => ?_, fun isDir p hp => ?_⟩
  · rw [List.mem_singleton.1 hp]
    exact inside_rooted h hrest
  · obtain ⟨inner, hway, hinner⟩ := ancestors_append h hrest
    rw [Op.made, hway] at hp
    rcases List.mem_append.1 ((List.takeWhile_prefix _).subset hp) with hin | habove
    · exact ⟨fun _ => hinner p hin, (hinner p hin).2, .inl (hinner p hin)⟩
    · refine ⟨fun hdir => ?_, notMem_of_mem_ancestors h habove, .inr habove⟩
      -- the way up ends at the directory if it is there
      obtain ⟨above, hcons⟩ := ancestors_eq_cons h
      rw [hcons] at hp
      exact hinner p (mem_of_mem_takeWhile (by rw [hdir, Bool.not_true]) hp)

/-! ## The calls of a run -/

/-- The file beside a path: only the last component changes. -/
theorem rooted_append_tmp (cs : List Bytes) (c : Bytes) :
    rooted (chr '/') (cs ++ [c]) ++ str ".tmp" = rooted (chr '/') (cs ++ [c ++ str ".tmp"]) := by
  rw [rooted_concat, rooted_concat, List.append_assoc, List.cons_append]

theorem isEntry_append_tmp {c : Bytes} (h : IsEntry c) : IsEntry (c ++ str ".tmp") := by
  -- it is longer than all that is no name
  have hne {d : Bytes} (hd : d.length < 4) : c ++ str ".tmp" ≠ d := by
    intro he
    have hlen : (c ++ str ".tmp").length = c.length + 4 := List.length_append
    rw [he] at hlen
    omega
  refine ⟨⟨hne (by decide), fun hslash => ?_⟩, fun hmem => ?_, hne (by decide)⟩
  · rcases List.mem_append.1 hslash with hc | htmp
    · exact h.1.2 hc
    · exact absurd htmp (by decide)
  · rcases List.mem_cons.1 hmem with he | hmem
    · exact hne (by decide) he
    · exact hne (by decide) (List.mem_singleton.1 hmem)

/-- The calls for a file are about its directory, the file beside it and the file. -/
theorem mem_extractFile {header : Header} {a : Answers} {targetPath : Bytes} {op : Op}
    (h : op ∈ (extractFile header a targetPath).1) :
    op = .mkdirAll (dir targetPath) ∨
      (∀ isDir, op.made isDir = []) ∧
        ∀ p ∈ op.paths, p = targetPath ++ str ".tmp" ∨ p = targetPath := by
  simp only [extractFile] at h
  split_ifs at h <;>
    simp only [List.mem_append, List.mem_cons, List.not_mem_nil, or_false, or_assoc] at h <;>
    rcases h with rfl | rfl | rfl | rfl | rfl <;> simp [Op.made, Op.paths]

theorem confined_extractEntry (h : CleanAbsolute targetDir) (header : Header) (a : Answers) :
    ∀ op ∈ (extractEntry targetDir header a).1, op.Confined targetDir := by
  intro op hop
  simp only [extractEntry] at hop
  split_ifs at hop with hguard
  · exact absurd hop List.not_mem_nil
  · rw [Bool.not_eq_true', Bool.not_eq_false] at hguard
    obtain ⟨cs, c, hpath, hentry⟩ := exists_of_guard h hguard
    have hcs : ∀ d ∈ cs, IsEntry d := fun d hd => hentry d (List.mem_append_left [c] hd)
    rw [hpath] at hop
    cases htype : header.typeflag with
    | dir =>
      simp only [htype, List.mem_singleton] at hop
      rw [hop]
      exact confined_mkdirAll h hentry
    | other =>
      simp only [htype] at hop
      exact absurd hop List.not_mem_nil
    | reg =>
      simp only [htype] at hop
      rcases mem_extractFile hop with rfl | ⟨hmade, hpaths⟩
      · rw [← List.append_assoc, dir_rooted]
        · exact confined_mkdirAll h hcs
        · rw [List.append_assoc]
          exact fun d hd => (List.mem_append.1 hd).elim (h.isEntry d) (hentry d)
      · refine confined_of_made (fun p hp => ?_) hmade
        rcases hpaths p hp with rfl | rfl
        · rw [← List.append_assoc, rooted_append_tmp, List.append_assoc]
          refine inside_rooted h fun d hd => ?_
          rcases List.mem_append.1 hd with hd | hd
          · exact hcs d hd
          · rw [List.mem_singleton.1 hd]
            exact isEntry_append_tmp (hentry c (by simp))
        · exact inside_rooted h hentry

/-- **Every round of the loop stays in the directory**, and so does the loop. -/
theorem confined_extractLoop (h : CleanAbsolute targetDir) (archive : Archive) :
    ∀ op ∈ (extractLoop targetDir archive).1, op.Confined targetDir := by
  induction archive with
  | nil => exact fun op hop => absurd hop List.not_mem_nil
  | cons next archive ih =>
    intro op hop
    cases next with
    | none => exact absurd hop List.not_mem_nil
    | some entry =>
      obtain ⟨header, a⟩ := entry
      have hentry := confined_extractEntry h header a
      rw [extractLoop] at hop
      rcases hcase : extractEntry targetDir header a with ⟨ops, err⟩
      rw [hcase] at hop hentry
      cases err with
      | some e => exact hentry op hop
      | none =>
        rcases List.mem_append.1 hop with hop | hop
        · exact hentry op hop
        · exact ih op hop

/-- **Extraction stays in the target directory.** Whatever the server sends, every path that
`downloadRemoteFiles` hands to the file system is the target directory or lies below it and has no
`..` component. So do the directories that `os.MkdirAll` makes on the way to such a path, if the
target directory is there; if it is not, those above it that are missing are made as well. -/
theorem extraction_stays_inside (h : CleanAbsolute targetDir) (server : Server)
    (sourceURL lastETag lastModified : Bytes) :
    ∀ op ∈ (downloadRemoteFiles server sourceURL targetDir lastETag lastModified).1,
      (∀ p ∈ op.paths, Inside targetDir p) ∧
        ∀ isDir : Bytes → Bool, ∀ p ∈ op.made isDir,
          (isDir targetDir = true → Inside targetDir p) ∧
            str ".." ∉ comps p ∧ (Inside targetDir p ∨ p ∈ ancestors targetDir) := by
  intro op hop
  rcases hdown : downloadRemoteFiles server sourceURL targetDir lastETag lastModified with
    ⟨ops, result⟩
  rw [hdown] at hop
  rcases downloadRemoteFiles_cases _ _ _ _ _ hdown with ⟨rfl, -⟩ | ⟨resp, archive, -, rfl, -⟩
  · exact absurd hop List.not_mem_nil
  · rcases List.mem_cons.1 hop with rfl | hop
    · have hself := confined_mkdirAll h (List.forall_mem_nil IsEntry)
      rwa [List.append_nil, ← h.eq_rooted] at hself
    · exact confined_extractLoop h archive op hop

end Inside

/-- An archive with names that try to leave the directory, one of them for a directory whose name
starts like it, and two that stay. -/
def hostileArchive : Archive :=
  let no : Answers := ⟨false, false, false, false, false⟩
  [some (⟨str "../../etc/passwd", .reg, 1, 0o644⟩, no), some (⟨str "..", .dir, 0, 0o755⟩, no),
    some (⟨str "../result-old/x", .reg, 1, 0o644⟩, no), some (⟨[], .dir, 0, 0o755⟩, no),
    some (⟨str "/etc/./hosts", .reg, 1, 0o777⟩, no), some (⟨str "a//../b/", .dir, 0, 0o755⟩, no)]

def hostileServer : Server := fun _ =>
  some ⟨200, str "v1", [], some hostileArchive, 0⟩

/-- The first four names are skipped. -/
theorem extraction_stays_inside_hostile :
    (downloadRemoteFiles hostileServer (str "http://h") (str "/app/result") [] []).1 =
        [.mkdirAll (str "/app/result"), .mkdirAll (str "/app/result/etc"),
          .openFile (str "/app/result/etc/hosts.tmp") 0o755,
          .copy (str "/app/result/etc/hosts.tmp"),
          .rename (str "/app/result/etc/hosts.tmp") (str "/app/result/etc/hosts"),
          .mkdirAll (str "/app/result/b")] ∧
      ∀ op ∈ (downloadRemoteFiles hostileServer (str "http://h") (str "/app/result") [] []).1,
        ∀ p ∈ op.paths, Inside (str "/app/result") p := by
  refine ⟨by decide +kernel, fun op hop => ?_⟩
  exact (extraction_stays_inside ⟨by decide, by decide +kernel⟩ hostileServer _ _ _ op hop).1

end NextPath.Engine
