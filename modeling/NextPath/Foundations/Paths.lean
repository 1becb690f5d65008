import Mathlib.Algebra.GroupWithZero.Nat
import Mathlib.Data.List.Basic

/-!
# Paths

A path is a text whose components are separated by one character. Resolving a path lexically goes
through its components with a stack: some of them stay where they are (`here`), one goes up (`up`)
and the others are names, which go down.

* `components_rooted`: the components of a rooted path are those it was made of;
* `components_append_sep`: the components of a text with a separator in it;
* `isName_foldl_resolve`: resolving from the root leaves names only;
* `foldl_resolve_of_isName`: names are resolved to themselves.
-/

namespace NextPath.Paths

variable {α : Type*}

/-! ## Components -/

section Components

/-- The rooted path with some components. -/
def rooted (sep : α) (cs : List (List α)) : List α := sep :: [sep].intercalate cs

/-- What can be a component: it is not empty and has no separator. -/
def IsComponent (sep : α) (c : List α) : Prop := c ≠ [] ∧ sep ∉ c

theorem filter_ne_nil_eq_self {sep : α} {cs : List (List α)} (h : ∀ c ∈ cs, IsComponent sep c) :
    cs.filter (· ≠ []) = cs :=
  List.filter_eq_self.2 fun c hc => decide_eq_true (h c hc).1

theorem intercalate_append_singleton {sep : α} {cs : List (List α)} (hne : cs ≠ [])
    (c : List α) : [sep].intercalate (cs ++ [c]) = [sep].intercalate cs ++ sep :: c := by
  induction cs with
  | nil => exact absurd rfl hne
  | cons d cs ih =>
    cases cs with
    | nil => simp [List.intercalate_cons_cons]
    | cons e cs =>
      rw [List.cons_append, List.cons_append, List.intercalate_cons_cons,
        List.intercalate_cons_cons, ← List.cons_append, ih (List.cons_ne_nil e cs)]
      simp

/-- The last separator of a rooted path stands before its last component. -/
theorem rooted_concat (sep : α) (cs : List (List α)) (c : List α) :
    rooted sep (cs ++ [c]) = (if cs = [] then [] else rooted sep cs) ++ sep :: c := by
  split_ifs with hne
  · simp [hne, rooted]
  · rw [rooted, intercalate_append_singleton hne, rooted, List.cons_append]

variable [DecidableEq α] (sep : α)

/-- The components of a path: what stands between the separators, unless it is empty. -/
def components (path : List α) : List (List α) := (path.splitOn sep).filter (· ≠ [])

variable {sep}

/-- What stands between separators has none, and has its characters from the text. -/
theorem of_mem_splitOn {path c : List α} (h : c ∈ path.splitOn sep) : sep ∉ c ∧ c ⊆ path := by
  induction path generalizing c with
  | nil =>
    obtain rfl : c = [] := by simpa using h
    exact ⟨List.not_mem_nil, List.nil_subset _⟩
  | cons x path ih =>
    rw [List.splitOn_cons_eq_if_modifyHead] at h
    obtain ⟨hd, tl, hs⟩ := List.exists_cons_of_ne_nil (List.splitOn_ne_nil sep path)
    rw [hs] at ih h
    by_cases hx : x = sep
    · simp only [hx, beq_self_eq_true, if_true] at h
      rcases List.mem_cons.1 h with rfl | h
      · exact ⟨List.not_mem_nil, List.nil_subset _⟩
      · exact ⟨(ih h).1, List.Subset.trans (ih h).2 (List.subset_cons_self x path)⟩
    · simp only [beq_eq_false_iff_ne.2 hx, Bool.false_eq_true, if_false, List.modifyHead_cons] at h
      rcases List.mem_cons.1 h with rfl | h
      · obtain ⟨hsep, hsub⟩ := ih List.mem_cons_self
        exact ⟨List.not_mem_cons_of_ne_of_not_mem (Ne.symm hx) hsep, List.cons_subset_cons x hsub⟩
      · obtain ⟨hsep, hsub⟩ := ih (List.mem_cons_of_mem hd h)
        exact ⟨hsep, List.Subset.trans hsub (List.subset_cons_self x path)⟩

/-- The parts of a text, and the separators between them, are as many and as long as it is. -/
theorem length_splitOn (path : List α) :
    (path.splitOn sep).length = path.count sep + 1 ∧
      path.length = ((path.splitOn sep).map List.length).sum + path.count sep := by
  induction path with
  | nil => simp
  | cons x path ih =>
    rw [List.splitOn_cons_eq_if_modifyHead]
    obtain ⟨hd, tl, hs⟩ := List.exists_cons_of_ne_nil (List.splitOn_ne_nil sep path)
    rw [hs, List.map_cons, List.sum_cons] at ih
    rw [hs]
    by_cases hx : x = sep
    · simp [hx] at ih ⊢
      omega
    · simp [hx] at ih ⊢
      omega

theorem isComponent_of_mem {path c : List α} (h : c ∈ components sep path) :
    IsComponent sep c := by
  obtain ⟨hc, hne⟩ := List.mem_filter.1 h
  exact ⟨of_decide_eq_true hne, (of_mem_splitOn hc).1⟩

theorem components_append_sep (p q : List α) :
    components sep (p ++ sep :: q) = components sep p ++ components sep q := by
  rw [components, List.splitOn_append_cons_self, List.filter_append]
  rfl

@[simp] theorem components_nil : components sep [] = [] := by
  simp [components]

theorem components_cons_sep (p : List α) : components sep (sep :: p) = components sep p := by
  rw [← List.nil_append (sep :: p), components_append_sep, components_nil, List.nil_append]

theorem components_intercalate {cs : List (List α)} (h : ∀ c ∈ cs, IsComponent sep c) :
    components sep ([sep].intercalate cs) = cs := by
  cases cs with
  | nil => simp [components]
  | cons c cs =>
    rw [components, List.splitOn_intercalate sep (fun l hl => (h l hl).2) (List.cons_ne_nil c cs),
      filter_ne_nil_eq_self h]

/-- **The components of a rooted path** are those it was made of. -/
theorem components_rooted {cs : List (List α)} (h : ∀ c ∈ cs, IsComponent sep c) :
    components sep (rooted sep cs) = cs := by
  rw [rooted, components_cons_sep, components_intercalate h]

end Components

/-! ## Lexical resolution -/

section Resolution

variable [DecidableEq α] (here : List α) (up : α)

/-- One component of a path that is resolved: the stack holds the last component first. Above the
root there is only the root, and above a path that is not rooted one can only go further up. -/
def resolve (isRooted : Bool) (stack : List α) (c : α) : List α :=
  if c ∈ here then stack
  else if c = up then
    match stack with
    | top :: rest => if top = up then c :: stack else rest
    | [] => if isRooted then [] else [c]
  else c :: stack

/-- A component that goes down. -/
def IsName (c : α) : Prop := c ∉ here ∧ c ≠ up

variable {here up}

theorem resolve_of_isName {isRooted : Bool} {stack : List α} {c : α} (h : IsName here up c) :
    resolve here up isRooted stack c = c :: stack := by
  simp only [resolve, if_neg h.1, if_neg h.2]

/-- **Names are resolved to themselves.** -/
theorem foldl_resolve_of_isName {isRooted : Bool} {cs : List α} (h : ∀ c ∈ cs, IsName here up c)
    (stack : List α) : cs.foldl (resolve here up isRooted) stack = cs.reverse ++ stack := by
  induction cs generalizing stack with
  | nil => rfl
  | cons c cs ih =>
    rw [List.foldl_cons, resolve_of_isName (h c List.mem_cons_self),
      ih fun d hd => h d (List.mem_cons_of_mem c hd), List.reverse_cons, List.append_assoc,
      List.singleton_append]

/-- What stays where it is can be left out. -/
theorem foldl_resolve_filter {isRooted : Bool} {p : α → Bool} (hp : ∀ c, p c = false → c ∈ here)
    (cs stack : List α) :
    (cs.filter p).foldl (resolve here up isRooted) stack =
      cs.foldl (resolve here up isRooted) stack := by
  induction cs generalizing stack with
  | nil => rfl
  | cons c cs ih =>
    cases hc : p c with
    | true => rw [List.filter_cons_of_pos hc, List.foldl_cons, List.foldl_cons, ih]
    | false =>
      have hstay : resolve here up isRooted stack c = stack := by
        simp only [resolve, if_pos (hp c hc)]
      rw [List.filter_cons_of_neg (by rw [hc]; exact Bool.false_ne_true), List.foldl_cons, hstay,
        ih]

/-- What is on the stack after a step from the root was there before, or is the component. -/
theorem isName_resolve {stack : List α} (h : ∀ d ∈ stack, IsName here up d) (c : α) :
    ∀ d ∈ resolve here up true stack c, IsName here up d := by
  intro d hd
  simp only [resolve] at hd
  split_ifs at hd with hhere hup
  · exact h d hd
  · cases stack with
    | nil => exact absurd hd List.not_mem_nil
    | cons top rest =>
      simp only [if_neg (h top List.mem_cons_self).2] at hd
      exact h d (List.mem_cons_of_mem top hd)
  · rcases List.mem_cons.1 hd with rfl | hd
    · exact ⟨hhere, hup⟩
    · exact h d hd

/-- **Resolving from the root leaves names only.** -/
theorem isName_foldl_resolve (cs : List α) {stack : List α} (h : ∀ d ∈ stack, IsName here up d) :
    ∀ d ∈ cs.foldl (resolve here up true) stack, IsName here up d := by
  induction cs generalizing stack with
  | nil => exact h
  | cons c cs ih => exact ih (isName_resolve h c)

theorem mem_or_mem_of_mem_foldl_resolve (cs : List α) {stack : List α} {d : α}
    (h : d ∈ cs.foldl (resolve here up true) stack) : d ∈ cs ∨ d ∈ stack := by
  induction cs generalizing stack with
  | nil => exact .inr h
  | cons c cs ih =>
    rcases ih h with h | h
    · exact .inl (List.mem_cons_of_mem c h)
    · simp only [resolve] at h
      split_ifs at h with hhere hup
      · exact .inr h
      · cases stack with
        | nil => exact absurd h List.not_mem_nil
        | cons top rest =>
          simp only at h
          split_ifs at h with htop
          · rcases List.mem_cons.1 h with rfl | h
            · exact .inl List.mem_cons_self
            · exact .inr h
          · exact .inr (List.mem_cons_of_mem top h)
      · rcases List.mem_cons.1 h with rfl | h
        · exact .inl List.mem_cons_self
        · exact .inr h

end Resolution

end NextPath.Paths
