import Mathlib.Data.List.Infix
import NextPath.Foundations.Bytes

/-!
# Lua patterns

The patterns of `string.match`, `string.find` and `string.gmatch` of Lua 5.1, without back
references, `%b`, `%f` and captures of a position. A pattern is kept as its text and read by
`compile`. A repetition belongs to the single character or class before it: after the end of a
capture `?` is a character like any other.

The matcher `exec` goes through the items of a pattern and tries a repetition from its longest or
its shortest expansion on.

* `isSome_exec_iff`: it finds a match exactly if there is one (`Accepts`).
* `mem_of_accepts`: the characters that a pattern names are in every text it matches.
* `isInfix_of_mem_stringMatch`: what is captured is a part of the subject.
* `firsts_run`: `([…]+)` gives the longest parts that consist of characters of the set.
-/

namespace NextPath.Lua

/-! ## Classes -/

/-- A character between two others. -/
def between (lo hi : Char) (c : UInt8) : Bool := chr lo ≤ c && c ≤ chr hi

def isLetter (c : UInt8) : Bool := between 'a' 'z' c || between 'A' 'Z' c

def isSpace (c : UInt8) : Bool := c == 0x20 || (0x09 ≤ c && c ≤ 0x0d)

def isControl (c : UInt8) : Bool := c < 0x20 || c == 0x7f

/-- The classes that have a letter. -/
def classes : List (Char × (UInt8 → Bool)) :=
  [('a', isLetter), ('c', isControl), ('d', between '0' '9'), ('l', between 'a' 'z'),
    ('p', fun c => 0x20 < c && c < 0x7f && !isLetter c && !between '0' '9' c), ('s', isSpace),
    ('u', between 'A' 'Z'), ('w', fun c => isLetter c || between '0' '9' c),
    ('x', fun c => between '0' '9' c || between 'a' 'f' c || between 'A' 'F' c),
    ('z', (· == 0))]

/-- `%` and a character: a class, what is outside a class for a capital letter, and otherwise the
character. -/
def escaped (l c : UInt8) : Bool :=
  match classes.find? fun k => chr k.1 == l with
  | some k => k.2 c
  | none =>
    match classes.find? fun k => chr k.1.toUpper == l with
    | some k => !k.2 c
    | none => l == c

/-- An element of a set. -/
inductive Element
  | char (c : UInt8)
  | escape (l : UInt8)
  | range (lo hi : UInt8)
  deriving DecidableEq

def Element.holds : Element → UInt8 → Bool
  | char a, c => a == c
  | escape l, c => escaped l c
  | range lo hi, c => lo ≤ c && c ≤ hi

/-- What stands for a single character. -/
inductive Class
  | any
  | char (c : UInt8)
  | escape (l : UInt8)
  | set (negated : Bool) (elements : List Element)
  deriving DecidableEq

def Class.holds : Class → UInt8 → Bool
  | any, _ => true
  | char a, c => a == c
  | escape l, c => escaped l c
  | set negated elements, c => elements.any (·.holds c) != negated

/-- An item of a pattern. -/
inductive Item
  | one (k : Class)
  /-- `k?` -/
  | opt (k : Class)
  /-- `k*` -/
  | star (k : Class)
  /-- `k+` -/
  | plus (k : Class)
  /-- `k-` -/
  | least (k : Class)
  | opens
  | closes
  /-- `$` at the end. -/
  | atEnd
  deriving DecidableEq

structure Pattern where
  anchored : Bool
  items : List Item
  deriving DecidableEq

/-! ## Reading a pattern -/

/-- The first element of a set, and what follows. A hyphen before the bracket is itself. -/
def element : Bytes → Option (Element × Bytes)
  | 0x25 :: l :: p => some (.escape l, p)
  | a :: 0x2d :: b :: p => if b == chr ']' then some (.char a, 0x2d :: b :: p)
    else some (.range a b, p)
  | a :: p => some (.char a, p)
  | [] => none

/-- The elements up to the bracket that closes the set; the first one may be a bracket itself. -/
def elements : ℕ → Bytes → Option (List Element × Bytes)
  | 0, _ => none
  | n + 1, p => do
    let (e, p) ← element p
    match p with
    | 0x5d :: p => some ([e], p)
    | p => do
      let (es, p) ← elements n p
      some (e :: es, p)

/-- The class at the start of a pattern, and what follows. -/
def single : Bytes → Option (Class × Bytes)
  | 0x2e :: p => some (.any, p)
  | [0x25] => none
  | 0x25 :: l :: p => if between '0' '9' l || l == chr 'b' || l == chr 'f' then none
    else some (.escape l, p)
  | 0x5b :: 0x5e :: p => (elements p.length p).map fun (es, p) => (.set true es, p)
  | 0x5b :: p => (elements p.length p).map fun (es, p) => (.set false es, p)
  | c :: p => some (.char c, p)
  | [] => none

/-- A class with the repetition after it, and what follows. -/
def repetition (k : Class) : Bytes → Item × Bytes
  | 0x3f :: p => (.opt k, p)
  | 0x2a :: p => (.star k, p)
  | 0x2b :: p => (.plus k, p)
  | 0x2d :: p => (.least k, p)
  | p => (.one k, p)

/-- The items of a pattern; the fuel is its length. -/
def items : ℕ → Bytes → Option (List Item)
  | _, [] => some []
  | 0, _ => none
  | _ + 1, 0x28 :: 0x29 :: _ => none
  | n + 1, 0x28 :: p => (items n p).map (.opens :: ·)
  | n + 1, 0x29 :: p => (items n p).map (.closes :: ·)
  | _ + 1, [0x24] => some [.atEnd]
  | n + 1, p => do
    let (k, p) ← single p
    let (item, p) := repetition k p
    (items n p).map (item :: ·)

/-- Reads a pattern, which ends at a zero byte. -/
def compile (p : Bytes) : Option Pattern :=
  match p.takeWhile (· ≠ 0) with
  | 0x5e :: p => (items p.length p).map (⟨true, ·⟩)
  | p => (items p.length p).map (⟨false, ·⟩)

/-! ## Matching -/

/-- A capture: the subject from where it begins on, and its text once it is closed. -/
structure Capture where
  start : Bytes
  text : Option Bytes

/-- The capture opened last that is not closed is closed before `rest`. -/
def close (rest : Bytes) : List Capture → List Capture
  | [] => []
  | c :: cs =>
    if c.text.isNone then ⟨c.start, some (c.start.take (c.start.length - rest.length))⟩ :: cs
    else c :: close rest cs

/-- What can follow a repetition of a class, the longest repetition first. -/
def expansions (k : Class) : Bytes → List Bytes
  | [] => [[]]
  | c :: s => if k.holds c then expansions k s ++ [c :: s] else [c :: s]

/-- A character of a class, and then `f`. -/
def next {α : Type} (k : Class) (f : Bytes → Option α) : Bytes → Option α
  | [] => none
  | c :: s => if k.holds c then f s else none

/-- What follows a match at the start of the subject, and the captures, the last one first. -/
def exec : List Item → Bytes → List Capture → Option (Bytes × List Capture)
  | [], s, caps => some (s, caps)
  | .one k :: p, s, caps => next k (fun t => exec p t caps) s
  | .opt k :: p, s, caps => (next k (fun t => exec p t caps) s).or (exec p s caps)
  | .star k :: p, s, caps => (expansions k s).findSome? fun t => exec p t caps
  | .plus k :: p, s, caps =>
    next k (fun u => (expansions k u).findSome? fun t => exec p t caps) s
  | .least k :: p, s, caps => (expansions k s).reverse.findSome? fun t => exec p t caps
  | .opens :: p, s, caps => exec p s (⟨s, none⟩ :: caps)
  | .closes :: p, s, caps => exec p s (close s caps)
  | .atEnd :: p, s, caps => if s = [] then exec p s caps else none

/-- A match. -/
structure Found where
  text : Bytes
  captures : List Bytes
  rest : Bytes

/-- The values a match returns. -/
def Found.values (f : Found) : List Bytes := if f.captures = [] then [f.text] else f.captures

/-- A match at the start of the subject. -/
def here (p : List Item) (s : Bytes) : Option Found :=
  (exec p s []).map fun (rest, caps) =>
    ⟨s.take (s.length - rest.length), caps.reverse.map (·.text.getD []), rest⟩

/-- The first match. -/
def search (p : Pattern) (s : Bytes) : Option Found :=
  if p.anchored then here p.items s else s.tails.findSome? (here p.items)

/-- `string.match`. A pattern that is not well formed is an error, which nothing below makes. -/
def stringMatch (s p : Bytes) : Option (List Bytes) :=
  (compile p).bind fun p => (search p s).map Found.values

/-- One match after the other; the fuel is more than the length of the subject. -/
def gmatchFrom (p : List Item) : ℕ → Bytes → List (List Bytes)
  | 0, _ => []
  | n + 1, s =>
    match here p s with
    | some f => f.values :: gmatchFrom p n (if f.rest.length < s.length then f.rest else s.tail)
    | none => if s = [] then [] else gmatchFrom p n s.tail

/-- `string.gmatch`, for a pattern that is not anchored. -/
def gmatch (s p : Bytes) : List (List Bytes) :=
  match compile p with
  | some p => gmatchFrom p.items (s.length + 1) s
  | none => []

/-- The first value of each match, which is what a loop with one variable gets. -/
def firsts (s p : Bytes) : List Bytes := (gmatch s p).filterMap List.head?

/-! ## When there is a match -/

/-- A pattern can be laid over the start of a subject. -/
def Accepts : List Item → Bytes → Prop
  | [], _ => True
  | .one k :: p, s => ∃ c t, s = c :: t ∧ k.holds c = true ∧ Accepts p t
  | .opt k :: p, s => (∃ c t, s = c :: t ∧ k.holds c = true ∧ Accepts p t) ∨ Accepts p s
  | .star k :: p, s | .least k :: p, s =>
    ∃ u t, s = u ++ t ∧ (∀ c ∈ u, k.holds c = true) ∧ Accepts p t
  | .plus k :: p, s =>
    ∃ c u t, s = c :: (u ++ t) ∧ (∀ a ∈ c :: u, k.holds a = true) ∧ Accepts p t
  | .opens :: p, s | .closes :: p, s => Accepts p s
  | .atEnd :: p, s => s = [] ∧ Accepts p s

theorem mem_expansions {k : Class} {s t : Bytes} :
    t ∈ expansions k s ↔ ∃ u, s = u ++ t ∧ ∀ c ∈ u, k.holds c = true := by
  induction s with
  | nil =>
    rw [expansions, List.mem_singleton]
    constructor
    · rintro rfl
      exact ⟨[], rfl, by simp⟩
    · rintro ⟨u, hu, -⟩
      exact (List.append_eq_nil_iff.1 hu.symm).2
  | cons c s ih =>
    have hself : ∀ {u}, c :: s = u ++ t → u = [] ∧ t = c :: s ∨ ∃ v, u = c :: v ∧ s = v ++ t := by
      intro u hu
      cases u with
      | nil => exact .inl ⟨rfl, hu.symm⟩
      | cons a v =>
        obtain ⟨rfl, hv⟩ := List.cons.inj hu
        exact .inr ⟨v, rfl, hv⟩
    rw [expansions]
    split_ifs with hc
    · rw [List.mem_append, List.mem_singleton, ih]
      constructor
      · rintro (⟨u, rfl, hu⟩ | rfl)
        · exact ⟨c :: u, rfl, List.forall_mem_cons.2 ⟨hc, hu⟩⟩
        · exact ⟨[], rfl, by simp⟩
      · rintro ⟨u, hs, hu⟩
        obtain ⟨-, ht⟩ | ⟨v, rfl, hv⟩ := hself hs
        · exact .inr ht
        · exact .inl ⟨v, hv, (List.forall_mem_cons.1 hu).2⟩
    · rw [List.mem_singleton]
      constructor
      · rintro rfl
        exact ⟨[], rfl, by simp⟩
      · rintro ⟨u, hs, hu⟩
        obtain ⟨-, ht⟩ | ⟨v, rfl, -⟩ := hself hs
        · exact ht
        · exact absurd (hu c List.mem_cons_self) hc

theorem next_eq_some_iff {α : Type} {k : Class} {f : Bytes → Option α} {s : Bytes} {x : α} :
    next k f s = some x ↔ ∃ c t, s = c :: t ∧ k.holds c = true ∧ f t = some x := by
  cases s with
  | nil => simp [next]
  | cons c t =>
    by_cases hc : k.holds c = true
    · simp [next, hc]
    · simp [next, hc]

theorem isSome_next_iff {α : Type} {k : Class} {f : Bytes → Option α} {s : Bytes} :
    (next k f s).isSome = true ↔ ∃ c t, s = c :: t ∧ k.holds c = true ∧ (f t).isSome = true := by
  simp only [Option.isSome_iff_exists, next_eq_some_iff]
  exact ⟨fun ⟨x, c, t, hs, hc, hx⟩ => ⟨c, t, hs, hc, x, hx⟩,
    fun ⟨c, t, hs, hc, x, hx⟩ => ⟨x, c, t, hs, hc, hx⟩⟩

/-- **The matcher finds a match exactly if there is one.** -/
theorem isSome_exec_iff {p : List Item} {s : Bytes} {caps : List Capture} :
    (exec p s caps).isSome = true ↔ Accepts p s := by
  induction p generalizing s caps with
  | nil => simp [exec, Accepts]
  | cons item p ih =>
    have hfind (ts : List Bytes) :
        (ts.findSome? fun t => exec p t caps).isSome = true ↔ ∃ t ∈ ts, Accepts p t := by
      rw [List.findSome?_isSome_iff]
      exact exists_congr fun t => and_congr_right fun _ => ih
    have hone (k : Class) : (next k (fun t => exec p t caps) s).isSome = true ↔
        ∃ c t, s = c :: t ∧ k.holds c = true ∧ Accepts p t := by
      simp only [isSome_next_iff, ih]
    cases item with
    | one k => exact hone k
    | opt k =>
      rw [exec, Option.isSome_or, Bool.or_eq_true, hone k, ih]
      rfl
    | star k =>
      rw [exec, hfind]
      simp only [mem_expansions, Accepts]
      exact ⟨fun ⟨t, ⟨u, hs, hu⟩, ht⟩ => ⟨u, t, hs, hu, ht⟩,
        fun ⟨u, t, hs, hu, ht⟩ => ⟨t, ⟨u, hs, hu⟩, ht⟩⟩
    | least k =>
      rw [exec, hfind]
      simp only [List.mem_reverse, mem_expansions, Accepts]
      exact ⟨fun ⟨t, ⟨u, hs, hu⟩, ht⟩ => ⟨u, t, hs, hu, ht⟩,
        fun ⟨u, t, hs, hu, ht⟩ => ⟨t, ⟨u, hs, hu⟩, ht⟩⟩
    | plus k =>
      rw [exec, isSome_next_iff]
      simp only [hfind, mem_expansions, Accepts, List.forall_mem_cons]
      constructor
      · rintro ⟨c, s, rfl, hc, t, ⟨u, rfl, hu⟩, ht⟩
        exact ⟨c, u, t, rfl, ⟨hc, hu⟩, ht⟩
      · rintro ⟨c, u, t, rfl, ⟨hc, hu⟩, ht⟩
        exact ⟨c, u ++ t, rfl, hc, t, ⟨u, rfl, hu⟩, ht⟩
    | opens => exact ih
    | closes => exact ih
    | atEnd =>
      by_cases hs : s = []
      · simp [exec, Accepts, hs, ih]
      · simp [exec, Accepts, hs]

/-- **A character that a pattern asks for is in the subject.** -/
theorem mem_of_accepts {p : List Item} {s : Bytes} {c : UInt8} (h : Accepts p s)
    (hc : .one (.char c) ∈ p) : c ∈ s := by
  induction p generalizing s with
  | nil => simp at hc
  | cons item p ih =>
    rw [List.mem_cons] at hc
    cases item with
    | one k =>
      obtain ⟨a, t, rfl, ha, ht⟩ := h
      rcases hc with hc | hc
      · obtain rfl := Item.one.inj hc
        obtain rfl : c = a := eq_of_beq ha
        exact List.mem_cons_self
      · exact List.mem_cons_of_mem a (ih ht hc)
    | opt k =>
      have hc := hc.resolve_left (by simp)
      rcases h with ⟨a, t, rfl, -, ht⟩ | h
      · exact List.mem_cons_of_mem a (ih ht hc)
      · exact ih h hc
    | star k =>
      obtain ⟨u, t, rfl, -, ht⟩ := h
      exact List.mem_append_right u (ih ht (hc.resolve_left (by simp)))
    | least k =>
      obtain ⟨u, t, rfl, -, ht⟩ := h
      exact List.mem_append_right u (ih ht (hc.resolve_left (by simp)))
    | plus k =>
      obtain ⟨a, u, t, rfl, -, ht⟩ := h
      exact List.mem_cons_of_mem a (List.mem_append_right u (ih ht (hc.resolve_left (by simp))))
    | opens => exact ih h (hc.resolve_left (by simp))
    | closes => exact ih h (hc.resolve_left (by simp))
    | atEnd => exact ih h.2 (hc.resolve_left (by simp))

theorem isSome_here_iff {p : List Item} {s : Bytes} :
    (here p s).isSome = true ↔ Accepts p s := by
  rw [here, Option.isSome_map, isSome_exec_iff]

/-- A character that a pattern asks for is in every text in which it is found. -/
theorem mem_of_stringMatch {s p : Bytes} {pat : Pattern} (hp : compile p = some pat) {c : UInt8}
    (hc : .one (.char c) ∈ pat.items) (h : (stringMatch s p).isSome = true) : c ∈ s := by
  rw [stringMatch, hp, Option.bind_some, Option.isSome_map, search] at h
  split_ifs at h
  · exact mem_of_accepts (isSome_here_iff.1 h) hc
  · rw [List.findSome?_isSome_iff] at h
    obtain ⟨t, ht, h⟩ := h
    exact ((List.mem_tails _ _).1 ht).subset (mem_of_accepts (isSome_here_iff.1 h) hc)

/-! ## What is captured -/

/-- A capture of a part of the subject. -/
structure Inside (s : Bytes) (c : Capture) : Prop where
  start : c.start <:+ s
  text : ∀ t ∈ c.text, t <:+: s

theorem inside_close {s rest : Bytes} {caps : List Capture} (h : ∀ c ∈ caps, Inside s c) :
    ∀ c ∈ close rest caps, Inside s c := by
  induction caps with
  | nil => exact h
  | cons c caps ih =>
    obtain ⟨hc, hcaps⟩ := List.forall_mem_cons.1 h
    rw [close]
    split_ifs
    · refine List.forall_mem_cons.2 ⟨⟨hc.start, ?_⟩, hcaps⟩
      rintro t ⟨⟩
      exact (List.take_prefix _ _).isInfix.trans hc.start.isInfix
    · exact List.forall_mem_cons.2 ⟨hc, ih hcaps⟩

/-- What follows a match is a suffix of the subject, and the captures are in the subject. -/
theorem inside_exec {p : List Item} {full s rest : Bytes} {caps caps' : List Capture}
    (h : exec p s caps = some (rest, caps')) (hs : s <:+ full) (hcaps : ∀ c ∈ caps, Inside full c) :
    rest <:+ s ∧ ∀ c ∈ caps', Inside full c := by
  induction p generalizing s caps with
  | nil =>
    obtain ⟨rfl, rfl⟩ := Prod.mk.inj (Option.some.inj h)
    exact ⟨List.suffix_rfl, hcaps⟩
  | cons item p ih =>
    -- a continuation from a shorter text
    have hshort {t : Bytes} (ht : t <:+ s) (h : exec p t caps = some (rest, caps')) :
        rest <:+ s ∧ ∀ c ∈ caps', Inside full c := by
      obtain ⟨hrest, hcaps'⟩ := ih h (ht.trans hs) hcaps
      exact ⟨hrest.trans ht, hcaps'⟩
    have hexp {k : Class} {t : Bytes} {u : Bytes} (hu : u <:+ s) (ht : t ∈ expansions k u) :
        t <:+ s := by
      obtain ⟨v, rfl, -⟩ := mem_expansions.1 ht
      exact (List.suffix_append v t).trans hu
    cases item with
    | one k =>
      obtain ⟨c, t, rfl, -, h⟩ := next_eq_some_iff.1 h
      exact hshort (List.suffix_cons c t) h
    | opt k =>
      rw [exec, Option.or_eq_some_iff] at h
      rcases h with h | ⟨-, h⟩
      · obtain ⟨c, t, rfl, -, h⟩ := next_eq_some_iff.1 h
        exact hshort (List.suffix_cons c t) h
      · exact hshort List.suffix_rfl h
    | star k =>
      obtain ⟨t, ht, h⟩ := List.exists_of_findSome?_eq_some h
      exact hshort (hexp List.suffix_rfl ht) h
    | least k =>
      obtain ⟨t, ht, h⟩ := List.exists_of_findSome?_eq_some h
      exact hshort (hexp List.suffix_rfl (List.mem_reverse.1 ht)) h
    | plus k =>
      obtain ⟨c, u, rfl, -, h⟩ := next_eq_some_iff.1 h
      obtain ⟨t, ht, h⟩ := List.exists_of_findSome?_eq_some h
      exact hshort (hexp (List.suffix_cons c u) ht) h
    | opens =>
      exact ih h hs (List.forall_mem_cons.2 ⟨⟨hs, by simp⟩, hcaps⟩)
    | closes => exact ih h hs (inside_close hcaps)
    | atEnd =>
      rw [exec] at h
      split_ifs at h
      exact hshort List.suffix_rfl h

/-- **What a match returns is a part of the subject**, and so is what follows it. -/
theorem isInfix_of_here {p : List Item} {s : Bytes} {f : Found} (h : here p s = some f) :
    f.rest <:+ s ∧ ∀ t ∈ f.values, t <:+: s := by
  rw [here, Option.map_eq_some_iff] at h
  obtain ⟨⟨rest, caps⟩, hexec, rfl⟩ := h
  obtain ⟨hrest, hcaps⟩ := inside_exec hexec List.suffix_rfl (by simp)
  refine ⟨hrest, fun t ht => ?_⟩
  rw [Found.values] at ht
  split_ifs at ht
  · obtain rfl := List.mem_singleton.1 ht
    exact (List.take_prefix _ _).isInfix
  · obtain ⟨c, hc, rfl⟩ := List.mem_map.1 ht
    cases htext : c.text with
    | none => exact List.nil_infix
    | some t => exact (hcaps c (List.mem_reverse.1 hc)).text t htext

theorem isInfix_of_mem_stringMatch {s p : Bytes} {vs : List Bytes} (h : stringMatch s p = some vs) :
    ∀ t ∈ vs, t <:+: s := by
  rw [stringMatch, Option.bind_eq_some_iff] at h
  obtain ⟨pat, -, h⟩ := h
  obtain ⟨f, hf, rfl⟩ := Option.map_eq_some_iff.1 h
  rw [search] at hf
  split_ifs at hf
  · exact (isInfix_of_here hf).2
  · obtain ⟨t, ht, hf⟩ := List.exists_of_findSome?_eq_some hf
    exact fun v hv => ((isInfix_of_here hf).2 v hv).trans ((List.mem_tails _ _).1 ht).isInfix

/-! ## Runs -/

/-- `([…]+)` -/
def run (k : Class) : List Item := [.opens, .plus k, .closes]

theorem expansions_eq (k : Class) (s : Bytes) :
    ∃ ts, expansions k s = s.dropWhile k.holds :: ts := by
  induction s with
  | nil => exact ⟨[], rfl⟩
  | cons c s ih =>
    rw [expansions]
    split_ifs with hc
    · obtain ⟨ts, hts⟩ := ih
      exact ⟨ts ++ [c :: s], by rw [hts, List.dropWhile_cons_of_pos hc]; rfl⟩
    · exact ⟨[], by rw [List.dropWhile_cons_of_neg hc]⟩

theorem take_length_sub {u t : Bytes} : (u ++ t).take ((u ++ t).length - t.length) = u := by
  rw [List.length_append, Nat.add_sub_cancel, List.take_left]

/-- A run takes all the characters of its class. -/
theorem here_run (k : Class) (s : Bytes) :
    here (run k) s = if s.takeWhile k.holds = [] then none
      else some ⟨s.takeWhile k.holds, [s.takeWhile k.holds], s.dropWhile k.holds⟩ := by
  cases s with
  | nil => rfl
  | cons c s =>
    by_cases hc : k.holds c = true
    · obtain ⟨ts, hts⟩ := expansions_eq k s
      have hsplit : c :: s = (c :: s).takeWhile k.holds ++ (c :: s).dropWhile k.holds :=
        List.takeWhile_append_dropWhile.symm
      have hdrop : (c :: s).dropWhile k.holds = s.dropWhile k.holds :=
        List.dropWhile_cons_of_pos hc
      have htake := take_length_sub (u := (c :: s).takeWhile k.holds)
        (t := (c :: s).dropWhile k.holds)
      rw [← hsplit, hdrop, List.length_cons, List.takeWhile_cons_of_pos hc] at htake
      rw [if_neg (by simp [List.takeWhile_cons_of_pos hc]), hdrop, List.takeWhile_cons_of_pos hc]
      simp [here, run, exec, next, hc, hts, close, htake]
    · rw [List.takeWhile_cons_of_neg hc, if_pos rfl]
      simp [here, run, exec, next, hc]

/-- The longest parts of a text that consist of certain characters. -/
def words (keep : UInt8 → Bool) (s : Bytes) : List Bytes :=
  (s.splitOnP (!keep ·)).filter (· ≠ [])

theorem words_cons_of_not {keep : UInt8 → Bool} {c : UInt8} (hc : keep c = false) (s : Bytes) :
    words keep (c :: s) = words keep s := by
  rw [words, List.splitOnP_cons_eq_if_modifyHead, if_pos (by simpa using hc)]
  rfl

/-- The first word, which ends where the text ends or before another character. -/
theorem words_append {keep : UInt8 → Bool} {u t : Bytes} (hu : ∀ c ∈ u, keep c = true)
    (hne : u ≠ []) (ht : ∀ c ∈ t.head?, keep c = false) :
    words keep (u ++ t) = u :: words keep t := by
  have hu' : ∀ c ∈ u, (!keep c) = false := fun c hc => by simp [hu c hc]
  cases t with
  | nil =>
    rw [List.append_nil, words, List.splitOnP_eq_singleton hu']
    simp [hne, words]
  | cons c t =>
    have hc : (!keep c) = true := by simp [ht c rfl]
    rw [words, List.splitOnP_append_cons_of_forall_mem hu' c hc,
      List.filter_cons_of_pos (by simpa using hne), words_cons_of_not (ht c rfl)]
    rfl

theorem subset_of_mem_words {keep : UInt8 → Bool} {s w : Bytes} (h : w ∈ words keep s) : w ⊆ s := by
  have hmem : w ∈ s.splitOnP (!keep ·) := List.mem_of_mem_filter h
  clear h
  induction s generalizing w with
  | nil =>
    obtain rfl : w = [] := by simpa using hmem
    exact List.nil_subset _
  | cons c s ih =>
    obtain ⟨w₀, ws, hs⟩ := List.exists_cons_of_ne_nil (List.splitOnP_ne_nil (!keep ·) s)
    rw [List.splitOnP_cons_eq_if_modifyHead, hs] at hmem
    rw [hs] at ih
    split_ifs at hmem
    · rcases List.mem_cons.1 hmem with rfl | hmem
      · exact List.nil_subset _
      · exact fun a ha => List.mem_cons_of_mem c (ih hmem ha)
    · rcases List.mem_cons.1 hmem with rfl | hmem
      · exact List.cons_subset_cons c (ih List.mem_cons_self)
      · exact fun a ha => List.mem_cons_of_mem c (ih (List.mem_cons_of_mem _ hmem) ha)

theorem gmatchFrom_run (k : Class) {n : ℕ} {s : Bytes} (hn : s.length < n) :
    gmatchFrom (run k) n s = (words k.holds s).map fun word => [word] := by
  induction n generalizing s with
  | zero => omega
  | succ n ih =>
    rw [gmatchFrom, here_run]
    by_cases hnil : s.takeWhile k.holds = []
    · rw [if_pos hnil]
      cases s with
      | nil => simp [words]
      | cons c s =>
        have hc : k.holds c = false := by
          cases hc : k.holds c with
          | false => rfl
          | true =>
            rw [List.takeWhile_cons_of_pos hc] at hnil
            cases hnil
        simp only [List.cons_ne_nil, if_false, List.tail_cons]
        rw [ih (by simpa using hn), words_cons_of_not hc]
    · have hsplit : s.takeWhile k.holds ++ s.dropWhile k.holds = s :=
        List.takeWhile_append_dropWhile
      have hlen : (s.dropWhile k.holds).length < s.length := by
        have := congrArg List.length hsplit
        have := List.length_pos_iff.2 hnil
        rw [List.length_append] at *
        omega
      have hhead : ∀ c ∈ (s.dropWhile k.holds).head?, k.holds c = false := by
        intro c hc
        have hnot := List.head?_dropWhile_not k.holds s
        rw [Option.mem_def.1 hc] at hnot
        exact hnot
      have hwords := words_append (fun c hc => List.all_eq_true.1 List.all_takeWhile c hc) hnil
        hhead
      rw [hsplit] at hwords
      simp only [if_neg hnil, Found.values, List.cons_ne_nil, if_false, if_pos hlen]
      rw [ih (by omega), hwords, List.map_cons]

/-- **The matches of a run** are the words of its characters. -/
theorem firsts_run {p : Bytes} {k : Class} (hp : compile p = some ⟨false, run k⟩) (s : Bytes) :
    firsts s p = words k.holds s := by
  have hgmatch : gmatch s p = (words k.holds s).map fun word => [word] := by
    rw [gmatch, hp]
    exact gmatchFrom_run k s.length.lt_succ_self
  rw [firsts, hgmatch, List.filterMap_map]
  exact List.filterMap_some

/-- **The match of a run at the start.** -/
theorem stringMatch_run {p : Bytes} {k : Class} (hp : compile p = some ⟨true, run k⟩) (s : Bytes) :
    stringMatch s p =
      if s.takeWhile k.holds = [] then none else some [s.takeWhile k.holds] := by
  rw [stringMatch, hp, Option.bind_some, search, if_pos rfl, here_run]
  split_ifs <;> rfl

end NextPath.Lua
