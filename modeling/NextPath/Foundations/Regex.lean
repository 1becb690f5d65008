import NextPath.Foundations.Bytes

/-!
# Regular expressions

The regular expressions of package `regexp` in the fragment of alternatives that are sequences of
characters and character classes, each of them optional or repeated: no groups and no anchors. An
expression is kept as its text and read by `parse`; `search` is `MatchString`, for ASCII input.
-/

namespace NextPath.Regex

/-- A character class with its repetition: `once` if it has to occur, `many` if it may recur. -/
structure Piece where
  ranges : List (UInt8 × UInt8)
  once : Bool
  many : Bool

/-- Alternatives, each a sequence of pieces. -/
abbrev Alternatives := List (List Piece)

/-! ## Reading -/

/-- The ranges of a class, from the text between its brackets. A hyphen at the end is itself. -/
def parseRanges : Bytes → List (UInt8 × UInt8)
  | a :: 0x2d :: b :: s => (a, b) :: parseRanges s
  | a :: s => (a, a) :: parseRanges s
  | [] => []

/-- The repetition after a class, and the text that follows. -/
def parseRepetition : Bytes → (Bool × Bool) × Bytes
  | 0x2a :: s => ((false, true), s)
  | 0x2b :: s => ((true, true), s)
  | 0x3f :: s => ((false, false), s)
  | s => ((true, false), s)

/-- The class at the start of a text, and the text that follows. A dot is any character but the
newline. -/
def parseClass : Bytes → List (UInt8 × UInt8) × Bytes
  | 0x5b :: s =>
    let inner := s.takeWhile (· ≠ 0x5d)
    (parseRanges inner, s.drop (inner.length + 1))
  | 0x2e :: s => ([(0, 9), (11, 255)], s)
  | c :: s => ([(c, c)], s)
  | [] => ([], [])

/-- The alternatives of a text; the fuel is its length. -/
def parseFrom : ℕ → Bytes → Alternatives
  | _, [] => [[]]
  | 0, _ => [[]]
  | n + 1, c :: s =>
    if c = chr '|' then [] :: parseFrom n s
    else
      let (ranges, s) := parseClass (c :: s)
      let ((once, many), s) := parseRepetition s
      (parseFrom n s).modifyHead (⟨ranges, once, many⟩ :: ·)

def parse (s : Bytes) : Alternatives := parseFrom s.length s

/-! ## Matching -/

def Piece.test (p : Piece) (c : UInt8) : Bool := p.ranges.any fun r => r.1 ≤ c && c ≤ r.2

/-- Any number of characters that pass the test, then `k`. -/
def repeatThen (test : UInt8 → Bool) (k : Bytes → Bool) : Bytes → Bool
  | [] => k []
  | c :: s => k (c :: s) || (test c && repeatThen test k s)

/-- The pieces match at the start of the text. -/
def matchHere : List Piece → Bytes → Bool
  | [], _ => true
  | p :: ps, s =>
    (!p.once && matchHere ps s) ||
      match s with
      | [] => false
      | c :: s =>
        p.test c && if p.many then repeatThen p.test (matchHere ps) s else matchHere ps s

/-- `Regexp.MatchString`: some alternative matches somewhere in the text. -/
def search (r : Alternatives) (s : Bytes) : Bool := s.tails.any fun t => r.any (matchHere · t)

example : search (parse (str "ga+me|x-*be?t[0-9-]")) (str "1x--bt7.com") = true := by
  decide +kernel

end NextPath.Regex
