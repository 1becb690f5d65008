import NextPath.Foundations.Regex
import NextPath.Net.Text
import NextPath.Parser.Zone

/-!
# Reading the lists

The lists are text files: addresses and networks (`parseIPFile`), domains or the lines of an ad
blocker (`validateFile`). Each function takes the content of a file; a file that cannot be opened
contributes nothing, as an empty one does. The decompression of a list that is packed is a
parameter.
-/

namespace NextPath.Parser

open Strings Net

/-! ## Networks -/

/-- `netip.Prefix`: the four or sixteen bytes of an address, and the length. -/
structure Prefix where
  addr : Bytes
  bits : ℕ
  deriving DecidableEq

/-- `netip.ParsePrefix`. -/
def parsePrefix (s : Bytes) : Option Prefix := do
  let (ip, bitsStr) ← cutLast (chr '/') s
  let addr ← parseAddr ip
  let bits ← readNumeral 10 bitsStr
  if (bitsStr.length ≤ 1 ∨ bitsStr.head? ≠ some (chr '0')) ∧ bits ≤ 8 * addr.length then
    some ⟨addr, bits⟩
  else none

/-- The text of a line before a comment: nothing for an empty line and for a comment line. -/
def uncommented (text : Bytes) : Bytes :=
  let line := trimSpace text
  if line.head? = some (chr '#') ∨ line.head? = some (chr ';') then []
  else if contains line (str "#") then trimSpace (before (str "#") line)
  else line

/-- `parseIPFile`, for one line. -/
def parseIPLine (text : Bytes) : Option Prefix :=
  let ipPart := uncommented text
  if ipPart = [] then none
  else if contains ipPart (str "/") then parsePrefix ipPart
  else if contains ipPart (str ":") then parsePrefix (ipPart ++ str "/128")
  else parsePrefix (ipPart ++ str "/32")

/-- `bufio.MaxScanTokenSize`. -/
def maxScanTokenSize : ℕ := 64 * 1024

/-- `parseIPFile`. -/
def parseIPFile (content : Bytes) : List Prefix :=
  (scanLines maxScanTokenSize content).filterMap parseIPLine

/-! ## Domains -/

/-- The text of `CasinoRegex`, without the flag `(?i)`. -/
def casinoRegex : Bytes := str ("[ck]a+[szc3]+[iley1]+n+[0-9o]|[vw][uy]+[l1]+[kc]a+n|" ++
  "[vw]a+[vw]+a+d+a|1?x-*bet|most-*bet|leon-*bet|rio-*bet|mel-*bet|ramen-*bet|marathon-*bet|" ++
  "max-*bet|bet-*win|gg-*bet|spin-*bet|banzai-*bet|1iks-*bet|x-*slot|sloto.*zal|max-*slot|" ++
  "bk-*leon|gold-*fishka|play-*fortuna|dragon.*money|poker.*dom|1-*win|crypto-*bos|free-*spin|" ++
  "fair-*spin|no-*deposit|igrovye|avtomaty|bookmaker|zerkalo|slottica|sykaaa|admiral-*x|" ++
  "x-*admiral|pinup-*bet|pari-*match|betting|partypoker|jackpot|bonus|azino[0-9-]|888-*starz|" ++
  "zooma[0-9-]|zenit-*bet|eldorado|slots|vodka|newretro|platinum|igrat|flagman|arkada")

/-- `IsCasino`. -/
def isCasino (domain : Bytes) : Bool :=
  Regex.search (Regex.parse casinoRegex) (domain.map lowerByte)

/-- What a list yields: rules, the domains filtered out, and the lines passed on as they are. -/
structure Loaded where
  rules : List DomainRule
  casSet : List Bytes
  rawRules : List Bytes
  deriving DecidableEq

/-- Nothing. -/
def Loaded.none : Loaded := ⟨[], [], []⟩

def Loaded.append (a b : Loaded) : Loaded :=
  ⟨a.rules ++ b.rules, a.casSet ++ b.casSet, a.rawRules ++ b.rawRules⟩

/-- Everything that the members of a list yield. -/
def Loaded.concat (l : List Loaded) : Loaded := l.foldr Loaded.append Loaded.none

/-- A rule, or the domain of it if it is to be filtered out. -/
def Loaded.rule (filterCasino : Bool) (r : DomainRule) : Loaded :=
  if filterCasino && isCasino r.domain then ⟨[], [r.domain], []⟩ else ⟨[r], [], []⟩

/-- `parseAdblockLine`. -/
def parseAdblockLine (t : Tables) (line : Bytes) (forceException : Bool) : Option DomainRule :=
  let line := trimSpace line
  if line = [] || contains line (str "##") || contains line (str "#@#") then none
  else
    let (isEx, domain) :=
      if hasPrefix line (str "@@||") then (true, line.drop 4)
      else if hasPrefix line (str "||") then (false, line.drop 2)
      else if hasPrefix line (str "@@") then (true, line.drop 2)
      else (forceException, line)
    if contains domain (str "/") then none
    else
      let domain :=
        if hasPrefix domain (str "*.") then str "*." ++ before (str "^$*") (domain.drop 2)
        else before (str "^$*") domain
      let domain := trimSpace domain
      if domain = [] || (contains domain (str "*") && !hasPrefix domain (str "*.")) then none
      else
        let v := normalizeDomain t domain
        if v = [] then none else some ⟨v, isEx⟩

/-- The kinds of list `validateFile` tells apart. -/
structure Kind where
  filterCasino : Bool
  isExcludeFile : Bool
  isRpz : Bool
  isDomain : Bool

/-- `validateFile`, for one field of a line of domains. An address with a zone is no domain
either: it has a colon. -/
def validateField (t : Tables) (k : Kind) (field : Bytes) : Loaded :=
  if (parseAddr field).isSome then .none
  else
    let v := normalizeDomain t field
    if v = [] then .none else .rule k.filterCasino ⟨v, k.isExcludeFile⟩

/-- `validateFile`, for one line. -/
def validateLine (t : Tables) (k : Kind) (text : Bytes) : Loaded :=
  let line := uncommented text
  if line = [] then .none
  else if k.isRpz then
    if hasPrefix line (str "$") || hasPrefix line (str "@") then .none else ⟨[], [], [line]⟩
  else if k.isDomain then
    let line := trim line (str "!\"#$%&'()+,-/:;<=>?@[\\]^_`\x7b|\x7d~")
    .concat ((fields line).map (validateField t k))
  else if hasPrefix line (str "!") || hasPrefix line (str "[") then .none
  else
    match parseAdblockLine t line k.isExcludeFile with
    | some r => .rule k.filterCasino r
    | Option.none => .none

/-- `validateFile`. A file that starts like a gzip file is unpacked, if it is one. -/
def validateFile (t : Tables) (gunzip : Bytes → Option Bytes) (k : Kind) (content : Bytes) :
    Loaded :=
  let text := if content.take 2 = [0x1f, 0x8b] then (gunzip content).getD content else content
  .concat ((scanLines (10 * 1024 * 1024) text).map (validateLine t k))

/-! ## The rules that are read -/

theorem Loaded.mem_rules_concat {l : List Loaded} {r : DomainRule} :
    r ∈ (Loaded.concat l).rules ↔ ∃ x ∈ l, r ∈ x.rules := by
  induction l with
  | nil => simp [Loaded.concat, Loaded.none]
  | cons a l ih =>
    have hcons : (Loaded.concat (a :: l)).rules = a.rules ++ (Loaded.concat l).rules := rfl
    rw [hcons, List.mem_append, ih]
    simp

theorem Loaded.mem_rules_rule {filterCasino : Bool} {r r' : DomainRule}
    (h : r ∈ (Loaded.rule filterCasino r').rules) : r = r' := by
  rw [Loaded.rule] at h
  split_ifs at h
  · simp at h
  · exact List.mem_singleton.1 h

/-- `parseAdblockLine` normalizes the domain. -/
theorem normalized_of_parseAdblockLine {t : Tables} {line : Bytes} {forceException : Bool}
    {r : DomainRule} (h : parseAdblockLine t line forceException = some r) :
    Normalized t r.domain := by
  simp only [parseAdblockLine] at h
  generalize trimSpace line = s at h
  generalize (if hasPrefix s (str "@@||") then (true, s.drop 4)
    else if hasPrefix s (str "||") then (false, s.drop 2)
    else if hasPrefix s (str "@@") then (true, s.drop 2) else (forceException, s)) = p at h
  generalize trimSpace (if hasPrefix p.2 (str "*.") then str "*." ++ before (str "^$*") (p.2.drop 2)
    else before (str "^$*") p.2) = domain at h
  split_ifs at h with h₁ h₂ h₃ hv
  obtain rfl := Option.some.inj h
  exact ⟨hv, domain, rfl⟩

/-- The domains of the rules that are read from a line are normalized. -/
theorem normalized_of_mem_validateLine {t : Tables} {k : Kind} {text : Bytes} {r : DomainRule}
    (h : r ∈ (validateLine t k text).rules) : Normalized t r.domain := by
  simp only [validateLine] at h
  split_ifs at h
  · simp [Loaded.none] at h
  · simp [Loaded.none] at h
  · simp at h
  · -- a line of domains
    obtain ⟨x, hx, hr⟩ := Loaded.mem_rules_concat.1 h
    obtain ⟨field, -, rfl⟩ := List.mem_map.1 hx
    simp only [validateField] at hr
    split_ifs at hr with hip hv
    · simp [Loaded.none] at hr
    · simp [Loaded.none] at hr
    · obtain rfl := Loaded.mem_rules_rule hr
      exact ⟨hv, field, rfl⟩
  · simp [Loaded.none] at h
  · split at h
    · next r' hparse =>
      obtain rfl := Loaded.mem_rules_rule h
      exact normalized_of_parseAdblockLine hparse
    · simp [Loaded.none] at h

/-- The lines that `validateFile` reads. -/
def linesOf (gunzip : Bytes → Option Bytes) (content : Bytes) : List Bytes :=
  scanLines (10 * 1024 * 1024)
    (if content.take 2 = [0x1f, 0x8b] then (gunzip content).getD content else content)

/-- The rules that are read from a file. -/
theorem mem_rules_validateFile {t : Tables} {gunzip : Bytes → Option Bytes} {k : Kind}
    {content : Bytes} {r : DomainRule} :
    r ∈ (validateFile t gunzip k content).rules ↔
      ∃ text ∈ linesOf gunzip content, r ∈ (validateLine t k text).rules := by
  rw [validateFile, Loaded.mem_rules_concat]
  simp only [List.mem_map, exists_exists_and_eq_and]
  rfl

example : parseIPFile (str "10.0.0.0/8 # lan\n;\n1.2.3.4\r\nfd00::/200\n2001:db8::1") =
    [⟨[10, 0, 0, 0], 8⟩, ⟨[1, 2, 3, 4], 32⟩,
      ⟨[0x20, 1, 0xd, 0xb8, 0, 0, 0, 0, 0, 0, 0, 0, 0, 0, 0, 1], 128⟩] := by
  decide +kernel

example : validateFile asciiTables some ⟨false, false, false, true⟩
    (str "0.0.0.0 Ads.example.com # x\n*.b.org") =
    ⟨[⟨str "ads.example.com", false⟩, ⟨str "b.org", false⟩], [], []⟩ := by
  decide +kernel

end NextPath.Parser
