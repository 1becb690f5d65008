import NextPath.Foundations.Strings
import NextPath.Net.Text

/-!
# Hosts and ports

The text of an address with its port is taken apart by `net.SplitHostPort`, and a port is read by
`strconv.Atoi`. Both are used on texts of the configuration, which need not be well formed, so their
errors matter.
-/

namespace NextPath.Net

open Strings

/-- The errors of `net.SplitHostPort`. -/
inductive AddrErr
  | missingPort
  | tooManyColons
  | missingBracket
  | unexpectedOpen
  | unexpectedClose
  deriving DecidableEq

/-- `net.SplitHostPort`: the port starts after the last colon, and a host in brackets ends just
before it. -/
def splitHostPort (hostport : Bytes) : Except AddrErr (Bytes × Bytes) :=
  match cutLast (chr ':') hostport with
  | none => .error .missingPort
  | some (front, port) =>
    if hostport.head? = some (chr '[') then
      if !hostport.contains (chr ']') then .error .missingBracket
      else
        let rest := (hostport.dropWhile (· ≠ chr ']')).drop 1
        if rest = [] then .error .missingPort
        else if rest.length ≠ port.length + 1 then
          .error (if rest.head? = some (chr ':') then .tooManyColons else .missingPort)
        else if (hostport.drop 1).contains (chr '[') then .error .unexpectedOpen
        else if rest.contains (chr ']') then .error .unexpectedClose
        else .ok ((hostport.drop 1).takeWhile (· ≠ chr ']'), port)
    else if front.contains (chr ':') then .error .tooManyColons
    else if hostport.contains (chr '[') then .error .unexpectedOpen
    else if hostport.contains (chr ']') then .error .unexpectedClose
    else .ok (front, port)

/-- `strconv.Atoi`, of 64 bits. -/
def atoi (s : Bytes) : Option ℤ :=
  match s with
  | [] => none
  | c :: rest =>
    if c = chr '-' then
      (readNumeral 10 rest).bind fun n => if n ≤ 2 ^ 63 then some (-(n : ℤ)) else none
    else
      (readNumeral 10 (if c = chr '+' then rest else s)).bind fun n =>
        if n < 2 ^ 63 then some (n : ℤ) else none

theorem atoi_numeral {n : ℕ} (h : n < 2 ^ 63) : atoi (numeral 10 n) = some (n : ℤ) := by
  obtain ⟨c, rest, hs⟩ := List.exists_cons_of_ne_nil (numeral_ne_nil n (b := 10))
  have hdigit := isDigit_of_mem_numeral (hs ▸ List.mem_cons_self : c ∈ numeral 10 n)
  have hminus : c ≠ chr '-' := by
    rintro rfl
    exact absurd hdigit (by decide)
  have hplus : c ≠ chr '+' := by
    rintro rfl
    exact absurd hdigit (by decide)
  rw [hs, atoi, if_neg hminus, if_neg hplus, ← hs, readNumeral_numeral (by decide) (by decide),
    Option.bind_some, if_pos h]

end NextPath.Net
