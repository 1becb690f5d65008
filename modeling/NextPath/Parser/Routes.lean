import NextPath.Net.Prefix
import NextPath.Parser.Lists

/-!
# The compiled address lists

The included networks of a family are aggregated, by shortening the longest prefixes until there are
few enough or they are short enough, and the excluded and denied ones are taken out; the denied ones
are only merged. The sets of addresses themselves come from outside (`IPSets`), as the networks that
make up the addresses of one list that are in none of another.

* `aggregatePrefixes`, `compileRoutes`, `compileDeny`: the two lists of `compileIPs`.
* `Prefix.string`: a line of them.
-/

namespace NextPath.Parser

open Net

/-! ## Networks -/

/-- `netipx.IPSetBuilder`: the prefixes of the set made by adding the networks of the first list and
then removing those of the second. -/
abbrev IPSets := List Prefix → List Prefix → List Prefix

/-- `Addr.String` of `netip`; an IPv4 address in the form of an IPv6 address keeps that form. -/
def addrString (addr : Bytes) : Bytes :=
  if addr.length = 4 then dotted addr
  else if addr.take 12 = v4InV6Prefix then str "::ffff:" ++ dotted (addr.drop 12)
  else string6 (groups addr)

namespace Prefix

/-- `Prefix.String`. -/
def string (n : Prefix) : Bytes := addrString n.addr ++ chr '/' :: numeral 10 n.bits

/-- `n.Addr().Is6()`. -/
def is6 (n : Prefix) : Bool := n.addr.length = 16

/-- `n.Addr().Prefix(bits)`, which is masked; `bits` is not more than the address has. -/
def shorten (n : Prefix) (bits : ℕ) : Prefix :=
  ⟨List.zipWith (· &&& ·) n.addr (cidrMask bits n.addr.length), bits⟩

end Prefix

/-! ## Lists of networks -/

variable (ipset : IPSets)

/-- `filterIPNets`. -/
def filterIPNets (src : List Prefix) (isV6 applySafeguard : Bool) : List Prefix :=
  src.filter fun n => n.is6 == isV6 &&
    !(applySafeguard && ((!isV6 && n.bits < 4) || (isV6 && n.bits < 16)))

/-- `subNetsOptimized`. -/
def subNetsOptimized (incNets excNets : List Prefix) : List Prefix := ipset incNets excNets

/-- `collapseIPNets`. -/
def collapseIPNets (nets : List Prefix) : List Prefix := subNetsOptimized ipset nets []

/-- `maxPrefix` of `aggregatePrefixes`. -/
def maxPrefix (nets : List Prefix) : ℕ := (nets.map (·.bits)).foldr max 0

/-- `minPrefix` of `aggregatePrefixes`. -/
def minPrefix (isV6 : Bool) : ℕ := if isV6 then 32 else 12

/-- `supers` of `aggregatePrefixes`: the longest prefixes are shortened by one. -/
def supers (nets : List Prefix) : List Prefix :=
  nets.map fun n => if n.bits = maxPrefix nets then n.shorten (maxPrefix nets - 1) else n

/-- The loop of `aggregatePrefixes`. Each round shortens the longest prefixes, so that there are
fewer rounds than an address has bits. -/
def aggregateLoop (limit : ℤ) (isV6 : Bool) : ℕ → List Prefix → List Prefix
  | 0, res => res
  | rounds + 1, res =>
    if res.length ≤ limit then res
    else if maxPrefix res ≤ minPrefix isV6 then res
    else aggregateLoop limit isV6 rounds (collapseIPNets ipset (supers res))

/-- `aggregatePrefixes`. -/
def aggregatePrefixes (nets : List Prefix) (limit : ℤ) (isV6 : Bool) : List Prefix :=
  if nets = [] then nets
  else if limit ≤ 0 then nets
  else aggregateLoop ipset limit isV6 128 (collapseIPNets ipset nets)

/-! ## The two lists -/

/-- The lists that `compileIPs` is given. -/
structure AddressLists where
  incIps : List Prefix
  excIps : List Prefix
  denyIps : List Prefix

/-- `resDeny` of `compileIPs`. -/
def compileDeny (l : AddressLists) (isV6 : Bool) : List Prefix :=
  subNetsOptimized ipset (filterIPNets l.denyIps isV6 false) []

/-- `resRoutes` of `compileIPs`. -/
def compileRoutes (l : AddressLists) (limit : ℤ) (isV6 : Bool) : List Prefix :=
  let nets := filterIPNets l.incIps isV6 true
  let exCombined := filterIPNets l.excIps isV6 false ++ filterIPNets l.denyIps isV6 false
  subNetsOptimized ipset (aggregatePrefixes ipset nets limit isV6) exCombined

end NextPath.Parser
