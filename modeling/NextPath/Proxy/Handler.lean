import NextPath.Pool.Allocation

/-!
# The handler of a query

`handleDNSRequest` asks the upstream, collects the addresses of the response, has the pool give each
a fake and writes the response back with the addresses replaced. The records are those of the DNS
library; of the header of a record the handler reads and writes the TTL, and of its data the
addresses of an `A` or `AAAA` record and the hints of an `SVCB` or `HTTPS` one.

`filterRRs` compacts a section in place, `n` being the number of records kept so far; the records
it keeps, in their order, are what is modelled. The library unpacks a parameter with the key of
`ipv4hint` or `ipv6hint` as a list of addresses, so the branch for one of another type is not
reached: a parameter of another kind has another key.
-/

namespace NextPath.Proxy

open Net Pool
open IPPool (Found)

/-! ## Messages -/

/-- `dns.SVCBKeyValue`. -/
inductive SVCBKeyValue
  | ipv4hint (hint : List IP)
  | ipv6hint (hint : List IP)
  | other (key : UInt16) (data : Bytes) (notHint : key ≠ 4 ∧ key ≠ 6)
  deriving DecidableEq

/-- `dns.SVCB`, which `dns.HTTPS` wraps. -/
structure SVCB where
  priority : UInt16
  target : Bytes
  value : List SVCBKeyValue
  deriving DecidableEq

/-- The data of a record, by the cases of the handler. -/
inductive RData
  | a (addr : IP)
  | aaaa (addr : IP)
  | svcb (record : SVCB)
  | https (record : SVCB)
  | rrsig (data : Bytes)
  | nsec (data : Bytes)
  | nsec3 (data : Bytes)
  | other (rrtype : UInt16) (data : Bytes)
  deriving DecidableEq

/-- `dns.RR`. -/
structure RR where
  name : Bytes
  cls : UInt16
  ttl : UInt32
  data : RData
  deriving DecidableEq

/-- The parts of `dns.Msg` that the handler looks at. -/
structure Msg where
  truncated : Bool
  authenticatedData : Bool
  answer : List RR
  ns : List RR
  extra : List RR
  deriving DecidableEq

/-- The settings of `DNSProxy`. -/
structure DNSProxy where
  upstreams : List Bytes
  maxTTL : UInt32
  enableIPv6 : Bool

/-! ## The upstream -/

/-- What an exchange with an upstream gives, over either transport and at either attempt. -/
structure Network where
  udp : Bytes → ℕ → Option Msg
  tcp : Bytes → ℕ → Option Msg

/-- One attempt: a truncated response is asked for again over TCP, and kept if that fails. -/
def Network.exchange (net : Network) (upstream : Bytes) (attempt : ℕ) : Option Msg :=
  (net.udp upstream attempt).map fun resp =>
    if resp.truncated then (net.tcp upstream attempt).getD resp else resp

/-- `resolveUpstream`: two attempts with each upstream. -/
def resolveUpstream (net : Network) (upstreams : List Bytes) : Option Msg :=
  upstreams.findSome? fun upstream => [0, 1].findSome? (net.exchange upstream)

/-! ## Collecting the addresses -/

/-- `net.IPv4zero`. -/
def ipv4zero : IP := v4InV6Prefix ++ [0, 0, 0, 0]

/-- `net.IPv6zero` and `net.IPv6unspecified`. -/
def ipv6unspecified : IP := List.replicate 16 0

/-- `IP.IsUnspecified`. -/
def isUnspecified (ip : IP) : Bool := ip.equal ipv4zero || ip.equal ipv6unspecified

/-- `realV4` and `realV6`. -/
structure Reals where
  v4 : List IP
  v6 : List IP
  deriving DecidableEq

/-- An address added to a list in the given form, unless it is to be skipped or is there. -/
def addReal (skip : IP → Bool) (form : IP → IP) (reals : List IP) (ip : IP) : List IP :=
  if skip ip then reals
  else if reals.any fun existing => existing.equal (form ip) then reals
  else reals ++ [form ip]

/-- The addresses `addV4` passes over. -/
def skipV4 (ip : IP) : Bool := ip.to4 == [] || ip.to4.equal ipv4zero

/-- `addV4`. -/
def addV4 : List IP → IP → List IP := addReal skipV4 IP.to4

/-- The addresses `addV6` passes over. -/
def skipV6 (enableIPv6 : Bool) (ip : IP) : Bool :=
  !enableIPv6 || ip.to4 != [] || ip.equal ipv6unspecified

/-- `addV6`. -/
def addV6 (enableIPv6 : Bool) : List IP → IP → List IP := addReal (skipV6 enableIPv6) id

/-- One parameter in `extractSVCBHints`. -/
def extractHint (enableIPv6 : Bool) (reals : Reals) : SVCBKeyValue → Reals
  | .ipv4hint hint => { reals with v4 := hint.foldl addV4 reals.v4 }
  | .ipv6hint hint =>
    if !enableIPv6 then reals else { reals with v6 := hint.foldl (addV6 enableIPv6) reals.v6 }
  | .other .. => reals

/-- `extractSVCBHints`. -/
def extractSVCBHints (enableIPv6 : Bool) (reals : Reals) (values : List SVCBKeyValue) : Reals :=
  values.foldl (extractHint enableIPv6) reals

/-- `collectIPs`. -/
def collectIPs (enableIPv6 : Bool) (reals : Reals) (rr : RR) : Reals :=
  match rr.data with
  | .a addr => { reals with v4 := addV4 reals.v4 addr }
  | .aaaa addr => { reals with v6 := addV6 enableIPv6 reals.v6 addr }
  | .svcb record => extractSVCBHints enableIPv6 reals record.value
  | .https record => extractSVCBHints enableIPv6 reals record.value
  | _ => reals

/-- The addresses of the three sections. -/
def collect (enableIPv6 : Bool) (resp : Msg) : Reals :=
  (resp.answer ++ resp.ns ++ resp.extra).foldl (collectIPs enableIPv6) ⟨[], []⟩

/-! ## Replacing them -/

/-- The hints that have a fake, replaced. -/
def patchHints (fakes : Map Bytes IP) (hint : List IP) : List IP :=
  hint.filterMap fun ip => fakes.lookup ip.string

/-- One parameter in `patchSVCBValues`. -/
def patchValue (mapV4 mapV6 : Map Bytes IP) (enableIPv6 : Bool) :
    SVCBKeyValue → Option SVCBKeyValue
  | .ipv4hint hint => some (.ipv4hint (patchHints mapV4 hint))
  | .ipv6hint hint => if !enableIPv6 then none else some (.ipv6hint (patchHints mapV6 hint))
  | .other key data notHint => some (.other key data notHint)

/-- `patchSVCBValues`. -/
def patchSVCBValues (values : List SVCBKeyValue) (mapV4 mapV6 : Map Bytes IP)
    (enableIPv6 : Bool) : List SVCBKeyValue :=
  values.filterMap (patchValue mapV4 mapV6 enableIPv6)

namespace DNSProxy

variable (proxy : DNSProxy)

/-- One record in `filterRRs`. -/
def filterRR (mapV4 mapV6 : Map Bytes IP) (rr : RR) : Option RR :=
  let ttl := min rr.ttl proxy.maxTTL
  match rr.data with
  | .a addr =>
    match mapV4.lookup addr.string with
    | some fake => some { rr with ttl, data := .a fake }
    | none => some rr
  | .aaaa addr =>
    if !proxy.enableIPv6 then none
    else
      match mapV6.lookup addr.string with
      | some fake => some { rr with ttl, data := .aaaa fake }
      | none => some rr
  | .svcb record =>
    let value := patchSVCBValues record.value mapV4 mapV6 proxy.enableIPv6
    some { rr with ttl, data := .svcb { record with value } }
  | .https record =>
    let value := patchSVCBValues record.value mapV4 mapV6 proxy.enableIPv6
    some { rr with ttl, data := .https { record with value } }
  | .rrsig _ | .nsec _ | .nsec3 _ => none
  | .other .. => some rr

/-- `filterRRs`. -/
def filterRRs (mapV4 mapV6 : Map Bytes IP) (rrs : List RR) : List RR :=
  rrs.filterMap (proxy.filterRR mapV4 mapV6)

/-- The response as it is written back. -/
def rewrite (mapV4 mapV6 : Map Bytes IP) (resp : Msg) : Msg :=
  { resp with
    answer := proxy.filterRRs mapV4 mapV6 resp.answer
    ns := proxy.filterRRs mapV4 mapV6 resp.ns
    extra := proxy.filterRRs mapV4 mapV6 resp.extra
    authenticatedData := false }

end DNSProxy

/-! ## The handler -/

/-- The readings of the clock in the calls of the pool for the two families. -/
structure Clocks where
  now4 : Time
  clk4 : ℕ → Time
  now6 : Time
  clk6 : ℕ → Time

/-- The fakes of one family. The pool is asked only if there is a real. -/
def getFakes (p : IPPool) (reals : List IP) (isIPv6 : Bool) (now : Time) (clk : ℕ → Time) :
    IPPool × Option Found :=
  if reals = [] then (p, some ⟨∅, ∅⟩) else p.getFakeIPsForReals reals isIPv6 now clk

/-- The fakes of both families. When the second call fails what the first one allocated is
removed. -/
def allocateBoth (p : IPPool) (reals : Reals) (clocks : Clocks) :
    IPPool × Option (Found × Found) :=
  match getFakes p reals.v4 false clocks.now4 clocks.clk4 with
  | (p4, none) => (p4, none)
  | (p4, some found4) =>
    match getFakes p4 reals.v6 true clocks.now6 clocks.clk6 with
    | (p6, none) => (p6.rollback found4.newMappings.entries, none)
    | (p6, some found6) => (p6, some (found4, found6))

/-- What the handler writes: an empty reply, a failure, or the response. With the response go the
mappings that it leaves to be written to the kernel and broadcast. -/
inductive Written
  | reply
  | failed
  | response (resp : Msg) (found4 found6 : Found)

/-- A query that is answered without asking the upstream. -/
def isProbe (question : List Bytes) : Bool :=
  match question with
  | [] => true
  | [name] => name == str "." || name == str "healthcheck.nextpath."
  | _ => false

/-- `handleDNSRequest`, on a query with the given names. -/
def DNSProxy.handleDNSRequest (proxy : DNSProxy) (net : Network) (question : List Bytes)
    (clocks : Clocks) (p : IPPool) : IPPool × Written :=
  if isProbe question then (p, .reply)
  else
    match resolveUpstream net proxy.upstreams with
    | none => (p, .failed)
    | some resp =>
      match allocateBoth p (collect proxy.enableIPv6 resp) clocks with
      | (p', none) => (p', .failed)
      | (p', some (found4, found6)) =>
        (p', .response (proxy.rewrite found4.result found6.result resp) found4 found6)

end NextPath.Proxy
