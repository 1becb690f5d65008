import NextPath.Engine.Settings
import NextPath.Net.HostPort

/-!
# The rules of the kernel

`InitStructure` reads its settings from the environment and hands `nft` a table with the maps, the
sets and the chains of the node. The rules of the chain `input`, which decide who reaches the node,
are modelled by what they test; `initStructure` is the text that is handed over.

* `settings`: the settings, with their defaults;
* `inputChain`, `forwardDeny`: the rules with a verdict, in their order;
* `initStructure`: the text.
-/

namespace NextPath.Netlink

open Strings Net

/-! ## Rules -/

inductive Family
  | ip
  | ip6
  deriving DecidableEq

inductive Proto
  | udp
  | tcp
  deriving DecidableEq

/-- The state of a packet in the connection tracking. -/
inductive CtState
  | new
  | established
  | related
  | invalid
  | untracked
  deriving DecidableEq

inductive Verdict
  | accept
  | drop
  deriving DecidableEq

/-- What a rule of the node tests. -/
inductive Match
  | iifnameLo
  | ctState (states : List CtState)
  | saddrIn (f : Family) (set : Bytes)
  | saddrNotIn (f : Family) (nets : List Bytes)
  | saddr (f : Family) (addr : Bytes)
  | dport (proto : Proto) (port : Bytes)
  /-- The source address is added to a set, and its rate is below the limit. -/
  | limit (set : Bytes) (f : Family) (rate : Bytes)
  deriving DecidableEq

structure Rule where
  tests : List Match
  verdict : Verdict
  deriving DecidableEq

/-! ## Their text -/

/-- `strings.Join`. -/
def join (sep : Bytes) (parts : List Bytes) : Bytes := sep.intercalate parts

def Family.text : Family → Bytes
  | .ip => str "ip"
  | .ip6 => str "ip6"

def Proto.text : Proto → Bytes
  | .udp => str "udp"
  | .tcp => str "tcp"

def CtState.text : CtState → Bytes
  | .new => str "new"
  | .established => str "established"
  | .related => str "related"
  | .invalid => str "invalid"
  | .untracked => str "untracked"

def Verdict.text : Verdict → Bytes
  | .accept => str "accept"
  | .drop => str "drop"

/-- Elements in braces. -/
def braced (text : Bytes) : Bytes := str "\x7b " ++ text ++ str " \x7d"

def Match.text : Match → Bytes
  | .iifnameLo => str "iifname \"lo\""
  | .ctState states => str "ct state " ++ join (str ",") (states.map CtState.text)
  | .saddrIn f set => f.text ++ str " saddr @" ++ set
  | .saddrNotIn f nets => f.text ++ str " saddr != " ++ braced (join (str ", ") nets)
  | .saddr f addr => f.text ++ str " saddr " ++ addr
  | .dport proto port => proto.text ++ str " dport " ++ port
  | .limit set f rate =>
    str "add @" ++ set ++ str " " ++
      braced (f.text ++ str " saddr limit rate " ++ rate ++ str "/second")

def Rule.text (r : Rule) : Bytes :=
  str "        " ++ join (str " ") (r.tests.map Match.text ++ [r.verdict.text]) ++ str "\n"

example : (Rule.mk [.dport .tcp (str "53"), .ctState [.new],
      .limit (str "dns_tcp_new_meter") .ip (str "300")] .accept).text =
    str ("        tcp dport 53 ct state new add @dns_tcp_new_meter " ++
      "\x7b ip saddr limit rate 300/second \x7d accept\n") := by
  decide +kernel

/-! ## Settings -/

/-- What `InitStructure` reads from the environment. -/
structure Settings where
  dohEnable : Bool
  dohPort : Bytes
  publicDNS : Bool
  dnsRateLimit : Bytes
  enableIPv6 : Bool
  syncPort : Bytes
  peerV4 : List IP
  peerV6 : List IP

/-- A variable that must be a number. -/
def numberOr (env : Engine.Env) (key defaultVal : Bytes) : Bytes :=
  let val := (env key).getD []
  if atoi val = none ∨ val = [] then defaultVal else val

/-- The addresses of the peers; `lookupIP` is the resolver. -/
def peerIPs (lookupIP : Bytes → Option (List IP)) (peersStr : Bytes) : List IP :=
  if peersStr = [] then []
  else (peersStr.splitOn (chr ',')).flatMap fun p =>
    let p := trimSpace p
    if p = [] then []
    else
      let host := match splitHostPort p with
        | .ok (host, _) => host
        | .error _ => p
      if parseIP host ≠ [] then [parseIP host] else (lookupIP host).getD []

def settings (u : Unicode) (env : Engine.Env) (lookupIP : Bytes → Option (List IP)) : Settings :=
  let peers := peerIPs lookupIP ((env (str "PEERS")).getD [])
  { dohEnable := parseBoolEnv u env (str "DOH_ENABLE") false
    dohPort := numberOr env (str "DOH_PORT") (str "443")
    publicDNS := parseBoolEnv u env (str "PUBLIC_DNS") false
    dnsRateLimit := numberOr env (str "DNS_RATE_LIMIT") (str "300")
    enableIPv6 := parseBoolEnv u env (str "ENABLE_IPV6") true
    syncPort := numberOr env (str "SYNC_PORT") (str "5353")
    peerV4 := peers.filter fun ip => ip.to4 ≠ []
    peerV6 := peers.filter fun ip => ip.to4 = [] }

/-! ## The chains -/

/-- `allowedV4`. -/
def allowedV4 : List Bytes :=
  [str "127.0.0.0/8", str "10.0.0.0/8", str "172.16.0.0/12", str "192.168.0.0/16",
    str "100.64.0.0/10"]

/-- `allowedV6`. -/
def allowedV6 : List Bytes := [str "::1/128", str "fe80::/10", str "fd00::/8"]

/-- The networks from which a service is reached that is not public. -/
def allowed : Family → List Bytes
  | .ip => allowedV4
  | .ip6 => allowedV6

/-- The families for which there are maps, sets and rules. -/
def familiesOf (enableIPv6 : Bool) : List Family := if enableIPv6 then [.ip, .ip6] else [.ip]

namespace Settings

variable (s : Settings)

def families : List Family := familiesOf s.enableIPv6

/-- There are rules for DNS over HTTPS. -/
def dohRules : Bool := s.dohEnable && s.dohPort ≠ str "443"

/-- `deny_v4` or `deny_v6`. -/
def denySet : Family → Bytes
  | .ip => str "deny_v4"
  | .ip6 => str "deny_v6"

/-- The set in which the rate of the clients of a service is kept. -/
def meter (service : Bytes) (f : Family) (suffix : Bytes) : Bytes :=
  service ++ (match f with | .ip => [] | .ip6 => str "6") ++ suffix

/-- Local packets and those of known connections. -/
def trusted : List Rule :=
  [⟨[.iifnameLo], .accept⟩, ⟨[.ctState [.established, .related]], .accept⟩]

/-- The rules for denied addresses. -/
def denyRules : List Rule := s.families.map fun f => ⟨[.saddrIn f (denySet f)], .drop⟩

/-- The rules for those who are not allowed to ask. -/
def closedTo (f : Family) : List Rule :=
  [⟨[.saddrNotIn f (allowed f), .dport .udp (str "53")], .drop⟩,
    ⟨[.saddrNotIn f (allowed f), .dport .tcp (str "53")], .drop⟩] ++
    if s.dohRules then [⟨[.saddrNotIn f (allowed f), .dport .tcp s.dohPort], .drop⟩] else []

/-- The rules for the peers. -/
def peerRules : List Rule :=
  (s.peerV4.map fun ip => ⟨[.saddr .ip ip.string, .dport .tcp s.syncPort], .accept⟩) ++
    if s.enableIPv6 then
      s.peerV6.map fun ip => ⟨[.saddr .ip6 ip.string, .dport .tcp s.syncPort], .accept⟩
    else []

/-- The rules for those who are not allowed to synchronise. -/
def syncRules : List Rule :=
  s.families.map fun f => ⟨[.saddrNotIn f (allowed f), .dport .tcp s.syncPort], .drop⟩

/-- The rules with the rate of queries. -/
def dnsLimits (f : Family) : List Rule :=
  [⟨[.dport .udp (str "53"), .limit (meter (str "dns_udp") f (str "_meter")) f s.dnsRateLimit],
      .accept⟩,
    ⟨[.dport .tcp (str "53"), .ctState [.new],
      .limit (meter (str "dns_tcp") f (str "_new_meter")) f s.dnsRateLimit], .accept⟩,
    ⟨[.dport .tcp (str "53"), .limit (meter (str "dns_tcp") f (str "_meter")) f s.dnsRateLimit],
      .accept⟩]

def dohLimits (f : Family) : List Rule :=
  [⟨[.dport .tcp s.dohPort, .ctState [.new],
      .limit (meter (str "doh_tcp") f (str "_new_meter")) f s.dnsRateLimit], .accept⟩,
    ⟨[.dport .tcp s.dohPort, .limit (meter (str "doh_tcp") f (str "_meter")) f s.dnsRateLimit],
      .accept⟩]

/-- The rules for queries above the rate. -/
def excess : List Rule :=
  [⟨[.dport .udp (str "53")], .drop⟩, ⟨[.dport .tcp (str "53")], .drop⟩] ++
    if s.dohRules && !s.publicDNS then [⟨[.dport .tcp s.dohPort], .drop⟩] else []

/-- The chain `input`. -/
def inputChain : List Rule :=
  trusted ++ s.denyRules ++ (if s.publicDNS then [] else s.families.flatMap s.closedTo) ++
    s.peerRules ++ s.syncRules ++ s.families.flatMap s.dnsLimits ++
    (if s.dohRules then s.families.flatMap s.dohLimits else []) ++ s.excess

/-- The rules of the chain `forward` that have a verdict. -/
def forwardDeny : List Rule := s.denyRules

end Settings

/-! ## The text of the table -/

/-- A line of the table. -/
def line (text : Bytes) : Bytes := str "    " ++ text ++ str "\n"

/-- A statement of a chain. -/
def statement (text : Bytes) : Bytes := str "        " ++ text ++ str "\n"

/-- A chain with its head and its body. -/
def chain (name head body : Bytes) : Bytes :=
  line (str "chain " ++ name ++ str " \x7b") ++ statement (head ++ str " policy accept;") ++ body ++
    line (str "\x7d")

/-- The sets of a family, as they are declared. -/
def setLines (f : Family) : Bytes :=
  let addr := match f with
    | .ip => str "ipv4_addr"
    | .ip6 => str "ipv6_addr"
  let set (name flags : Bytes) :=
    line (str "set " ++ name ++ str " " ++ braced (str "type " ++ addr ++ str "; " ++ flags))
  let dynamic := str "flags dynamic; size 65535;"
  set (Settings.denySet f) (str "flags interval;") ++
    ([Settings.meter (str "dns_udp") f (str "_meter"),
      Settings.meter (str "dns_tcp") f (str "_new_meter"),
      Settings.meter (str "dns_tcp") f (str "_meter"),
      Settings.meter (str "doh_tcp") f (str "_new_meter"),
      Settings.meter (str "doh_tcp") f (str "_meter")].flatMap (set · dynamic))

/-- The map of a family. -/
def mapLine : Family → Bytes
  | .ip => line (str "map v4_map " ++ braced
      (str "type ipv4_addr : ipv4_addr; flags dynamic, timeout; timeout 2h;"))
  | .ip6 => line (str "map v6_map " ++ braced
      (str "type ipv6_addr : ipv6_addr; flags dynamic, timeout; timeout 2h;"))

/-- The rule that keeps the mapping of a connection alive. -/
def updateRule (pool : Bytes) : Family → Bytes
  | .ip => statement (str "ct original ip daddr " ++ pool ++
      str " ct status dnat update @v4_map " ++ braced (str "ct original ip daddr : ip daddr"))
  | .ip6 => statement (str "ct original ip6 daddr " ++ pool ++
      str " ct status dnat update @v6_map " ++ braced (str "ct original ip6 daddr : ip6 daddr"))

/-- The rule that sends a packet for a fake address to the real one. -/
def dnatRule (pool : Bytes) : Family → Bytes
  | .ip => statement (str "ip daddr " ++ pool ++ str " dnat ip to ip daddr map @v4_map")
  | .ip6 => statement (str "ip6 daddr " ++ pool ++ str " dnat ip6 to ip6 daddr map @v6_map")

/-- `InitStructure`: the text for `nft`. -/
def initStructure (s : Settings) (poolNet poolNet6 : Bytes) : Bytes :=
  let pool : Family → Bytes := fun f => match f with
    | .ip => poolNet
    | .ip6 => poolNet6
  let each (text : Family → Bytes) := s.families.flatMap text
  str "table inet nextpath \x7b\n" ++
    each mapLine ++ each setLines ++
    chain (str "input") (str "type filter hook input priority 0;")
      (s.inputChain.flatMap Rule.text) ++
    chain (str "forward") (str "type filter hook forward priority 0;")
      (each fun f => Rule.text ⟨[.saddrIn f (Settings.denySet f)], .drop⟩ ++
        updateRule (pool f) f) ++
    chain (str "output") (str "type filter hook output priority 0;")
      (each fun f => updateRule (pool f) f) ++
    chain (str "postrouting") (str "type nat hook postrouting priority 100;")
      (statement (str "masquerade")) ++
    chain (str "filter_postrouting") (str "type filter hook postrouting priority 300;")
      (statement (str "tcp flags syn tcp option maxseg size set rt mtu")) ++
    chain (str "raw_prerouting") (str "type filter hook prerouting priority -300;")
      (statement (str "iifname \"lo\" notrack")) ++
    chain (str "raw_output") (str "type filter hook output priority -300;")
      (statement (str "oifname \"lo\" notrack")) ++
    chain (str "nat_prerouting") (str "type nat hook prerouting priority -100;")
      (each fun f => dnatRule (pool f) f) ++
    chain (str "nat_output") (str "type nat hook output priority -100;")
      (each fun f => dnatRule (pool f) f) ++
    str "\x7d\n"

end NextPath.Netlink
