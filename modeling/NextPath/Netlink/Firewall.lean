import NextPath.Netlink.Ruleset
import NextPath.Parser.Networks

/-!
# Who reaches the node

The rules of the chain `input` are tried in their order, and the first that applies decides; a
packet on which none decides is accepted, which is the policy of the chain. `Settings.access` says
what the rules are for, and `input_policy` that they do it.

`InitStructure` does not empty the chain before it adds its rules to it. Where the engine is started
again and the table is still there, the rules of the new start come after those of the old one
(`verdictAfter`).

Numbers and addresses are read by `nft` as they are written; what a rate limit admits is left open.
-/

namespace NextPath.Netlink

open Strings Net

/-! ## Packets and rules -/

structure Packet where
  lo : Bool
  state : CtState
  saddr : IP
  /-- The protocol and the port, if it has one. -/
  dest : Option (Proto × ℕ)

/-- The bytes of an address. -/
def Family.length : Family → ℕ
  | .ip => 4
  | .ip6 => 16

namespace Packet

variable (p : Packet)

def isOf (f : Family) : Bool := p.saddr.length = f.length

/-- The packet goes to a port. -/
def goesTo (proto : Proto) (port : Bytes) : Bool :=
  p.dest.any fun d => d.1 = proto ∧ atoi port = some (d.2 : ℤ)

/-- The packet comes from a network. -/
def comesFrom (net : Bytes) : Bool := (Parser.parsePrefix net).any (·.contains p.saddr)

end Packet

/-- What the rules depend on beside the packet. -/
structure FilterState where
  /-- The addresses of a set. -/
  sets : Bytes → Bytes → Bool
  /-- The rate of the source of the packet is below the limit of a set. -/
  within : Bytes → Bool

variable (k : FilterState) (p : Packet)

def Match.holds : Match → Bool
  | .iifnameLo => p.lo
  | .ctState states => p.state ∈ states
  | .saddrIn f set => p.isOf f && k.sets set p.saddr
  | .saddrNotIn f nets => p.isOf f && !nets.any p.comesFrom
  | .saddr f addr => p.isOf f && parseAddr addr = some p.saddr
  | .dport proto port => p.goesTo proto port
  | .limit set f _ => p.isOf f && k.within set

def Rule.applies (r : Rule) : Bool := r.tests.all (Match.holds k p)

/-- The decision of the first rule that applies. -/
def decision (rules : List Rule) : Option Verdict :=
  rules.findSome? fun r => if r.applies k p then some r.verdict else none

/-- The verdict of a chain, with its policy. -/
def verdict (rules : List Rule) : Verdict := (decision k p rules).getD .accept

theorem decision_append (rules rules' : List Rule) :
    decision k p (rules ++ rules') = (decision k p rules).or (decision k p rules') :=
  List.findSome?_append

/-- The decision of rules with the same verdict. -/
theorem decision_of_verdict {v : Verdict} {rules : List Rule} {b : Bool}
    (hv : ∀ r ∈ rules, r.verdict = v) (hb : rules.any (Rule.applies k p) = b) :
    decision k p rules = if b then some v else none := by
  subst hb
  induction rules with
  | nil => rfl
  | cons r rules ih =>
    have hr := hv r List.mem_cons_self
    have hrules := ih fun r' hr' => hv r' (List.mem_cons_of_mem _ hr')
    rw [decision, List.findSome?_cons, List.any_cons]
    cases happ : r.applies k p with
    | true => simp [hr]
    | false => simpa [decision] using hrules

/-- A condition that does not depend on the element. -/
theorem any_and_const {α : Type*} (l : List α) (f : α → Bool) (c : Bool) :
    (l.any fun a => f a && c) = (l.any f && c) := by
  cases c <;> simp

/-! ## What the rules are for -/

namespace Settings

variable (s : Settings)

/-- A local packet or one of a known connection. -/
def isTrusted (p : Packet) : Bool := p.lo || p.state = .established || p.state = .related

/-- The source is denied. -/
def denied : Bool := s.families.any fun f => p.isOf f && k.sets (denySet f) p.saddr

/-- The source is outside the networks from which a service is reached that is not public. -/
def outside : Bool := s.families.any fun f => p.isOf f && !(allowed f).any p.comesFrom

/-- A query. -/
def dns (p : Packet) : Bool := p.goesTo .udp (str "53") || p.goesTo .tcp (str "53")

/-- A query over HTTPS. -/
def doh : Bool := s.dohRules && p.goesTo .tcp s.dohPort

def sync : Bool := p.goesTo .tcp s.syncPort

/-- The source is a peer. -/
def peer : Bool :=
  (p.isOf .ip && s.peerV4.any fun ip => parseAddr ip.string = some p.saddr) ||
    (s.enableIPv6 && p.isOf .ip6 && s.peerV6.any fun ip => parseAddr ip.string = some p.saddr)

/-- The rate of new connections or that of all packets is below the limit. -/
def withinEither (service : Bytes) (f : Family) : Bool :=
  (p.state = .new && k.within (meter service f (str "_new_meter"))) ||
    k.within (meter service f (str "_meter"))

/-- A query below the rate. -/
def dnsWithin : Bool := s.families.any fun f => p.isOf f &&
  ((p.goesTo .udp (str "53") && k.within (meter (str "dns_udp") f (str "_meter"))) ||
    (p.goesTo .tcp (str "53") && withinEither k p (str "dns_tcp") f))

/-- A query over HTTPS below the rate. -/
def dohWithin : Bool :=
  s.doh p && s.families.any fun f => p.isOf f && withinEither k p (str "doh_tcp") f

/-- Who reaches the node. -/
def access : Verdict :=
  if isTrusted p then .accept
  else if s.denied k p then .drop
  else if !s.publicDNS && s.outside p && (dns p || s.doh p) then .drop
  else if s.sync p && s.peer p then .accept
  else if s.sync p && s.outside p then .drop
  else if s.dnsWithin k p || s.dohWithin k p then .accept
  else if dns p || (s.doh p && !s.publicDNS) then .drop
  else .accept

/-! ## The parts of the chain -/

theorem decision_trusted :
    decision k p trusted = if isTrusted p then some .accept else none := by
  apply decision_of_verdict
  · simp [trusted]
  · simp [trusted, isTrusted, Rule.applies, Match.holds, Bool.or_assoc]

theorem decision_denyRules :
    decision k p s.denyRules = if s.denied k p then some .drop else none := by
  apply decision_of_verdict
  · simp [denyRules]
  · simp [denyRules, denied, Rule.applies, Match.holds, Function.comp_def]

/-- The rules for those who are not allowed to ask, of all families. -/
theorem decision_closedTo :
    decision k p (s.families.flatMap s.closedTo) =
      if s.outside p && (dns p || s.doh p) then some .drop else none := by
  apply decision_of_verdict
  · intro r hr
    obtain ⟨f, -, hf⟩ := List.mem_flatMap.1 hr
    simp only [closedTo, List.mem_append, List.mem_cons, List.not_mem_nil, or_false] at hf
    rcases hf with (rfl | rfl) | hf
    · rfl
    · rfl
    · split at hf
      · rw [List.mem_singleton.1 hf]
      · simp at hf
  · have happ (f : Family) : (s.closedTo f).any (Rule.applies k p) =
        (p.isOf f && !(allowed f).any p.comesFrom && (dns p || s.doh p)) := by
      unfold closedTo doh dns
      cases s.dohRules <;> cases hout : (p.isOf f && !(allowed f).any p.comesFrom) <;>
        simp [Rule.applies, Match.holds, hout, Bool.or_assoc]
    simp only [List.any_flatMap, happ, outside, any_and_const]

theorem decision_peerRules :
    decision k p s.peerRules = if s.sync p && s.peer p then some .accept else none := by
  apply decision_of_verdict
  · intro r hr
    unfold peerRules at hr
    cases s.enableIPv6 <;> simp at hr <;> grind
  · unfold peerRules sync peer
    rw [Bool.eq_iff_iff]
    cases s.enableIPv6 <;> simp [Rule.applies, Match.holds] <;> grind

theorem decision_syncRules :
    decision k p s.syncRules = if s.sync p && s.outside p then some .drop else none := by
  apply decision_of_verdict
  · simp [syncRules]
  · rw [Bool.and_comm, outside, sync, ← any_and_const]
    simp [syncRules, Rule.applies, Match.holds, Function.comp_def]

/-- The rules with the rate of queries, of all families. -/
theorem decision_dnsLimits :
    decision k p (s.families.flatMap s.dnsLimits) =
      if s.dnsWithin k p then some .accept else none := by
  apply decision_of_verdict
  · intro r hr
    obtain ⟨f, -, hf⟩ := List.mem_flatMap.1 hr
    simp only [dnsLimits, List.mem_cons, List.not_mem_nil, or_false] at hf
    rcases hf with rfl | rfl | rfl <;> rfl
  · rw [List.any_flatMap, dnsWithin]
    congr 1
    funext f
    simp only [dnsLimits, withinEither, Rule.applies, Match.holds, List.any_cons, List.any_nil,
      List.all_cons, List.all_nil]
    cases p.isOf f <;> cases p.goesTo .tcp (str "53") <;> simp

theorem decision_dohLimits :
    decision k p (if s.dohRules then s.families.flatMap s.dohLimits else []) =
      if s.dohWithin k p then some .accept else none := by
  apply decision_of_verdict
  · intro r hr
    split at hr
    · obtain ⟨f, -, hf⟩ := List.mem_flatMap.1 hr
      simp only [dohLimits, List.mem_cons, List.not_mem_nil, or_false] at hf
      rcases hf with rfl | rfl <;> rfl
    · simp at hr
  · have happ (f : Family) : (s.dohLimits f).any (Rule.applies k p) =
        (p.isOf f && withinEither k p (str "doh_tcp") f && p.goesTo .tcp s.dohPort) := by
      simp only [dohLimits, withinEither, Rule.applies, Match.holds, List.any_cons, List.any_nil,
        List.all_cons, List.all_nil]
      cases p.isOf f <;> cases p.goesTo .tcp s.dohPort <;> simp
    unfold dohWithin doh
    cases s.dohRules
    · simp
    · rw [if_pos rfl, List.any_flatMap, Bool.true_and, Bool.and_comm, ← any_and_const]
      simp only [happ]

theorem decision_excess :
    decision k p s.excess =
      if dns p || (s.doh p && !s.publicDNS) then some .drop else none := by
  apply decision_of_verdict
  · intro r hr
    unfold excess at hr
    cases (s.dohRules && !s.publicDNS) <;> simp at hr <;> grind
  · unfold excess dns doh
    cases s.dohRules <;> cases s.publicDNS <;>
      simp [Rule.applies, Match.holds, Bool.or_assoc]

/-- The decision of the chain, part by part. -/
theorem decision_inputChain :
    decision k p s.inputChain =
      if isTrusted p then some .accept
      else if s.denied k p then some .drop
      else if !s.publicDNS && s.outside p && (dns p || s.doh p) then some .drop
      else if s.sync p && s.peer p then some .accept
      else if s.sync p && s.outside p then some .drop
      else if s.dnsWithin k p || s.dohWithin k p then some .accept
      else if dns p || (s.doh p && !s.publicDNS) then some .drop
      else none := by
  have hclosed : decision k p (if s.publicDNS then [] else s.families.flatMap s.closedTo) =
      if !s.publicDNS && s.outside p && (dns p || s.doh p) then some .drop else none := by
    cases hpub : s.publicDNS
    · simpa using decision_closedTo k p s
    · rfl
  simp only [inputChain, decision_append, decision_trusted, decision_denyRules, hclosed,
    decision_peerRules, decision_syncRules, decision_dnsLimits, decision_dohLimits,
    decision_excess]
  cases isTrusted p <;> cases s.denied k p <;>
    cases (!s.publicDNS && s.outside p && (dns p || s.doh p)) <;>
    cases (s.sync p && s.peer p) <;> cases (s.sync p && s.outside p) <;>
    cases s.dnsWithin k p <;> cases s.dohWithin k p <;> rfl

end Settings

/-- **The chain `input` lets in who is meant to be let in.** -/
theorem input_policy (s : Settings) : verdict k p s.inputChain = s.access k p := by
  rw [verdict, Settings.decision_inputChain, Settings.access]
  simp only [apply_ite (Option.getD · Verdict.accept), Option.getD_some, Option.getD_none]

/-! ## What follows for outsiders -/

theorem Packet.family_unique {p : Packet} {f g : Family} (hf : p.isOf f = true)
    (hg : p.isOf g = true) : f = g := by
  have hlen : f.length = g.length := by
    simp only [Packet.isOf, decide_eq_true_eq] at hf hg
    omega
  cases f <;> cases g <;> simp [Family.length] at hlen ⊢

/-- For a packet of a family there are rules for, the tests speak of that family only. -/
theorem any_families {s : Settings} {p : Packet} {f : Family} (hf : f ∈ s.families)
    (hp : p.isOf f = true) (test : Family → Bool) :
    (s.families.any fun g => p.isOf g && test g) = test f := by
  rw [Bool.eq_iff_iff, List.any_eq_true]
  constructor
  · rintro ⟨g, -, hg⟩
    obtain ⟨hgp, htest⟩ := Bool.and_eq_true_iff.1 hg
    rwa [Packet.family_unique hp hgp]
  · intro htest
    exact ⟨f, hf, by rw [hp, htest]; rfl⟩

/-- For a packet of a family without rules, they all fail. -/
theorem any_families_of_notMem {s : Settings} {p : Packet} {f : Family} (hf : f ∉ s.families)
    (hp : p.isOf f = true) (test : Family → Bool) :
    (s.families.any fun g => p.isOf g && test g) = false := by
  rw [List.any_eq_false]
  intro g hg hgp
  rw [Bool.and_eq_true_iff] at hgp
  exact hf (Packet.family_unique hp hgp.1 ▸ hg)

variable {k p}

/-- **Who reaches a service that is not public** is no denied address, and comes from one of the
networks that are allowed, or is a peer that synchronises. -/
theorem allowed_of_accept {s : Settings} {f : Family} (hpub : s.publicDNS = false)
    (hf : f ∈ s.families) (hp : p.isOf f = true)
    (hservice : (Settings.dns p || s.doh p || s.sync p) = true)
    (haccept : verdict k p s.inputChain = .accept) :
    Settings.isTrusted p = true ∨
      k.sets (Settings.denySet f) p.saddr = false ∧
        ((allowed f).any p.comesFrom = true ∨
          s.sync p = true ∧ s.peer p = true ∧ (Settings.dns p || s.doh p) = false) := by
  have hdenied : s.denied k p = k.sets (Settings.denySet f) p.saddr := any_families hf hp _
  have houtside : s.outside p = !(allowed f).any p.comesFrom := any_families hf hp _
  rw [input_policy, Settings.access, hdenied, houtside, hpub] at haccept
  cases htrusted : Settings.isTrusted p with
  | true => exact .inl rfl
  | false =>
    refine .inr ?_
    cases hden : k.sets (Settings.denySet f) p.saddr with
    | true => simp [htrusted, hden] at haccept
    | false =>
      refine ⟨rfl, ?_⟩
      cases hin : (allowed f).any p.comesFrom with
      | true => exact .inl rfl
      | false =>
        -- From outside, a query is dropped first, and then whoever is no peer.
        refine .inr ?_
        cases hquery : (Settings.dns p || s.doh p) with
        | true => simp [htrusted, hden, hin, hquery] at haccept
        | false =>
          have hsync : s.sync p = true := by simpa [hquery] using hservice
          refine ⟨hsync, ?_, rfl⟩
          by_contra hpeer
          simp [htrusted, hden, hin, hquery, hsync, hpeer] at haccept

/-- The settings of a node for one network, with a peer. -/
def lanSettings (enableIPv6 : Bool) : Settings where
  dohEnable := false
  dohPort := str "443"
  publicDNS := false
  dnsRateLimit := str "300"
  enableIPv6 := enableIPv6
  syncPort := str "5353"
  peerV4 := [[203, 0, 113, 7]]
  peerV6 := []

/-- A peer that synchronises. -/
def peerPacket : Packet := ⟨false, .new, [203, 0, 113, 7], some (.tcp, 5353)⟩

/-- Empty sets, and rates below every limit. -/
def quietState : FilterState := ⟨fun _ _ => false, fun _ => true⟩

theorem allowed_of_accept_peer :
    verdict quietState peerPacket (lanSettings true).inputChain = .accept ∧
      (Settings.isTrusted peerPacket = true ∨
        quietState.sets (Settings.denySet .ip) peerPacket.saddr = false ∧
          ((allowed .ip).any peerPacket.comesFrom = true ∨
            (lanSettings true).sync peerPacket = true ∧ (lanSettings true).peer peerPacket = true ∧
              (Settings.dns peerPacket || (lanSettings true).doh peerPacket) = false)) :=
  have haccept : verdict quietState peerPacket (lanSettings true).inputChain = .accept := by
    decide +kernel
  ⟨haccept, allowed_of_accept (s := lanSettings true) (f := .ip) rfl (by decide) (by decide)
    (by decide +kernel) haccept⟩

/-- **Without IPv6** an IPv6 packet is dropped if it is a query, also one from a network that would
be allowed, and accepted otherwise: the port of the synchronisation is open to every IPv6 address, a
denied one too. -/
theorem verdict_without_ipv6 {s : Settings} (h6 : s.enableIPv6 = false) (hp : p.isOf .ip6 = true) :
    verdict k p s.inputChain =
      if !Settings.isTrusted p && (Settings.dns p || (s.doh p && !s.publicDNS)) then .drop
      else .accept := by
  have hf : Family.ip6 ∉ s.families := by simp [Settings.families, familiesOf, h6]
  have h4 : p.isOf .ip = false := by
    by_contra h4
    exact Family.noConfusion (Packet.family_unique hp (by simpa using h4))
  have hdenied : s.denied k p = false := any_families_of_notMem hf hp _
  have houtside : s.outside p = false := any_families_of_notMem hf hp _
  have hdns : s.dnsWithin k p = false := any_families_of_notMem hf hp _
  have hdoh : s.dohWithin k p = false := by
    rw [Settings.dohWithin, any_families_of_notMem hf hp, Bool.and_false]
  have hpeer : s.peer p = false := by simp [Settings.peer, h4, h6]
  rw [input_policy, Settings.access, hdenied, houtside, hdns, hdoh, hpeer]
  cases Settings.isTrusted p <;> simp

/-- A stranger at the port of the synchronisation. -/
def strangerPacket : Packet :=
  ⟨false, .new, [0x20, 1, 0xd, 0xb8, 0, 0, 0, 0, 0, 0, 0, 0, 0, 0, 0, 9], some (.tcp, 5353)⟩

theorem verdict_without_ipv6_stranger :
    verdict quietState strangerPacket (lanSettings false).inputChain = .accept ∧
      verdict quietState strangerPacket (lanSettings true).inputChain = .drop := by
  refine ⟨?_, by decide +kernel⟩
  rw [verdict_without_ipv6 (s := lanSettings false) rfl (by decide)]
  decide +kernel

/-! ## Starts without an end -/

variable (p)

/-- The verdict after several starts between which the table was not deleted. A rule of each start
keeps its own place, so the answers of its rate limit are its own; the sets are shared. -/
def verdictAfter (sets : Bytes → Bytes → Bool) (starts : List (Settings × (Bytes → Bool))) :
    Verdict :=
  (starts.findSome? fun st => decision ⟨sets, st.2⟩ p st.1.inputChain).getD .accept

/-- The rules of the starts, one after the other, are one chain. -/
theorem verdictAfter_eq (starts : List Settings) :
    verdictAfter p k.sets (starts.map fun s => (s, k.within)) =
      verdict k p (starts.flatMap Settings.inputChain) := by
  have hdecision : ((starts.map fun s => (s, k.within)).findSome? fun st =>
      decision ⟨k.sets, st.2⟩ p st.1.inputChain) =
        decision k p (starts.flatMap Settings.inputChain) := by
    induction starts with
    | nil => rfl
    | cons s starts ih =>
      rw [List.flatMap_cons, decision_append, ← ih, List.map_cons, List.findSome?_cons]
      cases decision k p s.inputChain <;> rfl
  rw [verdictAfter, verdict, hdecision]

/-- What a later start says of a packet on which an earlier one with the same settings, other peers
and other rates apart, did not decide: it does not drop it. -/
theorem decision_ne_drop {sets : Bytes → Bytes → Bool} {within within' : Bytes → Bool}
    {s s' : Settings} (hpeers : s' = { s with peerV4 := s'.peerV4, peerV6 := s'.peerV6 })
    (h : decision ⟨sets, within⟩ p s.inputChain = none) :
    decision ⟨sets, within'⟩ p s'.inputChain ≠ some .drop := by
  have hdenied : s'.denied ⟨sets, within'⟩ p = s.denied ⟨sets, within⟩ p := by rw [hpeers]; rfl
  have houtside : s'.outside p = s.outside p := by rw [hpeers]; rfl
  have hdoh : s'.doh p = s.doh p := by rw [hpeers]; rfl
  have hsync : s'.sync p = s.sync p := by rw [hpeers]; rfl
  have hpub : s'.publicDNS = s.publicDNS := by rw [hpeers]
  rw [Settings.decision_inputChain] at h ⊢
  rw [hdenied, houtside, hdoh, hsync, hpub]
  -- The conditions under which the later start drops it are those of the earlier one.
  split_ifs at h with htrusted hden hclosed hpeer hout hwithin hexcess
  rw [if_neg htrusted, if_neg hden, if_neg hclosed, if_neg hout, if_neg hexcess]
  split_ifs <;> simp

/-- **The first start decides.** The engine is started again in the same environment while the table
is still there: whatever the names of the peers stand for by then, every packet gets the verdict of
the first start. A peer whose address has changed stays locked out, and its old address stays let
in. -/
theorem first_start_decides (u : Unicode) (env : Engine.Env) (sets : Bytes → Bytes → Bool)
    (first : (Bytes → Option (List IP)) × (Bytes → Bool))
    (later : List ((Bytes → Option (List IP)) × (Bytes → Bool))) :
    verdictAfter p sets ((first :: later).map fun st => (settings u env st.1, st.2)) =
      verdict ⟨sets, first.2⟩ p (settings u env first.1).inputChain := by
  rw [verdictAfter, verdict, List.map_cons, List.findSome?_cons]
  cases hfirst : decision ⟨sets, first.2⟩ p (settings u env first.1).inputChain with
  | some v => rfl
  | none =>
    -- No later start drops the packet, so it is accepted by a rule or by the policy.
    rw [Option.getD_none]
    cases hlater : (later.map fun st => (settings u env st.1, st.2)).findSome? fun st =>
        decision ⟨sets, st.2⟩ p st.1.inputChain with
    | none => rfl
    | some v =>
      obtain ⟨st, hst, hv⟩ := List.exists_of_findSome?_eq_some hlater
      obtain ⟨r, -, rfl⟩ := List.mem_map.1 hst
      have hdrop : decision ⟨sets, r.2⟩ p (settings u env r.1).inputChain ≠ some .drop :=
        decision_ne_drop p rfl hfirst
      cases v with
      | accept => rfl
      | drop => exact absurd hv hdrop

end NextPath.Netlink
