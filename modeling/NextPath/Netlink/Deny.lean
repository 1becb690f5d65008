import NextPath.Netlink.Firewall
import NextPath.Parser.Aggregation
import NextPath.Parser.Compile
import NextPath.Parser.NetworkText

/-!
# From the list of denied networks to the kernel

The compiler writes the denied networks of a family to a file, a network a line. `ReloadDenySets`
reads the file line by line, drops what is no network and no address, and has `nft` put the rest in
place of the elements of a set.

* `getDenyElements`, `reloadDenySets`: the elements and the commands;
* `load`: what `nft` does with the commands. It takes all of them or none, and refuses elements of
  another family and different elements that overlap.

The networks that the compiler writes are read back and do not overlap, so that afterwards the sets
hold exactly the denied addresses, whatever they held before (`load_reloadDenySets`). The chains
then drop what comes from a denied address, and no more than they would without the list
(`deny_enforced`).
-/

namespace NextPath.Netlink

open Strings Net Laminar
open NextPath.Parser (Prefix)

/-! ## The commands -/

/-- `getDenyElements`, for one line. -/
def denyLine (text : Bytes) : Option Bytes :=
  let line := trimSpace (before (str "#") text)
  if line = [] then none
  else if contains line (str "/") then if (parseCIDR line).isSome then some line else none
  else if parseIP line = [] then none
  else some line

/-- `getDenyElements`, before the elements are joined; the file may be missing. -/
def getDenyElements (content : Option Bytes) : List Bytes :=
  ((content.getD []).splitOn (chr '\n')).filterMap denyLine

inductive Command
  | flushSet (f : Family)
  | addElement (f : Family) (elements : List Bytes)
  deriving DecidableEq

/-- A line of the script. -/
def Command.text : Command → Bytes
  | .flushSet f => str "flush set inet nextpath " ++ Settings.denySet f ++ str "\n"
  | .addElement f elements =>
    str "add element inet nextpath " ++ Settings.denySet f ++ str " " ++
      braced (join (str ", ") elements) ++ str "\n"

/-- The commands for the set of a family. -/
def denyCommands (f : Family) (content : Option Bytes) : List Command :=
  let denyElements := getDenyElements content
  .flushSet f :: if denyElements = [] then [] else [.addElement f denyElements]

/-- `ReloadDenySets`: the script. -/
def reloadDenySets (enableIPv6 : Bool) (files : Family → Option Bytes) : List Command :=
  (familiesOf enableIPv6).flatMap fun f => denyCommands f (files f)

/-! ## What `nft` does with them -/

/-- The elements of the two sets. -/
abbrev DenySets := Family → List Prefix

/-- An element, of the family of its set. -/
def readElement (f : Family) (text : Bytes) : Option Prefix :=
  let net := if contains text (str "/") then Parser.parsePrefix text
    else (parseAddr text).map Prefix.single
  net.filter fun n => n.addr.length = f.length

/-- Different elements that overlap. -/
def conflict (a b : Prefix) : Bool := a ≠ b && (a.contains b.addr || b.contains a.addr)

def Command.run (sets : DenySets) : Command → Option DenySets
  | .flushSet f => some (Function.update sets f [])
  | .addElement f elements => do
    let added ← elements.mapM (readElement f)
    if (sets f ++ added).Pairwise (conflict · · = false) then
      some (Function.update sets f (sets f ++ added))
    else none

/-- A script, of which all commands are taken or none. -/
def load (script : List Command) (sets : DenySets) : Option DenySets :=
  script.foldlM Command.run sets

/-- The addresses of the sets, by their names. -/
def DenySets.contains (sets : DenySets) (name ip : Bytes) : Bool :=
  [Family.ip, Family.ip6].any fun f => name = Settings.denySet f && (sets f).any (·.contains ip)

/-! ## The compiled list is read back -/

variable {nets : List Prefix}

theorem toNat_of_isTextChar {c : UInt8} (h : isTextChar c = true) :
    32 < c.toNat ∧ c.toNat < 128 := by
  simp only [isTextChar, Bool.or_eq_true, beq_iff_eq, List.any_eq_true, List.mem_range] at h
  rcases h with (rfl | rfl) | ⟨d, hd, rfl⟩
  · decide
  · decide
  · interval_cases d <;> decide

theorem solid_string {n : Prefix} (h : n.WellFormed) : Solid n.string := by
  apply solid_of_forall
  intro c hc
  by_cases hslash : c = chr '/'
  · subst hslash
    decide
  · apply toNat_of_isTextChar
    by_contra htext
    exact Prefix.notMem_text (by simpa using htext) hslash h hc

theorem contains_slash_string (n : Prefix) : contains n.string (str "/") = true := by
  apply contains_iff.2
  refine ⟨Parser.addrString n.addr, numeral 10 n.bits, ?_⟩
  rw [Prefix.string, List.append_assoc]
  rfl

theorem denyLine_string {n : Prefix} (h : n.WellFormed) : denyLine n.string = some n.string := by
  have hbefore : before (str "#") n.string = n.string := by
    apply before_eq_self
    intro c hc hmem
    obtain rfl : c = chr '#' := by simpa [str, chr] using hmem
    exact Prefix.notMem_text (by decide) (by decide) h hc
  have hne : n.string ≠ [] := by simp [Prefix.string]
  simp only [denyLine, hbefore, (solid_string h).trimSpace, if_neg hne,
    contains_slash_string, if_true, Prefix.isSome_parseCIDR_string h]

theorem getDenyElements_ipText (h : ∀ n ∈ nets, n.WellFormed) :
    getDenyElements (some (Parser.ipText nets)) = nets.map Prefix.string := by
  unfold getDenyElements Parser.ipText
  rw [Option.getD_some]
  induction nets with
  | nil => decide
  | cons n nets ih =>
    have hn := h n List.mem_cons_self
    have hnl : chr '\n' ∉ n.string := Prefix.notMem_text (by decide) (by decide) hn
    have hcons : (List.flatMap (fun n : Prefix => n.string ++ str "\n") (n :: nets)) =
        n.string ++ chr '\n' :: nets.flatMap fun n => n.string ++ str "\n" := by
      rw [List.flatMap_cons, List.append_assoc]
      rfl
    rw [hcons, List.splitOn_append_cons_self, List.splitOn_eq_singleton hnl,
      List.singleton_append, List.filterMap_cons_some (denyLine_string hn),
      ih fun m hm => h m (List.mem_cons_of_mem _ hm), List.map_cons]

/-! ## The sets after a reload -/

variable {f : Family}

/-- Networks that make up a set: they are of its family and do not overlap. -/
structure Loadable (f : Family) (nets : List Prefix) : Prop where
  wellFormed : ∀ n ∈ nets, n.WellFormed
  family : ∀ n ∈ nets, n.addr.length = f.length
  disjoint : nets.Pairwise fun a b => Disjoint a.addresses b.addresses

theorem conflict_of_disjoint {a b : Prefix} (ha : a.WellFormed) (hb : b.WellFormed)
    (h : Disjoint a.addresses b.addresses) : conflict a b = false := by
  have hab : a.contains b.addr = false := by
    by_contra hin
    have hmem : b.addr ∈ a.addresses := eq_true_of_ne_false hin
    exact Set.disjoint_left.1 h hmem (Prefix.addr_mem_addresses hb)
  have hba : b.contains a.addr = false := by
    by_contra hin
    have hmem : a.addr ∈ b.addresses := eq_true_of_ne_false hin
    exact Set.disjoint_left.1 h (Prefix.addr_mem_addresses ha) hmem
  rw [conflict, hab, hba, Bool.or_false, Bool.and_false]

theorem Loadable.pairwise (h : Loadable f nets) : nets.Pairwise (conflict · · = false) :=
  h.disjoint.imp_of_mem fun ha hb hab =>
    conflict_of_disjoint (h.wellFormed _ ha) (h.wellFormed _ hb) hab

theorem readElement_string {n : Prefix} (h : n.WellFormed) (hf : n.addr.length = f.length) :
    readElement f n.string = some n := by
  simp [readElement, contains_slash_string, Prefix.parsePrefix_string h, hf]

theorem Loadable.mapM_readElement (h : Loadable f nets) :
    (nets.map Prefix.string).mapM (readElement f) = some nets := by
  induction nets with
  | nil => rfl
  | cons n nets ih =>
    have hrest : Loadable f nets :=
      ⟨fun m hm => h.wellFormed m (List.mem_cons_of_mem _ hm),
        fun m hm => h.family m (List.mem_cons_of_mem _ hm), h.disjoint.of_cons⟩
    have hn : readElement f n.string = some n :=
      readElement_string (h.wellFormed n List.mem_cons_self) (h.family n List.mem_cons_self)
    rw [List.map_cons, List.mapM_cons, hn, ih hrest]
    rfl

/-- The commands for a family replace the elements of its set. -/
theorem Loadable.load_denyCommands (h : Loadable f nets) (sets : DenySets) :
    load (denyCommands f (some (Parser.ipText nets))) sets =
      some (Function.update sets f nets) := by
  rw [denyCommands, getDenyElements_ipText h.wellFormed]
  by_cases hnil : nets = []
  · subst hnil
    rfl
  · have hadd : Command.run (Function.update sets f []) (.addElement f (nets.map Prefix.string)) =
        some (Function.update sets f nets) := by
      simp only [Command.run, h.mapM_readElement, Option.bind_eq_bind, Option.bind_some,
        Function.update_self, List.nil_append, if_pos h.pairwise, Function.update_idem]
    rw [if_neg (by simpa using hnil)]
    change (Command.run (Function.update sets f [])
      (.addElement f (nets.map Prefix.string))).bind some = _
    rw [hadd]
    rfl

theorem load_append (script script' : List Command) (sets : DenySets) :
    load (script ++ script') sets = (load script sets).bind (load script') :=
  List.foldlM_append

/-- **The sets after a reload** hold the networks of the files, and a set that is not in use stays
as it is. -/
theorem load_reloadDenySets {nets : Family → List Prefix} (h : ∀ f, Loadable f (nets f))
    (enableIPv6 : Bool) (sets : DenySets) :
    load (reloadDenySets enableIPv6 fun f => some (Parser.ipText (nets f))) sets =
      some fun f => if f ∈ familiesOf enableIPv6 then nets f else sets f := by
  have hsets : ∀ fs : List Family,
      load (fs.flatMap fun f => denyCommands f (some (Parser.ipText (nets f)))) sets =
        some fun f => if f ∈ fs then nets f else sets f := by
    intro fs
    induction fs using List.reverseRecOn with
    | nil => simp [load]
    | append_singleton fs f ih =>
      rw [List.flatMap_append, load_append, ih, Option.bind_some, List.flatMap_singleton,
        (h f).load_denyCommands]
      congr 1
      funext g
      by_cases hg : g = f
      · subst hg
        simp
      · simp [hg]
  exact hsets _

/-! ## The denied addresses -/

/-- The family as the compiler tells it. -/
def Family.isV6 : Family → Bool
  | .ip => false
  | .ip6 => true

theorem length_eq_iff_is6 {n : Prefix} (h : n.WellFormed) :
    n.addr.length = f.length ↔ n.is6 = f.isV6 := by
  rcases h.1 with hlen | hlen <;> cases f <;> simp [Prefix.is6, Family.length, Family.isV6, hlen]

variable {ipset : Parser.IPSets} {l : Parser.AddressLists}

/-- The list of a family is a cover of the denied addresses of the family. -/
theorem cover_compileDeny (hset : ipset.Exact) (hl : ∀ n ∈ l.denyIps, n.WellFormed)
    (isV6 : Bool) :
    Cover Prefix.addresses {n | n.WellFormed}
      (Parser.covered (Parser.filterIPNets l.denyIps isV6 false))
      (Parser.compileDeny ipset l isV6) :=
  hset.collapses _ fun n hn => hl n (Parser.mem_filterIPNets.1 hn).1

theorem mem_covered_compileDeny (hset : ipset.Exact) (hl : ∀ n ∈ l.denyIps, n.WellFormed)
    {ip : Bytes} (hip : ip.length = f.length) :
    ip ∈ Parser.covered (Parser.compileDeny ipset l f.isV6) ↔ ip ∈ Parser.covered l.denyIps := by
  have hspan : Parser.covered (Parser.compileDeny ipset l f.isV6) =
      Parser.covered (Parser.filterIPNets l.denyIps f.isV6 false) :=
    (cover_compileDeny hset hl f.isV6).span_eq
  rw [hspan, Parser.mem_covered, Parser.mem_covered]
  constructor
  · rintro ⟨n, hn, hmem⟩
    exact ⟨n, (Parser.mem_filterIPNets.1 hn).1, hmem⟩
  · rintro ⟨n, hn, hmem⟩
    -- A network has addresses of its own family only.
    have hlen : n.addr.length = f.length := by
      rw [← ((Prefix.mem_addresses (hl n hn)).1 hmem).1, hip]
    exact ⟨n, Parser.mem_filterIPNets.2 ⟨hn, (length_eq_iff_is6 (hl n hn)).1 hlen, by simp⟩, hmem⟩

theorem loadable_compileDeny (hset : ipset.Exact) (hl : ∀ n ∈ l.denyIps, n.WellFormed)
    (f : Family) : Loadable f (Parser.compileDeny ipset l f.isV6) := by
  have hcover := cover_compileDeny hset hl f.isV6
  refine ⟨hcover.mem_ok, fun n hn => ?_, hcover.disjoint⟩
  have hwf : n.WellFormed := hcover.mem_ok n hn
  -- The address of the network is one of a denied network, which is of the family.
  have hmem : n.addr ∈ Parser.covered (Parser.filterIPNets l.denyIps f.isV6 false) := by
    rw [← hcover.span_eq]
    exact ⟨n, hn, Prefix.addr_mem_addresses hwf⟩
  obtain ⟨m, hm, hnm⟩ := hmem
  obtain ⟨hml, hm6, -⟩ := Parser.mem_filterIPNets.1 hm
  rw [((Prefix.mem_addresses (hl m hml)).1 hnm).1]
  exact (length_eq_iff_is6 (hl m hml)).2 hm6

theorem contains_denySet (sets : DenySets) (f : Family) (ip : Bytes) :
    sets.contains (Settings.denySet f) ip = true ↔ ip ∈ Parser.covered (sets f) := by
  have hnames : Settings.denySet .ip ≠ Settings.denySet .ip6 := by decide
  cases f <;>
    simp [DenySets.contains, hnames, hnames.symm, Prefix.addresses]

/-- The files that the compiler leaves for the two sets. -/
def denyFiles (ipset : Parser.IPSets) (l : Parser.AddressLists) (old : Family → Option Bytes)
    (f : Family) : Option Bytes :=
  Parser.writeIPFile (fun _ => false) (Parser.compileDeny ipset l f.isV6) (old f)

theorem denyFiles_eq (old : Family → Option Bytes) :
    denyFiles ipset l old =
      fun f => some (Parser.ipText (Parser.compileDeny ipset l f.isV6)) := by
  funext f
  simp [denyFiles, Parser.writeIPFile, Parser.replaceFile]

/-- **The denied addresses are denied.** After the lists have been compiled and the sets reloaded,
whatever was in the files and the sets before, a packet of a family in use that comes from a denied
address is dropped in the chain `forward`, and in the chain `input` unless it is trusted. Any other
packet fares as without the list. -/
theorem deny_enforced (hset : ipset.Exact) (hl : ∀ n ∈ l.denyIps, n.WellFormed)
    (old : Family → Option Bytes) (before : DenySets) (s : Settings) :
    ∃ sets, load (reloadDenySets s.enableIPv6 (denyFiles ipset l old)) before = some sets ∧
      ∀ (within : Bytes → Bool) (p : Packet), ∀ f ∈ s.families, p.isOf f = true →
        (p.saddr ∈ Parser.covered l.denyIps → Settings.isTrusted p = false →
          verdict ⟨sets.contains, within⟩ p s.inputChain = .drop) ∧
        (p.saddr ∉ Parser.covered l.denyIps →
          verdict ⟨sets.contains, within⟩ p s.inputChain =
            verdict ⟨fun _ _ => false, within⟩ p s.inputChain) ∧
        (verdict ⟨sets.contains, within⟩ p s.forwardDeny = .drop ↔
          p.saddr ∈ Parser.covered l.denyIps) := by
  rw [denyFiles_eq]
  refine ⟨_, load_reloadDenySets (loadable_compileDeny hset hl) _ _, ?_⟩
  intro within p f hf hp
  set sets : DenySets := fun g => if g ∈ familiesOf s.enableIPv6 then
    Parser.compileDeny ipset l g.isV6 else before g
  have hdenied : s.denied ⟨sets.contains, within⟩ p = true ↔
      p.saddr ∈ Parser.covered l.denyIps := by
    have hfamily : s.denied ⟨sets.contains, within⟩ p =
        sets.contains (Settings.denySet f) p.saddr := any_families hf hp _
    have hnets : sets f = Parser.compileDeny ipset l f.isV6 := if_pos hf
    rw [hfamily, contains_denySet, hnets,
      mem_covered_compileDeny hset hl (by simpa [Packet.isOf] using hp)]
  refine ⟨fun hin htrusted => ?_, fun hout => ?_, ?_⟩
  · rw [input_policy, Settings.access, htrusted, hdenied.2 hin]
    rfl
  · -- Nothing else in the chain looks at the sets.
    have hnone : s.denied ⟨fun _ _ => false, within⟩ p = false := any_families hf hp _
    have hsome : s.denied ⟨sets.contains, within⟩ p = false :=
      Bool.eq_false_iff.2 fun h => hout (hdenied.1 h)
    rw [input_policy, input_policy, Settings.access, Settings.access, hnone, hsome]
    rfl
  · rw [verdict, Settings.forwardDeny, Settings.decision_denyRules, ← hdenied]
    cases s.denied ⟨sets.contains, within⟩ p <;> simp

/-- A network that is denied inside one that is allowed. -/
def blockedLists : Parser.AddressLists := ⟨[], [], [⟨[10, 1, 2, 0], 24⟩, ⟨[10, 1, 2, 3], 32⟩]⟩

/-- A query from it. -/
def blockedPacket : Packet := ⟨false, .new, [10, 1, 2, 3], some (.udp, 53)⟩

theorem deny_enforced_blocked :
    ∃ ipset : Parser.IPSets, ipset.Exact ∧ ∃ sets,
      load (reloadDenySets true (denyFiles ipset blockedLists fun _ => none)) (fun _ => []) =
          some sets ∧
        verdict ⟨sets.contains, fun _ => true⟩ blockedPacket (lanSettings true).inputChain = .drop ∧
        verdict quietState blockedPacket (lanSettings true).inputChain = .accept := by
  obtain ⟨ipset, hset, -⟩ := Parser.exists_ipsets
  obtain ⟨sets, hload, hsets⟩ := deny_enforced (l := blockedLists) hset (by decide) (fun _ => none)
    (fun _ => []) (lanSettings true)
  have hcontains : (Prefix.mk [10, 1, 2, 0] 24).contains blockedPacket.saddr = true := by decide
  have hin : blockedPacket.saddr ∈ Parser.covered blockedLists.denyIps :=
    ⟨⟨[10, 1, 2, 0], 24⟩, by decide, hcontains⟩
  refine ⟨ipset, hset, sets, hload, ?_, by decide +kernel⟩
  exact (hsets (fun _ => true) blockedPacket .ip (by decide) (by decide)).1 hin (by decide)

end NextPath.Netlink
