import NextPath.Foundations.Runs
import NextPath.Pool.Consistency
import NextPath.Pool.Results
import NextPath.Sync.Subnets

/-!
# Mappings that can be used

Mappings enter the pool through three doors: the allocator, the messages of peers and the recovery
of the kernel map at startup. Only the second one checks anything, and it checks the fake alone. A
mapping can be used when its fake lies in the network advertised for its family, and its real is an
address of the same family, under which the pool finds the fake.

* `Sane`: what the doors would have to check.
* `AllUsable.of_updates`: small changes that bind pairs that fit keep every mapping usable.
* `AllUsable.step`: so does every event of a node that is sane.
* `AllUsable.isIPv6_result`: in such a pool `GetFakeIPsForReals` returns fakes of the family asked
  for.
-/

namespace NextPath.Sync.Intake

open Net Pool Runs

/-! ## The node -/

/-- The sections in which the pool of a node changes. -/
inductive Event
  /-- An entry of the kernel map that is found at startup. -/
  | recover (fakeStr : Bytes) (realIP : IP) (expiresAt : Time)
  /-- A real in `GetFakeIPsForReals`. -/
  | secure (realIP : IP) (isIPv6 : Bool) (now clk : Time)
  /-- A removal of a roll-back. -/
  | remove (realIP fakeIP : IP)
  | prune (now : Time) (order : Fin 64 → List IPKey)
  /-- A mapping of a peer. -/
  | receive (m : Mapping) (t t' : Time)

def step (p : IPPool) : Event → IPPool
  | .recover fakeStr realIP expiresAt =>
    let fakeIP := parseIP fakeStr
    if fakeIP ≠ [] then (p.addMapping realIP fakeIP 0 expiresAt).1 else p
  | .secure realIP isIPv6 now clk => (p.secure realIP isIPv6 now clk).1
  | .remove realIP fakeIP => p.removeMapping realIP fakeIP
  | .prune now order => p.pruneExpired now order
  | .receive m t t' => (Sync.receive (Subnets.ofPool p.toPoolRange) p m t t').1

/-- The reals that `handleDNSRequest` asks fakes for: four bytes for IPv4, and for IPv6 anything
that is no IPv4 address. -/
def Requested (isIPv6 : Bool) (realIP : IP) : Prop :=
  if isIPv6 then realIP.to4 = [] else realIP.length = 4

instance (isIPv6 : Bool) (realIP : IP) : Decidable (Requested isIPv6 realIP) :=
  match isIPv6 with
  | true => inferInstanceAs (Decidable (realIP.to4 = []))
  | false => inferInstanceAs (Decidable (realIP.length = 4))

/-- The real is an address, of the family of the fake. -/
def Fits (realIP fakeIP : IP) : Prop :=
  realIP.WellFormed ∧ (toIPKey realIP).isIPv6 = (toIPKey fakeIP).isIPv6

instance (realIP fakeIP : IP) : Decidable (Fits realIP fakeIP) :=
  inferInstanceAs (Decidable (_ ∧ _))

/-- What `handleDNSRequest` asks for. -/
def Allowed (_ : IPPool) : Event → Prop
  | .secure realIP isIPv6 _ _ => Requested isIPv6 realIP
  | _ => True

instance (p : IPPool) : (e : Event) → Decidable (Allowed p e)
  | .secure realIP isIPv6 _ _ => inferInstanceAs (Decidable (Requested isIPv6 realIP))
  | .recover .. | .remove .. | .prune .. | .receive .. => inferInstanceAs (Decidable True)

/-- A recovered entry has a fake of the network and a real that fits it; a real that is asked for is
an address; and a message with a fake of the network has a real that fits it. -/
def Sane (p : IPPool) : Event → Prop
  | .recover fakeStr realIP _ =>
    parseIP fakeStr ≠ [] → isInSubnet (Subnets.ofPool p.toPoolRange) (parseIP fakeStr) = true ∧
      Fits realIP (parseIP fakeStr)
  | .secure realIP _ _ _ => realIP.WellFormed
  | .receive m _ _ =>
    isInSubnet (Subnets.ofPool p.toPoolRange) m.fakeIP = true → Fits m.realIP m.fakeIP
  | _ => True

instance (p : IPPool) : (e : Event) → Decidable (Sane p e)
  | .recover _ _ _ => inferInstanceAs (Decidable (_ → _))
  | .secure realIP _ _ _ => inferInstanceAs (Decidable realIP.WellFormed)
  | .receive _ _ _ => inferInstanceAs (Decidable (_ → _))
  | .remove .. | .prune .. => inferInstanceAs (Decidable True)

/-! ## Usable mappings -/

/-- The fake lies in the network of its family, and the real is an address of the same family. -/
structure Matches (c : PoolRange) (f r : IPKey) : Prop where
  inSubnet : isInSubnet (Subnets.ofPool c) f.toIP = true
  family : r.isIPv6 = f.isIPv6

/-- Every mapping of the pool can be used. -/
def Usable (p : IPPool) : Prop :=
  ∀ f r, p.realOf f = some r → Matches p.toPoolRange f r ∧ p.fakeOf r = some f

/-- The invariant: a consistent pool of a regular range whose pairs all match. -/
structure AllUsable (p : IPPool) : Prop where
  repInv : RepInv p
  masked : Masked p.toPoolRange
  regular : Regular p.toPoolRange
  matches' : ∀ f r, p.realOf f = some r → Matches p.toPoolRange f r

theorem AllUsable.usable {p : IPPool} (h : AllUsable p) : Usable p := fun f r hr =>
  ⟨h.matches' f r hr, (h.repInv.fakeOf_iff r f).2 hr⟩

theorem AllUsable.new {base4 base6 : Bytes} {cfg : IPPoolConfig}
    (h : Regular (newIPPoolWithConfig base4 base6 cfg).toPoolRange) :
    AllUsable (newIPPoolWithConfig base4 base6 cfg) where
  repInv := .new base4 base6 cfg
  masked := masked_new base4 base6 cfg
  regular := h
  matches' f r hr := by simp [newIPPoolWithConfig, IPPool.realOf] at hr

/-- **Small changes keep the mappings usable** if every pair they bind matches. -/
theorem AllUsable.of_updates {G : Guard} {p q : IPPool} (hp : AllUsable p) (h : Updates G p q)
    (hG : ∀ q r f v t, q.toPoolRange = p.toPoolRange → G q (.bind r f v t) →
      Matches p.toPoolRange f r) : AllUsable q := by
  have hrange := h.toPoolRange_eq
  have hmatch : q.toPoolRange = p.toPoolRange ∧
      ∀ f r, q.realOf f = some r → Matches p.toPoolRange f r := by
    refine h.induct (I := fun q => q.toPoolRange = p.toPoolRange ∧
      ∀ f r, q.realOf f = some r → Matches p.toPoolRange f r) ⟨rfl, hp.matches'⟩ ?_
    rintro q u ⟨hq, hall⟩ - g
    refine ⟨(u.toPoolRange_apply q).trans hq, fun f r hr => ?_⟩
    cases u with
    | unbind r' f' =>
      rw [Upd.apply, IPPool.realOf_unbind] at hr
      split_ifs at hr
      exact hall f r hr
    | bind r' f' v t =>
      rw [Upd.apply, IPPool.realOf_bind] at hr
      split_ifs at hr with hf
      · obtain rfl := Option.some.inj hr
        exact hf ▸ hG q r' f' v t hq g
      · exact hall f r hr
    | refresh r' t => exact hall f r hr
    | tick hlc => exact hall f r hr
  exact ⟨h.repInv hp.repInv, hrange ▸ hp.masked, hrange ▸ hp.regular, hrange ▸ hmatch.2⟩

/-- The check of the fake does not depend on the form of the address. -/
theorem isInSubnet_toIPKey {c : PoolRange} (hc : Masked c) (h : Regular c) {ip : IP}
    (hin : isInSubnet (Subnets.ofPool c) ip = true) :
    isInSubnet (Subnets.ofPool c) (toIPKey ip).toIP = true := by
  have hm : c.cidrMask ≤ 32 := by rw [hc.cidrMask]; omega
  have hm6 : c.cidrMask6 ≤ 128 ∧ 96 ≤ c.cidrMask6 := by
    have := clog_le_of_uint32 c.poolSize6
    rw [hc.cidrMask6]
    omega
  by_cases h4 : ip.to4 = []
  · obtain ⟨hlen, -⟩ := (isInSubnet_v6_iff c h.to4_poolStart6 hm6.1 hm6.2 h4).1 hin
    rwa [toIPKey_of_to4_eq_nil h4 hlen]
  · have hwf := IP.wellFormed_of_to4_ne_nil h4
    have hto4 := IP.to4_to16 ip hwf
    rw [toIP_toIPKey hwf, isInSubnet_v4_iff c hm (by rwa [hto4]), hto4]
    exact (isInSubnet_v4_iff c hm h4).1 hin

/-- A mapping whose real fits its fake is added to a pool that stays usable. -/
theorem AllUsable.addMapping {p : IPPool} (hp : AllUsable p) {realIP fakeIP : IP}
    (hin : isInSubnet (Subnets.ofPool p.toPoolRange) fakeIP = true) (hfits : Fits realIP fakeIP)
    (v : UInt64) (t : Time) : AllUsable (p.addMapping realIP fakeIP v t).1 := by
  refine hp.of_updates (addMapping_updates hp.repInv hfits.1 fakeIP v t) ?_
  rintro q r f v' t' - ⟨rfl, rfl, -⟩
  exact ⟨isInSubnet_toIPKey hp.masked hp.regular hin, hfits.2⟩

theorem AllUsable.observeVersion {p : IPPool} (hp : AllUsable p) (v : UInt64) (t : Time) :
    AllUsable (p.observeVersion v t) :=
  ⟨hp.repInv.tick _, hp.masked, hp.regular, hp.matches'⟩

theorem isIPv6_of_requested {isIPv6 : Bool} {realIP : IP} (h : Requested isIPv6 realIP) :
    (toIPKey realIP).isIPv6 = isIPv6 := by
  rw [isIPv6_toIPKey]
  cases isIPv6 with
  | true => exact decide_eq_true h
  | false =>
    have hlen : realIP.length = 4 := h
    refine decide_eq_false fun hnil => ?_
    rw [IP.to4_of_length hlen] at hnil
    simp [hnil] at hlen

/-- The fake that is found for a real that is asked for matches it. -/
theorem AllUsable.matches_findFake {p q : IPPool} (hp : AllUsable p)
    (hq : q.toPoolRange = p.toPoolRange) {realIP fake : IP} {isIPv6 : Bool}
    (hreq : Requested isIPv6 realIP) (hfind : q.findFake realIP isIPv6 = some fake) :
    Matches p.toPoolRange (toIPKey fake) (toIPKey realIP) := by
  obtain ⟨hin, hfam⟩ := Regular.findFake (hq ▸ hp.masked) (hq ▸ hp.regular) hfind
  rw [hq] at hin
  exact ⟨isInSubnet_toIPKey hp.masked hp.regular hin, (isIPv6_of_requested hreq).trans hfam.symm⟩

theorem AllUsable.secure {p : IPPool} (hp : AllUsable p) {realIP : IP} {isIPv6 : Bool}
    (hreq : Requested isIPv6 realIP) (hwf : realIP.WellFormed) (now clk : Time) :
    AllUsable (p.secure realIP isIPv6 now clk).1 := by
  refine hp.of_updates (secured_updates hwf (p.secured_secure realIP isIPv6 now clk)) ?_
  rintro q r f v t hq ⟨rfl, -, fake, hfind, rfl⟩
  exact hp.matches_findFake hq hreq hfind

theorem AllUsable.getFakeIPsForReals {p : IPPool} (hp : AllUsable p) {reals : List IP}
    {isIPv6 : Bool} (hreals : ∀ ip ∈ reals, Requested isIPv6 ip ∧ ip.WellFormed) (now : Time)
    (clk : ℕ → Time) : AllUsable (p.getFakeIPsForReals reals isIPv6 now clk).1 := by
  refine hp.of_updates
    (getFakeIPsForReals_updates hp.repInv (fun ip hip => (hreals ip hip).2) isIPv6 now clk) ?_
  rintro q r f v t hq ⟨-, realIP, hmem, rfl, fake, hfind, rfl⟩
  exact hp.matches_findFake hq (hreals realIP hmem).1 hfind

/-- **A sane event keeps every mapping usable.** -/
theorem AllUsable.step {p : IPPool} (hp : AllUsable p) {e : Event} (hallowed : Allowed p e)
    (hsane : Sane p e) : AllUsable (step p e) := by
  cases e with
  | recover fakeStr realIP t =>
    simp only [Intake.step]
    split_ifs with hne
    · obtain ⟨hin, hfits⟩ := hsane hne
      exact hp.addMapping hin hfits 0 t
    · exact hp
  | secure realIP isIPv6 now clk => exact hp.secure hallowed hsane now clk
  | remove realIP fakeIP =>
    refine hp.of_updates (removeMapping_updates hp.repInv realIP fakeIP) ?_
    rintro q r f v t - ⟨⟩
  | prune now order =>
    refine hp.of_updates (pruneExpired_updates hp.repInv now order) ?_
    rintro q r f v t - ⟨_, _, _, ⟨⟩, -⟩
  | receive m t t' =>
    simp only [Intake.step, Sync.receive]
    split_ifs with h₁ h₂ h₃
    · exact hp
    · exact hp
    · exact hp
    · have hin : isInSubnet (Subnets.ofPool p.toPoolRange) m.fakeIP = true := by simpa using h₂
      exact (hp.observeVersion m.version t).addMapping hin (hsane hin) m.version _

/-- A sane event leaves the range of the pool alone. -/
theorem AllUsable.toPoolRange_step {p : IPPool} (hp : AllUsable p) {e : Event} (hsane : Sane p e) :
    (Intake.step p e).toPoolRange = p.toPoolRange := by
  cases e with
  | recover fakeStr realIP t =>
    simp only [Intake.step]
    split_ifs with hne
    · exact (addMapping_updates hp.repInv (hsane hne).2.1 _ 0 t).toPoolRange_eq
    · rfl
  | secure realIP isIPv6 now clk =>
    exact (secured_updates hsane (p.secured_secure realIP isIPv6 now clk)).toPoolRange_eq
  | remove realIP fakeIP => exact (removeMapping_updates hp.repInv realIP fakeIP).toPoolRange_eq
  | prune now order => exact (pruneExpired_updates hp.repInv now order).toPoolRange_eq
  | receive m t t' =>
    simp only [Intake.step, Sync.receive]
    split_ifs with h₁ h₂ h₃
    · rfl
    · rfl
    · rfl
    · have hin : isInSubnet (Subnets.ofPool p.toPoolRange) m.fakeIP = true := by simpa using h₂
      exact (addMapping_updates (hp.observeVersion m.version t).repInv (hsane hin).1 m.fakeIP
        m.version _).toPoolRange_eq

/-! ## What a call returns -/

/-- The fake of a real that is asked for is of the family asked for. -/
theorem AllUsable.isIPv6_fakeAt {p : IPPool} (hp : AllUsable p) {realIP : IP} {isIPv6 : Bool}
    (hreq : Requested isIPv6 realIP) {fake : IPKey} (h : p.fakeAt realIP = some fake) :
    fake.isIPv6 = isIPv6 := by
  obtain ⟨-, hfake⟩ := fakeOf_of_lookup hp.repInv h
  have hm := hp.matches' fake _ ((hp.repInv.fakeOf_iff _ _).1 hfake)
  rw [← hm.family, isIPv6_of_requested hreq]

/-- **A call returns fakes of the family asked for**: what it returns is what the pool that it
leaves holds for its reals, and that pool is usable too. -/
theorem AllUsable.isIPv6_result {p : IPPool} (hp : AllUsable p) {reals : List IP} {isIPv6 : Bool}
    (hreals : ∀ ip ∈ reals, Requested isIPv6 ip ∧ ip.WellFormed) {now : Time} {clk : ℕ → Time}
    {found : IPPool.Found} (h : (p.getFakeIPsForReals reals isIPv6 now clk).2 = some found)
    {s : Bytes} {ip : IP} (hip : found.result.lookup s = some ip) :
    (toIPKey ip).isIPv6 = isIPv6 := by
  obtain ⟨realIP, hmem, -, hfake⟩ :=
    (IPPool.answered_getFakeIPsForReals (Prod.ext rfl h)).sound s ip hip
  exact (hp.getFakeIPsForReals hreals now clk).isIPv6_fakeAt (hreals realIP hmem).1 hfake

/-! ## Runs -/

/-- **Every stored mapping is usable in sane runs.** From a pool of a regular range, in every run
whose events are sane, every fake of the pool lies in the network of its family and its real is an
address of that family; and a call of `GetFakeIPsForReals` returns fakes of the family asked
for. -/
theorem usable_of_sane (base4 base6 : Bytes) (cfg : IPPoolConfig) (es : List Event)
    (hregular : Regular (newIPPoolWithConfig base4 base6 cfg).toPoolRange)
    (hallowed : Along step Allowed (newIPPoolWithConfig base4 base6 cfg) es)
    (hsane : Along step Sane (newIPPoolWithConfig base4 base6 cfg) es) :
    let p := run step (newIPPoolWithConfig base4 base6 cfg) es
    Usable p ∧ ∀ reals isIPv6 now clk found,
      (∀ ip ∈ reals, Requested isIPv6 ip ∧ ip.WellFormed) →
      (p.getFakeIPsForReals reals isIPv6 now clk).2 = some found →
      ∀ s ip, found.result.lookup s = some ip → (toIPKey ip).isIPv6 = isIPv6 := by
  intro p
  have hp : AllUsable p := invariant (C := fun p e => Allowed p e ∧ Sane p e)
    (fun _ _ hp hc => hp.step hc.1 hc.2) (.new hregular)
    fun x hx => ⟨hallowed x hx, hsane x hx⟩
  exact ⟨hp.usable, fun reals isIPv6 now clk found hreals h s ip hip =>
    hp.isIPv6_result hreals h hip⟩

/-- A run through all three doors. -/
def saneRun : List Event :=
  [.recover (str "198.18.0.9") [1, 1, 1, 1] 5, .secure [5, 6, 7, 8] false 5 5,
    .receive ⟨[198, 18, 0, 2], [9, 9, 9, 9], 7⟩ 6 6]

theorem usable_after_saneRun :
    Usable (run step (newIPPoolWithConfig [] [] ⟨16, 16⟩) saneRun) :=
  (usable_of_sane [] [] ⟨16, 16⟩ saneRun (by decide +kernel) (by decide +kernel)
    (by decide +kernel)).1

/-- The address 2001:db8::1. -/
def documentationIP : IP := [0x20, 1, 0xd, 0xb8, 0, 0, 0, 0, 0, 0, 0, 0, 0, 0, 0, 1]

/-- **A peer can store a mapping across the families**: the fake is an IPv4 address of the network,
the real an IPv6 address, and a request for that address is then answered with the IPv4 fake. -/
theorem not_usable_after_message :
    let es : List Event := [.receive ⟨[198, 18, 0, 1], documentationIP, 7⟩ 3 3]
    let p := run step (newIPPoolWithConfig [] [] ⟨16, 16⟩) es
    Along step Allowed (newIPPoolWithConfig [] [] ⟨16, 16⟩) es ∧ ¬ Usable p ∧
      ∃ found, (p.getFakeIPsForReals [documentationIP] true 4 fun _ => 4).2 = some found ∧
        found.result.lookup documentationIP.string = some (IPKey.v4 0xc6120001).toIP := by
  refine ⟨by decide +kernel, fun h => ?_, _, rfl, by decide +kernel⟩
  have hfam := (h (.v4 0xc6120001) (toIPKey documentationIP) (by decide +kernel)).1.family
  revert hfam
  decide +kernel

end NextPath.Sync.Intake
