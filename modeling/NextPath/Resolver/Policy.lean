import NextPath.Parser.ZoneFile
import NextPath.Resolver.Settings

/-!
# What the resolver does with a query

`kresd.conf` adds its policies one after the other, and of the resolver it is assumed that it asks
them in this order and does what the first one says that has something to say. A zone says something
about the names at or below its domains and its exceptions; an exception makes the resolver look the
name up by itself, and no later policy is asked. The answer that blocks a domain has addresses only:
a query of another type goes on to the later policies.

The zones `deny.rpz` and `deny2.rpz` are copied from lists, so what they say is a parameter, as are
the names that the resolver treats specially. A query is given by the text of its name without the
last dot.

* `stub_iff`: from the lists to the queries that are sent to the engine;
* `exception_passes`: an exception of the ad blocker is kept from the engine, too;
* `workers_agree`: all workers of an instance do the same;
* `upstreams_ignored`, `customRoutes_ignored`: IPv4 servers in the settings are not used.
-/

namespace NextPath.Resolver

open Lua Strings NextPath.Parser

/-! ## Policies -/

/-- What is done with a query. -/
inductive Outcome
  /-- `action_deny`: it is answered with the unspecified address. -/
  | zeros
  /-- `policy.PASS`: the resolver looks the name up. -/
  | pass
  /-- `policy.STUB`. -/
  | stub (server : Bytes)
  /-- `policy.FORWARD`. -/
  | forward (servers : List Bytes)
  /-- `policy.ANSWER({}, true)`: there are no such records. -/
  | nodata
  /-- `policy.DENY`: there is no such name. -/
  | deny
  /-- An answer with the record `SOA` only. -/
  | soa
  /-- What the resolver does with a special name. -/
  | special
  /-- `policy.DROP` and `policy.TC`, which a zone can ask for. -/
  | drop
  | truncate
  deriving DecidableEq

structure Query where
  name : Bytes
  type : ℕ

/-- The type `A`. -/
def typeA : ℕ := 1

/-- The type `AAAA`. -/
def typeAAAA : ℕ := 28

/-- The query asks for addresses. -/
def Query.isAddress (q : Query) : Bool := q.type = typeA || q.type = typeAAAA

/-- `action_deny`. It has an answer for each of the two types of addresses, and is ignored for the
others. -/
def actionDeny (q : Query) : Option Outcome := if q.isAddress then some .zeros else none

/-- What a line of a list that is copied can ask for. -/
inductive Target
  | default
  | nodata
  | passthru
  | drop
  | tcpOnly

def Target.outcome (q : Query) : Target → Option Outcome
  | default => actionDeny q
  | nodata => some .nodata
  | passthru => some .pass
  | drop => some .drop
  | tcpOnly => some .truncate

/-- The zones that the resolver has read. -/
structure Zones where
  adblock : List Entry
  proxy : List Entry
  deny : Bytes → Option Target
  deny2 : Bytes → Option Target

/-- `policy.rpz`, for the zones that are compiled from domains. -/
def rpz (default : Query → Option Outcome) (zone : List Entry) (q : Query) : Option Outcome :=
  (evaluate zone q.name).bind fun
    | .passthru => some .pass
    | .proxy => default q

/-- `policy.rpz`, for the zones that are copied. -/
def copied (zone : Bytes → Option Target) (q : Query) : Option Outcome :=
  (zone q.name).bind (·.outcome q)

/-- `policy.suffix`, with the names of `policy.todnames`. -/
def suffix (outcome : Outcome) (zones : List Bytes) (q : Query) : Option Outcome :=
  if zones.any fun d => dotless d = [] || decide (Below q.name (dotless d)) then some outcome
  else none

/-- A name as it is sent: each label after its length. -/
def wire (n : Bytes) : Bytes :=
  if n = [] then [0] else (n.splitOn (chr '.')).flatMap (fun l => l.length.toUInt8 :: l) ++ [0]

/-- `policy.pattern`. -/
def pattern (outcome : Outcome) (p : Bytes) (q : Query) : Option Outcome :=
  if ((compile p).bind fun p => search p (wire q.name)).isSome then some outcome else none

/-- `valid_chars_only`. -/
def validCharsOnly (q : Query) : Option Outcome :=
  if (stringMatch (q.name ++ str ".") (str "^[%w%-%._]+%.?$")).isSome then none else some .deny

/-- The answer to queries for IPv6 addresses of names that are not proxied. -/
def noIPv6 (env : Engine.Env) (q : Query) : Option Outcome :=
  if !boolEnv env (str "ENABLE_IPV6") true && q.type = typeAAAA ||
      boolEnv env (str "IPV6_PROXY_ONLY") true && baseInstance env = str "1" &&
        q.type = typeAAAA then
    some .nodata
  else none

/-- The patterns of names that are not looked up. -/
def discoveryPatterns : List Bytes :=
  [chr '^' :: 4 :: str "wpad", chr '^' :: 3 :: str "_gc", chr '^' :: 5 :: str "_ldap",
    chr '^' :: 6 :: str "_vlmcs", chr '^' :: 8 :: str "_kpasswd", chr '^' :: 9 :: str "_kerberos",
    6 :: str "_msdcs", 6 :: str "_sites",
    chr '^' :: chr '[' :: 10 :: 11 :: chr ']' :: str "_aaplcache", 7 :: str "_dns%-sd"]

/-- `alt_zones`. -/
def altZones : List Bytes :=
  [str "bbs", str "chan", str "cyb", str "dyn", str "epic", str "geek", str "gopher", str "indy",
    str "libre", str "neo", str "null", str "o", str "oss", str "oz", str "parody", str "pirate",
    str "opennic.glue", str "bazar", str "coin", str "emc", str "lib", str "fur", str "ku",
    str "te", str "ti", str "uu", str "ko", str "rm", str "bit", str "glue"]

/-- The address of the engine. -/
def engine (env : Engine.Env) : Bytes :=
  getenv env (str "PROXY_ADDR") (str "127.0.0.3") ++ str "@" ++
    getenv env (str "PROXY_PORT") (str "53")

/-- `policy.STUB` of the engine. -/
def toEngine (env : Engine.Env) (_ : Query) : Option Outcome := some (.stub (engine env))

/-- The policies of the zones. -/
def zonePolicies (env : Engine.Env) (z : Zones) : List (Query → Option Outcome) :=
  (if boolEnv env (str "BLOCK_ADS") true then [rpz actionDeny z.adblock] else []) ++
    [copied z.deny] ++
    if baseInstance env = str "1" then [rpz (toEngine env) z.proxy]
    else if baseInstance env = str "2" then [copied z.deny2]
    else []

/-- The policies after those of the zones. -/
def laterPolicies (env : Engine.Env) (special : Query → Bool) : List (Query → Option Outcome) :=
  [noIPv6 env, validCharsOnly, pattern .soa (str ".*_.*" ++ 4 :: str "arpa" ++ [0])] ++
    discoveryPatterns.map (pattern .deny) ++
    [fun q => if special q then some .special else none,
      suffix (.forward (opennicIps env)) altZones] ++
    (customRoutes env).map (fun r => suffix (.forward r.2) r.1) ++
    [fun _ => some (.forward (upstreams env))]

/-- What is done with a query. -/
def outcome (env : Engine.Env) (z : Zones) (special : Query → Bool) (q : Query) : Option Outcome :=
  (zonePolicies env z ++ laterPolicies env special).findSome? (· q)

/-! ## Queries for the engine -/

theorem rpz_eq_stub_iff {default : Query → Option Outcome} {zone : List Entry} {q : Query}
    {server : Bytes} :
    rpz default zone q = some (.stub server) ↔
      evaluate zone q.name = some .proxy ∧ default q = some (.stub server) := by
  rw [rpz, Option.bind_eq_some_iff]
  constructor
  · rintro ⟨action, haction, hout⟩
    cases action with
    | passthru => cases hout
    | proxy => exact ⟨haction, hout⟩
  · rintro ⟨haction, hout⟩
    exact ⟨.proxy, haction, hout⟩

theorem actionDeny_ne_stub (q : Query) (server : Bytes) :
    actionDeny q ≠ some (.stub server) := by
  rw [actionDeny]
  split_ifs <;> simp

/-- A zone that blocks has nothing to say about a query if there is no entry for its name, or one
that blocks and the query is not for addresses. -/
theorem rpz_actionDeny_eq_none_iff {zone : List Entry} {q : Query} :
    rpz actionDeny zone q = none ↔
      evaluate zone q.name ≠ some .passthru ∧
        (q.isAddress = true → evaluate zone q.name = none) := by
  rw [rpz]
  cases evaluate zone q.name with
  | none => simp
  | some action => cases action <;> simp [actionDeny]

theorem copied_eq_none_iff {zone : Bytes → Option Target} {q : Query} :
    copied zone q = none ↔
      zone q.name = none ∨ zone q.name = some .default ∧ q.isAddress = false := by
  rw [copied]
  cases zone q.name with
  | none => simp
  | some target => cases target <;> simp [Target.outcome, actionDeny]

theorem copied_ne_stub (zone : Bytes → Option Target) (q : Query) (server : Bytes) :
    copied zone q ≠ some (.stub server) := by
  rw [copied, Ne, Option.bind_eq_some_iff]
  rintro ⟨target, -, hout⟩
  cases target with
  | default => exact actionDeny_ne_stub q server hout
  | nodata | passthru | drop | tcpOnly => cases hout

/-- The policies after those of the zones send nothing to the engine. -/
theorem later_ne_stub (env : Engine.Env) (special : Query → Bool) (q : Query) (server : Bytes) :
    (laterPolicies env special).findSome? (· q) ≠ some (.stub server) := by
  have hite {c : Prop} [Decidable c] {o : Outcome} (ho : o ≠ .stub server) :
      (if c then some o else none) ≠ some (.stub server) := by
    split_ifs
    · exact fun h => ho (Option.some.inj h)
    · simp
  intro h
  obtain ⟨policy, hmem, hpolicy⟩ := List.exists_of_findSome?_eq_some h
  simp only [laterPolicies, List.mem_append, List.mem_cons, List.not_mem_nil, or_false,
    List.mem_map] at hmem
  obtain ((((rfl | rfl | rfl) | ⟨p, -, rfl⟩) | (rfl | rfl)) | ⟨r, -, rfl⟩) | rfl := hmem
  · exact hite (by simp) hpolicy
  · simp only [validCharsOnly] at hpolicy
    split_ifs at hpolicy
    cases hpolicy
  · exact hite (by simp) hpolicy
  · exact hite (by simp) hpolicy
  · exact hite (by simp) hpolicy
  · exact hite (by simp) hpolicy
  · exact hite (by simp) hpolicy
  · cases hpolicy

/-- The policies of the zones, one after the other. -/
theorem findSome?_zonePolicies (env : Engine.Env) (z : Zones) (q : Query) :
    (zonePolicies env z).findSome? (· q) =
      (if boolEnv env (str "BLOCK_ADS") true then rpz actionDeny z.adblock q else none).or
        ((copied z.deny q).or
          (if baseInstance env = str "1" then rpz (toEngine env) z.proxy q
          else if baseInstance env = str "2" then copied z.deny2 q
          else none)) := by
  have hone (policy : Query → Option Outcome) : [policy].findSome? (· q) = policy q := by
    cases h : policy q <;> simp [h]
  rw [zonePolicies, List.append_assoc, List.findSome?_append, List.findSome?_append, hone]
  congr 1
  · split_ifs
    · exact hone _
    · rfl
  · congr 1
    split_ifs
    · exact hone _
    · exact hone _
    · rfl

/-- A query is sent to the engine exactly if the instance is the first, the zones before have
nothing to say about it, and `proxy.rpz` asks for it. -/
theorem outcome_eq_stub_iff {env : Engine.Env} {z : Zones} {special : Query → Bool} {q : Query} :
    outcome env z special q = some (.stub (engine env)) ↔
      baseInstance env = str "1" ∧
      (boolEnv env (str "BLOCK_ADS") true = true → evaluate z.adblock q.name ≠ some .passthru ∧
        (q.isAddress = true → evaluate z.adblock q.name = none)) ∧
      (z.deny q.name = none ∨ z.deny q.name = some .default ∧ q.isAddress = false) ∧
      evaluate z.proxy q.name = some .proxy := by
  have hads :
      (if boolEnv env (str "BLOCK_ADS") true then rpz actionDeny z.adblock q else none) = none ↔
      (boolEnv env (str "BLOCK_ADS") true = true → evaluate z.adblock q.name ≠ some .passthru ∧
        (q.isAddress = true → evaluate z.adblock q.name = none)) := by
    split_ifs with hblock
    · simp only [rpz_actionDeny_eq_none_iff, hblock, true_implies]
    · simp [hblock]
  have hads' : (if boolEnv env (str "BLOCK_ADS") true then rpz actionDeny z.adblock q else none) ≠
      some (.stub (engine env)) := by
    split_ifs
    · simp [rpz_eq_stub_iff, actionDeny_ne_stub]
    · simp
  have hthird : (if baseInstance env = str "1" then rpz (toEngine env) z.proxy q
      else if baseInstance env = str "2" then copied z.deny2 q else none) =
        some (.stub (engine env)) ↔
      baseInstance env = str "1" ∧ evaluate z.proxy q.name = some .proxy := by
    split_ifs with hone htwo
    · simp [rpz_eq_stub_iff, toEngine, hone]
    · simp [copied_ne_stub, hone]
    · simp [hone]
  rw [outcome, List.findSome?_append, Option.or_eq_some_iff, findSome?_zonePolicies]
  simp only [later_ne_stub, and_false, or_false, Option.or_eq_some_iff, hads', false_or, hads,
    copied_ne_stub, copied_eq_none_iff, hthird]
  tauto

/-! ## From the lists to the queries -/

section Compiled

variable (c : Call) {z : Zones} (env : Engine.Env) (special : Query → Bool) {q : Query}

/-- **From the lists to the engine.** Let the resolver have read the zones of a call of the
compiler, for clear lists. A query is sent to the engine exactly if its name is at or below an
included domain, or all names are to be proxied; it is not at or below an excluded one; and the
zones before do not stop it. `deny.rpz` stops every name it names, unless it blocks the name and the
query is not for addresses. Where ads are blocked, `adblock.rpz` stops every name that it lets pass,
and a query for addresses also if the name is at or below a domain to block or an exception. -/
theorem stub_iff {unix unix' : ℤ} (hproxy : z.proxy = readZone (c.content .proxy unix))
    (hadblock : z.adblock = readZone (c.content .adblock unix'))
    (hclear : Clear (c.proxyLists.piS c.sys.toTables) c.proxyLists.pExcRaw) (hn : q.name ≠ []) :
    outcome env z special q = some (.stub (engine env)) ↔
      baseInstance env = str "1" ∧
      (boolEnv env (str "BLOCK_ADS") true = true → ¬ c.adLists.Passes q.name ∧
        (q.isAddress = true → (∀ d ∈ c.adLists.adFinal, ¬ Below q.name d) ∧
          ∀ e ∈ c.adLists.adExclRaw, ¬ Below q.name e)) ∧
      (z.deny q.name = none ∨ z.deny q.name = some .default ∧ q.isAddress = false) ∧
      (c.routesAll = true ∨
        ∃ d, c.proxyLists.Included d ∧ Below q.name (stripPrefix c.sys.toTables d)) ∧
      ∀ e, c.proxyLists.Excluded e → ¬ Below q.name e := by
  have hpasses : evaluate c.adblockEntries q.name ≠ some .passthru ↔ ¬ c.adLists.Passes q.name := by
    rw [Ne, Call.adblockEntries, c.normalized_adLists.evaluate_iff _ hn]
  rw [outcome_eq_stub_iff, hproxy, hadblock, (c.readZone_content unix).1,
    (c.readZone_content unix').2, hpasses, c.evaluate_adblockEntries_eq_none_iff hn,
    c.evaluate_proxyEntries_iff hclear hn]

/-- A call for one included domain, one excluded name below it, one to block and one that the ad
blocker is to let through. -/
def shopCall : Call where
  __ := plainCall [] 1 fun _ _ => false
  disk := (((AList.singleton (str "/m/include-hosts.txt") (⟨str "example.com", 1⟩ : File)).insert
    (str "/m/exclude-hosts.txt") ⟨str "mail.example.com", 1⟩).insert
    (str "/m/include-adblock-hosts.txt") ⟨str "ads.example.com", 1⟩).insert
    (str "/m/exclude-adblock-hosts.txt") ⟨str "shop.example.com", 1⟩

/-- Its zones as they are read, with nothing in those that are copied. -/
def shopZones : Zones where
  adblock := readZone (shopCall.content .adblock 1)
  proxy := readZone (shopCall.content .proxy 1)
  deny _ := none
  deny2 _ := none

theorem shopZones_proxy : shopZones.proxy = readZone (shopCall.content .proxy 1) := by
  rw [shopZones]

theorem shopZones_adblock : shopZones.adblock = readZone (shopCall.content .adblock 1) := by
  rw [shopZones]

/-- The addresses of a name below the included domain, and the mail servers (type 15) of the one
that is blocked, without any settings. -/
theorem stub_iff_www :
    outcome (fun _ => none) shopZones (fun _ => false) ⟨str "www.example.com", 1⟩ =
        some (.stub (engine fun _ => none)) ∧
      outcome (fun _ => none) shopZones (fun _ => false) ⟨str "ads.example.com", 15⟩ =
        some (.stub (engine fun _ => none)) := by
  have hincluded : shopCall.proxyLists.Included (str "example.com") := by
    unfold ProxyLists.Included
    decide +kernel
  have hall : ∀ e ∈ shopCall.proxyLists.pExcRaw,
      ¬ Below (str "www.example.com") e ∧ ¬ Below (str "ads.example.com") e := by
    decide +kernel
  have hclear : Clear (shopCall.proxyLists.piS shopCall.sys.toTables)
      shopCall.proxyLists.pExcRaw := by
    decide +kernel
  constructor
  · exact (stub_iff shopCall _ _ shopZones_proxy shopZones_adblock hclear (by decide)).2
      ⟨by decide +kernel, fun _ => by decide +kernel, .inl rfl,
        .inr ⟨str "example.com", hincluded, by decide +kernel⟩,
        fun e he => (hall e (ProxyLists.mem_pExcRaw.2 he)).1⟩
  · exact (stub_iff shopCall _ _ shopZones_proxy shopZones_adblock hclear (by decide)).2
      ⟨by decide +kernel, fun _ => by decide +kernel, .inl rfl,
        .inr ⟨str "example.com", hincluded, by decide +kernel⟩,
        fun e he => (hall e (ProxyLists.mem_pExcRaw.2 he)).2⟩

/-- **An exception of the ad blocker is kept from the engine, too.** Where ads are blocked, the
resolver looks up a name that passes `adblock.rpz` by itself, whatever the other zones, the routes
and the upstreams are: it is neither proxied nor forwarded. -/
theorem exception_passes {unix : ℤ} (hadblock : z.adblock = readZone (c.content .adblock unix))
    (hblock : boolEnv env (str "BLOCK_ADS") true = true) (hn : q.name ≠ [])
    (hpass : c.adLists.Passes q.name) : outcome env z special q = some .pass := by
  have hzone : evaluate z.adblock q.name = some .passthru := by
    rw [hadblock, (c.readZone_content unix).2, Call.adblockEntries]
    exact (c.normalized_adLists.evaluate_iff _ hn).2 hpass
  rw [outcome, List.findSome?_append, findSome?_zonePolicies, if_pos hblock, rpz, hzone]
  rfl

/-- The exception is below the included domain, and `proxy.rpz` asks for it. -/
theorem exception_passes_shop :
    evaluate shopZones.proxy (str "shop.example.com") = some .proxy ∧
      outcome (fun _ => none) shopZones (fun _ => false) ⟨str "shop.example.com", 1⟩ =
        some .pass :=
  ⟨by decide +kernel,
    exception_passes shopCall _ _ shopZones_adblock (by decide +kernel) (by decide)
      (by decide +kernel)⟩

end Compiled

/-! ## Workers, and servers in the settings -/

/-- The resolver uses the setting as if it were not there. -/
def Ignored (env : Engine.Env) (key : Bytes) : Prop :=
  ∀ z special q,
    outcome env z special q = outcome (Function.update env key none) z special q

theorem getenv_congr {env env' : Engine.Env} {key : Bytes} (h : env' key = env key)
    (defaultVal : Bytes) : getenv env' key defaultVal = getenv env key defaultVal := by
  rw [getenv, h, getenv]

theorem getenv_update {env : Engine.Env} {key key' : Bytes} (h : key' ≠ key) (defaultVal : Bytes) :
    getenv (Function.update env key none) key' defaultVal = getenv env key' defaultVal :=
  getenv_congr (Function.update_of_ne h none env) defaultVal

theorem getenv_update_self (env : Engine.Env) (key defaultVal : Bytes) :
    getenv (Function.update env key none) key defaultVal = defaultVal := by
  rw [getenv, Function.update_self, Option.getD_none]

/-- The settings that are read other than for the routes and the upstreams. -/
def otherKeys : List Bytes :=
  [str "BLOCK_ADS", str "SYSTEMD_INSTANCE", str "PROXY_ADDR", str "PROXY_PORT", str "ENABLE_IPV6",
    str "IPV6_PROXY_ONLY", str "OPENNIC_IPS"]

/-- What is done with a query depends on the instance, the routes, the upstreams, and the other
settings that are read. -/
theorem outcome_congr {env env' : Engine.Env}
    (hkeys : ∀ key ∈ otherKeys, key ≠ str "SYSTEMD_INSTANCE" → env' key = env key)
    (hbase : baseInstance env' = baseInstance env) (hroutes : customRoutes env' = customRoutes env)
    (hups : upstreams env' = upstreams env) : outcome env' = outcome env := by
  have hget {key : Bytes} (hmem : key ∈ otherKeys) (hne : key ≠ str "SYSTEMD_INSTANCE") :
      getenv env' key = getenv env key := funext (getenv_congr (hkeys key hmem hne))
  have hengine : toEngine env' = toEngine env := by
    funext q
    rw [toEngine, engine, hget (by simp [otherKeys]) (by decide),
      hget (by simp [otherKeys]) (by decide), toEngine, engine]
  have hIPv6 : noIPv6 env' = noIPv6 env := by
    funext q
    rw [noIPv6, boolEnv, boolEnv, hget (by simp [otherKeys]) (by decide),
      hget (by simp [otherKeys]) (by decide), hbase]
    rfl
  have hopennic : opennicIps env' = opennicIps env := by
    rw [opennicIps, hget (by simp [otherKeys]) (by decide), opennicIps]
  funext z special q
  unfold outcome zonePolicies laterPolicies boolEnv
  rw [hget (by simp [otherKeys]) (by decide), hbase, hengine, hIPv6, hopennic, hroutes, hups]

/-- A setting that makes no difference to the routes and the upstreams, and is none of the others,
makes none to any query. -/
theorem ignored_of_eq {env : Engine.Env} {key : Bytes} (hkey : otherKeys.all (· ≠ key) = true)
    (hroutes : customRoutes (Function.update env key none) = customRoutes env)
    (hups : upstreams (Function.update env key none) = upstreams env) : Ignored env key := by
  have hne (key' : Bytes) (hmem : key' ∈ otherKeys) : key' ≠ key :=
    of_decide_eq_true (List.all_eq_true.1 hkey key' hmem)
  have hbase : baseInstance (Function.update env key none) = baseInstance env := by
    rw [baseInstance, getenv_update (hne _ (by simp [otherKeys])), baseInstance]
  have houtcome : outcome (Function.update env key none) = outcome env :=
    outcome_congr (fun key' hmem _ => Function.update_of_ne (hne key' hmem) none env) hbase hroutes
      hups
  intro z special q
  rw [houtcome]

/-- The settings of a worker of an instance, as `entrypoint.sh` numbers them. -/
def workerEnv (env : Engine.Env) (i worker : Bytes) : Engine.Env :=
  Function.update env (str "SYSTEMD_INSTANCE") (some (i ++ chr '_' :: worker))

/-- **The workers of an instance do the same** with every query, whatever their numbers are. -/
theorem workers_agree (env : Engine.Env) {i : Bytes} (worker worker' : Bytes) (hne : i ≠ [])
    (hi : ∀ c ∈ i, baseClass.holds c = true) :
    outcome (workerEnv env i worker) = outcome (workerEnv env i worker') := by
  have hself (worker : Bytes) :
      workerEnv env i worker (str "SYSTEMD_INSTANCE") = some (i ++ chr '_' :: worker) :=
    Function.update_self ..
  have hother {key : Bytes} (h : key ≠ str "SYSTEMD_INSTANCE") :
      workerEnv env i worker key = workerEnv env i worker' key := by
    rw [workerEnv, Function.update_of_ne h, workerEnv, Function.update_of_ne h]
  refine outcome_congr (fun key _ h => hother h) ?_ ?_ ?_
  · rw [baseInstance_eq (hself worker) hne hi, baseInstance_eq (hself worker') hne hi]
  · rw [customRoutes, getenv_congr (hother (by decide)), customRoutes]
  · rw [upstreams, getenv_congr (hother (by decide)), upstreams]

theorem workers_agree_first :
    outcome (workerEnv (fun _ => none) (str "1") (str "1")) =
      outcome (workerEnv (fun _ => none) (str "1") (str "16")) :=
  workers_agree _ _ _ (by decide) (by decide +kernel)

/-- The settings that `.env.example` gives as examples. -/
def exampleEnv : Engine.Env := fun key =>
  if key = str "UPSTREAM_DNS" then some (str "8.8.8.8, 1.1.1.1, 9.9.9.10@9953")
  else if key = str "CUSTOM_DNS_ROUTES" then some (str "org=8.8.8.8,8.8.4.4;co.uk=1.1.1.1")
  else none

/-- **IPv4 upstreams are ignored.** A list of servers in `UPSTREAM_DNS` in which there is no colon,
nor a question mark, has no effect on any query: what is forwarded goes to the first set. -/
theorem upstreams_ignored {env : Engine.Env} {v : Bytes} (hv : env (str "UPSTREAM_DNS") = some v)
    (hset : sets.lookup v = none) (hcolon : chr ':' ∉ v) (hmark : chr '?' ∉ v) :
    Ignored env (str "UPSTREAM_DNS") := by
  refine ignored_of_eq (by decide) ?_ ?_
  · rw [customRoutes, getenv_update (by decide), customRoutes]
  · rw [upstreams_eq hv hset hmark, if_pos (filter_colon_eq_nil hcolon), upstreams,
      getenv_update_self]
    rfl

theorem upstreams_ignored_example : Ignored exampleEnv (str "UPSTREAM_DNS") :=
  upstreams_ignored (v := str "8.8.8.8, 1.1.1.1, 9.9.9.10@9953") (by decide +kernel)
    (by decide +kernel) (by decide +kernel) (by decide +kernel)

/-- **Routes to IPv4 servers are ignored.** Without a colon and a question mark in it, the setting
`CUSTOM_DNS_ROUTES` has no effect on any query: the zones it names are looked up like all others. -/
theorem customRoutes_ignored {env : Engine.Env} {v : Bytes}
    (hv : env (str "CUSTOM_DNS_ROUTES") = some v) (hcolon : chr ':' ∉ v) (hmark : chr '?' ∉ v) :
    Ignored env (str "CUSTOM_DNS_ROUTES") := by
  refine ignored_of_eq (by decide) ?_ ?_
  · rw [customRoutes_eq_nil hv hcolon hmark, customRoutes, getenv_update_self]
    rfl
  · rw [upstreams, getenv_update (by decide), upstreams]

theorem customRoutes_ignored_example : Ignored exampleEnv (str "CUSTOM_DNS_ROUTES") :=
  customRoutes_ignored (v := str "org=8.8.8.8,8.8.4.4;co.uk=1.1.1.1") (by decide +kernel)
    (by decide +kernel) (by decide +kernel)

end NextPath.Resolver
