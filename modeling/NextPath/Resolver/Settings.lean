import NextPath.Engine.Settings
import NextPath.Foundations.LuaPatterns

/-!
# The settings of the resolver

`kresd.conf` is a program in Lua: it takes the upstream servers and the routes of single zones from
the environment, with patterns. A server is taken if it matches a pattern for IPv4 addresses, which
may be followed by `@` and a port, or has a colon in it. The pattern ends in `(@%d+)?`, and in Lua
a repetition does not apply to a capture: it asks for the port and for a question mark after it.

* `mem_of_usable`: a server that is taken has a colon or a question mark in it;
* `upstreams_eq`: the servers of a list are those with a colon, or the first set;
* `customRoutes_eq_nil`: without a colon or a question mark in the setting there are no routes.
-/

namespace NextPath.Resolver

open Lua Strings

/-! ## Reading the environment -/

/-- `os.getenv(key) or default`. -/
def getenv (env : Engine.Env) (key defaultVal : Bytes) : Bytes := (env key).getD defaultVal

/-- `bool_env`, where `true` stands for `'y'`. -/
def boolEnv (env : Engine.Env) (key : Bytes) (defaultY : Bool) : Bool :=
  boolOf ((getenv env key []).map lowerByte) defaultY

/-- `base_instance`. -/
def baseInstance (env : Engine.Env) : Bytes :=
  match stringMatch (getenv env (str "SYSTEMD_INSTANCE") (str "1")) (str "^([^_%s]+)") with
  | some [base] => base
  | _ => str "1"

/-- The first of the `sets`. -/
def firstSet : List Bytes :=
  [str "1.1.1.1", str "1.0.0.1", str "9.9.9.10", str "149.112.112.10", str "9.9.9.10@9953",
    str "149.112.112.10@9953", str "76.76.2.0", str "76.76.10.0", str "64.6.64.6", str "64.6.65.6"]

def sets : List (Bytes × List Bytes) :=
  [(str "1", firstSet),
    (str "2", [str "62.76.76.62", str "62.76.62.76", str "195.208.4.1", str "195.208.5.1",
      str "185.191.32.7", str "185.191.32.8", str "217.150.34.129", str "217.150.35.129"]),
    (str "3", [str "77.88.8.8", str "77.88.8.1", str "77.88.8.8@1253", str "77.88.8.1@1253"]),
    (str "4", [str "8.8.8.8", str "8.8.4.4"]),
    (str "5", [str "94.140.14.14", str "94.140.15.15", str "94.140.14.14@5353",
      str "94.140.15.15@5353"]),
    (str "6", [str "83.220.169.155", str "212.109.195.93", str "195.133.25.16"]),
    (str "7", [str "111.88.96.50", str "111.88.96.51"]),
    (str "8", [str "217.60.245.219", str "217.60.245.233", str "31.25.239.132",
      str "143.20.64.192", str "2.27.118.34"])]

/-- The loop over the matches of `([^,%s"']+)`. -/
def listed (v : Bytes) : List Bytes := firsts v (str "([^,%s\"']+)")

/-- The condition on a server. -/
def usable (ip : Bytes) : Bool :=
  (stringMatch ip (str "^%d+%.%d+%.%d+%.%d+(@%d+)?$")).isSome || (stringMatch ip (str ":")).isSome

/-- `upstreams`. -/
def upstreams (env : Engine.Env) : List Bytes :=
  let dnsVar := getenv env (str "UPSTREAM_DNS") (str "1")
  match sets.lookup dnsVar with
  | some set => set
  | none =>
    let ups := (listed dnsVar).filter usable
    if ups = [] then firstSet else ups

/-- `opennic_ips`. -/
def opennicIps (env : Engine.Env) : List Bytes :=
  let ips := getenv env (str "OPENNIC_IPS") []
  if ips ≠ [] then listed ips
  else [str "94.247.43.254", str "95.216.99.249", str "152.53.15.127", str "185.226.181.19"]

/-- A route of `CUSTOM_DNS_ROUTES`: the zones, and the servers they are sent to. -/
def route (mapping : Bytes) : Option (List Bytes × List Bytes) :=
  match stringMatch mapping (str "^%s*(.-)%s*=%s*(.-)%s*$") with
  | some [domsStr, ipsStr] =>
    let doms := listed domsStr
    let ips := (listed ipsStr).filter usable
    if doms ≠ [] && ips ≠ [] then some (doms, ips) else none
  | _ => none

/-- The routes that are added. -/
def customRoutes (env : Engine.Env) : List (List Bytes × List Bytes) :=
  let customRoutes := getenv env (str "CUSTOM_DNS_ROUTES") []
  if customRoutes ≠ [] then (firsts customRoutes (str "([^;]+)")).filterMap route else []

/-! ## The patterns -/

/-- A character of a server, a zone or anything else that is listed. -/
def listedClass : Lua.Class := .set true [.char (chr ','), .escape (chr 's'), .char (chr '"'),
  .char (chr '\'')]

theorem compile_listed : compile (str "([^,%s\"']+)") = some ⟨false, run listedClass⟩ := by
  decide +kernel

theorem compile_colon : compile (str ":") = some ⟨false, [.one (.char (chr ':'))]⟩ := by
  decide +kernel

/-- The question mark of the pattern for IPv4 addresses is a character. -/
theorem compile_server :
    ∃ pat, compile (str "^%d+%.%d+%.%d+%.%d+(@%d+)?$") = some pat ∧
      .one (.char (chr '?')) ∈ pat.items :=
  ⟨_, rfl, by decide +kernel⟩

theorem compile_mapping :
    compile (str "([^;]+)") = some ⟨false, run (.set true [.char (chr ';')])⟩ := by
  decide +kernel

/-- A character of the name of an instance. -/
def baseClass : Lua.Class := .set true [.char (chr '_'), .escape (chr 's')]

theorem compile_base : compile (str "^([^_%s]+)") = some ⟨true, run baseClass⟩ := by
  decide +kernel

/-- What a list gives are its words. -/
theorem listed_eq (v : Bytes) : listed v = words listedClass.holds v :=
  firsts_run compile_listed v

theorem subset_of_mem_listed {v ip : Bytes} (h : ip ∈ listed v) : ip ⊆ v := by
  rw [listed_eq] at h
  exact subset_of_mem_words h

/-- **A server that is taken has a colon or a question mark in it.** -/
theorem mem_of_usable {ip : Bytes} (h : usable ip = true) : chr ':' ∈ ip ∨ chr '?' ∈ ip := by
  rw [usable, Bool.or_eq_true] at h
  rcases h with h | h
  · obtain ⟨pat, hpat, hmark⟩ := compile_server
    exact .inr (mem_of_stringMatch hpat hmark h)
  · exact .inl (mem_of_stringMatch compile_colon (by simp) h)

theorem usable_of_mem {ip : Bytes} (h : chr ':' ∈ ip) : usable ip = true := by
  obtain ⟨u, t, rfl⟩ := List.append_of_mem h
  have hhere : (here [.one (.char (chr ':'))] (chr ':' :: t)).isSome = true :=
    isSome_here_iff.2 ⟨chr ':', t, rfl, by decide, trivial⟩
  have hmatch : (stringMatch (u ++ chr ':' :: t) (str ":")).isSome = true := by
    rw [stringMatch, compile_colon, Option.bind_some, Option.isSome_map, search,
      if_neg Bool.false_ne_true, List.findSome?_isSome_iff]
    exact ⟨chr ':' :: t, (List.mem_tails _ _).2 (List.suffix_append _ _), hhere⟩
  rw [usable, hmatch, Bool.or_true]

/-- Of a list without a question mark the servers with a colon are taken. -/
theorem filter_usable {v : Bytes} (hmark : chr '?' ∉ v) :
    (listed v).filter usable = (listed v).filter (chr ':' ∈ ·) := by
  refine List.filter_congr fun ip hip => ?_
  rw [Bool.eq_iff_iff, decide_eq_true_iff]
  exact ⟨fun h => (mem_of_usable h).resolve_right fun h => hmark (subset_of_mem_listed hip h),
    usable_of_mem⟩

/-! ## Upstreams and routes -/

/-- **The upstreams of a list** are its servers with a colon; without one they are the first set. -/
theorem upstreams_eq {env : Engine.Env} {v : Bytes} (hv : env (str "UPSTREAM_DNS") = some v)
    (hset : sets.lookup v = none) (hmark : chr '?' ∉ v) :
    upstreams env =
      if (listed v).filter (chr ':' ∈ ·) = [] then firstSet
      else (listed v).filter (chr ':' ∈ ·) := by
  simp only [upstreams, getenv, hv, Option.getD_some, hset, filter_usable hmark]

theorem filter_colon_eq_nil {v : Bytes} (hcolon : chr ':' ∉ v) :
    (listed v).filter (chr ':' ∈ ·) = [] := by
  refine List.filter_eq_nil_iff.2 fun ip hip => ?_
  simpa using fun h => hcolon (subset_of_mem_listed hip h)

/-- A route has servers of the text it is read from. -/
theorem route_eq_none {mapping : Bytes} (hcolon : chr ':' ∉ mapping) (hmark : chr '?' ∉ mapping) :
    route mapping = none := by
  unfold route
  split
  · next domsStr ipsStr hmatch =>
    have hips : ipsStr ⊆ mapping :=
      (isInfix_of_mem_stringMatch hmatch ipsStr (by simp)).subset
    rw [filter_usable fun h => hmark (hips h), filter_colon_eq_nil fun h => hcolon (hips h)]
    simp
  · rfl

/-- **Without a colon or a question mark in the setting there are no routes.** -/
theorem customRoutes_eq_nil {env : Engine.Env} {v : Bytes}
    (hv : env (str "CUSTOM_DNS_ROUTES") = some v) (hcolon : chr ':' ∉ v) (hmark : chr '?' ∉ v) :
    customRoutes env = [] := by
  have hnone : ∀ mapping ∈ firsts v (str "([^;]+)"), route mapping = none := by
    intro mapping hmapping
    rw [firsts_run compile_mapping] at hmapping
    have hsub := subset_of_mem_words hmapping
    exact route_eq_none (fun h => hcolon (hsub h)) fun h => hmark (hsub h)
  simp only [customRoutes, getenv, hv, Option.getD_some]
  split_ifs
  · exact List.filterMap_eq_nil_iff.2 hnone
  · rfl

/-- The workers of an instance, which are numbered after an underscore, read the same. -/
theorem baseInstance_eq {env : Engine.Env} {i worker : Bytes}
    (henv : env (str "SYSTEMD_INSTANCE") = some (i ++ chr '_' :: worker)) (hne : i ≠ [])
    (hi : ∀ c ∈ i, baseClass.holds c = true) : baseInstance env = i := by
  have htake : (i ++ chr '_' :: worker).takeWhile baseClass.holds = i := by
    rw [List.takeWhile_append_of_pos hi, List.takeWhile_cons_of_neg (by decide), List.append_nil]
  have hmatch : stringMatch (getenv env (str "SYSTEMD_INSTANCE") (str "1")) (str "^([^_%s]+)") =
      some [i] := by
    rw [getenv, henv, Option.getD_some, stringMatch_run compile_base, htake, if_neg hne]
  rw [baseInstance, hmatch]

end NextPath.Resolver
