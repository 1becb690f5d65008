import NextPath.Engine.Config
import NextPath.Netlink.Worker

/-!
# Boolean settings

A boolean variable of the environment is read by three functions: `getEnvBool` of the engine,
`getEnvBool` of the compiler command and `parseBoolEnv` of the netlink package. All of them compare
the value in lower case with the same words. They differ in what they take off it first: the engine
white space, quotes and white space again, the compiler command white space and quotes, the netlink
package white space only.

* `boolOf_toLower`: the comparison, for a text of any case;
* `settings_agree_iff`: the values on which the three agree;
* `settings_disagree`: quotes are enough to make the proxy hand out fakes that are not written to
  the kernel.
-/

namespace NextPath

open Strings

/-! ## The three readers -/

/-- The words that stand for `true`. -/
def trueWords : List Bytes := [str "true", str "1", str "y", str "yes"]

/-- What all the readers do with the text that is left of the value. -/
def boolOf (val : Bytes) (defaultVal : Bool) : Bool :=
  if val = [] then defaultVal
  else val = str "true" || val = str "1" || val = str "y" || val = str "yes"

/-- `getEnvBool` of the engine. -/
def Engine.getEnvBool (u : Unicode) (env : Env) (key : Bytes) (defaultVal : Bool) : Bool :=
  boolOf (toLower u (trimSpace (getEnv env key []))) defaultVal

/-- `getEnv` of the compiler command. -/
def Compiler.getEnv (env : Engine.Env) (key defaultVal : Bytes) : Bytes :=
  Engine.getEnv env key defaultVal

/-- `getEnvBool` of the compiler command. -/
def Compiler.getEnvBool (u : Unicode) (env : Engine.Env) (key : Bytes) (defaultVal : Bool) : Bool :=
  boolOf (toLower u (getEnv env key [])) defaultVal

/-- `parseBoolEnv`; `os.Getenv` gives an empty text for a variable that is not set. -/
def Netlink.parseBoolEnv (u : Unicode) (env : Engine.Env) (key : Bytes) (defaultVal : Bool) :
    Bool :=
  boolOf (toLower u (trimSpace ((env key).getD []))) defaultVal

/-! ## Words -/

/-- No text with letters outside ASCII is one of the words in lower case, or nothing. Of the letters
outside ASCII only İ and the Kelvin sign have a lower case in ASCII, which is i and k. -/
def LowersApart (u : Unicode) : Prop :=
  ∀ s, isASCII s = false → u.lower s ≠ [] ∧ u.lower s ∉ trueWords

/-- The text is one of the words, in any case. -/
def TrueWord (s : Bytes) : Prop := s.map lowerByte ∈ trueWords

instance (s : Bytes) : Decidable (TrueWord s) := inferInstanceAs (Decidable (_ ∈ _))

theorem boolOf_eq (val : Bytes) (defaultVal : Bool) :
    boolOf val defaultVal = if val = [] then defaultVal else decide (val ∈ trueWords) := by
  simp [boolOf, trueWords, Bool.or_assoc]

theorem toNat_mem_trueWords : ∀ w ∈ trueWords, ∀ c ∈ w, 48 < c.toNat ∧ c.toNat < 128 := by
  decide +kernel

theorem toNat_of_lowerByte {c : UInt8} (h : 48 < (lowerByte c).toNat ∧ (lowerByte c).toNat < 128) :
    48 < c.toNat ∧ c.toNat < 128 := by
  rw [toNat_lowerByte] at h
  split_ifs at h <;> omega

theorem TrueWord.toNat_mem {s : Bytes} (h : TrueWord s) {c : UInt8} (hc : c ∈ s) :
    48 < c.toNat ∧ c.toNat < 128 :=
  toNat_of_lowerByte (toNat_mem_trueWords _ h _ (List.mem_map_of_mem hc))

theorem TrueWord.ne_nil {s : Bytes} (h : TrueWord s) : s ≠ [] := by
  rintro rfl
  exact absurd h (by decide)

theorem TrueWord.isASCII {s : Bytes} (h : TrueWord s) : isASCII s = true :=
  List.all_eq_true.2 fun _ hc => decide_eq_true (UInt8.lt_iff_toNat_lt.2 (h.toNat_mem hc).2)

/-- There is no white space to take off a word. -/
theorem TrueWord.trimSpace {s : Bytes} (h : TrueWord s) : trimSpace s = s :=
  (solid_of_forall fun _ hc => ⟨by have := (h.toNat_mem hc).1; omega, (h.toNat_mem hc).2⟩).trimSpace

/-- There are no quotes to take off a word. -/
theorem TrueWord.trim {s : Bytes} (h : TrueWord s) : trim s (str "\"'") = s := by
  have hquote : ∀ c ∈ str "\"'", c.toNat < 48 := by decide +kernel
  have hnot {c : UInt8} (hc : c ∈ s) : c ∉ str "\"'" := fun hq => by
    have := (h.toNat_mem hc).1
    have := hquote c hq
    omega
  exact trim_eq_self_iff.2 ⟨fun c hc => hnot (List.mem_of_mem_head? hc),
    fun c hc => hnot (List.mem_of_mem_getLast? hc)⟩

/-- What a reader returns for the text that is left, in whatever case it is. -/
def settingOf (s : Bytes) (defaultVal : Bool) : Bool :=
  if s = [] then defaultVal else decide (TrueWord s)

/-- **The comparison** is with the words in any case. -/
theorem boolOf_toLower {u : Unicode} (hu : LowersApart u) (s : Bytes) (defaultVal : Bool) :
    boolOf (toLower u s) defaultVal = settingOf s defaultVal := by
  rw [boolOf_eq, toLower, settingOf]
  cases hs : isASCII s with
  | true =>
    simp only [if_true, List.map_eq_nil_iff]
    rfl
  | false =>
    have hne : s ≠ [] := by
      rintro rfl
      exact absurd hs (by decide)
    have hword : ¬ TrueWord s := fun h => by
      rw [h.isASCII] at hs
      exact Bool.false_ne_true hs.symm
    obtain ⟨hlower, hnot⟩ := hu s hs
    rw [if_neg Bool.false_ne_true, if_neg hlower, if_neg hne, decide_eq_false hnot,
      decide_eq_false hword]

theorem settingOf_eq_false_iff {s : Bytes} {defaultVal : Bool} :
    settingOf s defaultVal = false ↔ (s = [] → defaultVal = false) ∧ ¬ TrueWord s := by
  rw [settingOf]
  split_ifs with hnil
  · subst hnil
    exact ⟨fun h => ⟨fun _ => h, by decide⟩, fun h => h.1 rfl⟩
  · exact ⟨fun h => ⟨fun hs => absurd hs hnil, of_decide_eq_false h⟩, fun h =>
      decide_eq_false h.2⟩

/-- White space around a text can only make it `false`. -/
theorem settingOf_trimSpace {s : Bytes} {defaultVal : Bool} (h : settingOf s defaultVal = true) :
    settingOf (trimSpace s) defaultVal = true := by
  by_cases hnil : s = []
  · rw [hnil] at h ⊢
    exact h
  · rw [settingOf, if_neg hnil] at h
    have hword : TrueWord s := of_decide_eq_true h
    rw [hword.trimSpace, settingOf, if_neg hnil, h]

/-! ## Agreement -/

theorem Engine.getEnv_nil (env : Env) (key : Bytes) :
    getEnv env key [] = trim (trimSpace ((env key).getD [])) (str "\"'") := by
  rw [getEnv]
  cases env key with
  | none => rfl
  | some value =>
    simp only [Option.getD_some]
    split_ifs with hval
    · rfl
    · exact (not_not.1 hval).symm

/-- The three readers agree on a setting. If it is that for IPv6, the client of the engine then
never reports a mapping as written that it has not even queued, while the proxy asks for it. -/
structure SettingsAgree (u : Unicode) (env : Engine.Env) (key : Bytes) (defaultVal : Bool) :
    Prop where
  compiler : Engine.getEnvBool u env key defaultVal = Compiler.getEnvBool u env key defaultVal
  netlink : Engine.getEnvBool u env key defaultVal = Netlink.parseBoolEnv u env key defaultVal
  not_dropped : Engine.getEnvBool u env key defaultVal = true →
    ∀ (c : Netlink.Worker.Client) (fakeIP realIP : Net.IP) (timeout : Pool.Time)
        (t : Netlink.Worker.Ticket),
      (t, none) ∈ (c.addMapping (Netlink.parseBoolEnv u env key defaultVal) fakeIP realIP
        timeout).returned → (t, none) ∈ c.returned

theorem settingsAgree_iff_eq {u : Unicode} {env : Engine.Env} {key : Bytes} {defaultVal : Bool} :
    SettingsAgree u env key defaultVal ↔
      Engine.getEnvBool u env key defaultVal = Compiler.getEnvBool u env key defaultVal ∧
        Engine.getEnvBool u env key defaultVal = Netlink.parseBoolEnv u env key defaultVal := by
  constructor
  · exact fun h => ⟨h.compiler, h.netlink⟩
  · rintro ⟨hcompiler, hnetlink⟩
    refine ⟨hcompiler, hnetlink, fun henabled c fakeIP realIP timeout t ht => ?_⟩
    rw [← hnetlink, henabled] at ht
    exact Netlink.Worker.mem_returned_addMapping ht

/-- **When the components agree on a setting**: its value, without the white space around it, is
not quoted, or what the quotes hold is neither a word for `true` nor, if the default is `true`,
blank. -/
theorem settings_agree_iff {u : Unicode} (hu : LowersApart u) (env : Engine.Env) (key : Bytes)
    (defaultVal : Bool) :
    SettingsAgree u env key defaultVal ↔
      let value := trimSpace ((env key).getD [])
      let unquoted := trim value (str "\"'")
      unquoted = value ∨
        (trimSpace unquoted = [] → defaultVal = false) ∧ ¬ TrueWord (trimSpace unquoted) := by
  rw [settingsAgree_iff_eq]
  simp only [Engine.getEnvBool, Compiler.getEnvBool, Compiler.getEnv, Netlink.parseBoolEnv,
    Engine.getEnv_nil, boolOf_toLower hu]
  obtain ⟨value, hvalue⟩ : ∃ value, value = trimSpace ((env key).getD []) := ⟨_, rfl⟩
  rw [← hvalue]
  by_cases hq : trim value (str "\"'") = value
  · have htrim : trimSpace value = value := by rw [hvalue, trimSpace_trimSpace]
    simp only [hq, htrim, true_or, and_self]
  · -- a quoted text is no word, so the netlink package reads `false`
    have hnetlink : settingOf value defaultVal = false :=
      settingOf_eq_false_iff.2 ⟨fun h => absurd (by rw [h]; rfl) hq, fun h => hq h.trim⟩
    rw [hnetlink, or_iff_right hq, ← settingOf_eq_false_iff]
    constructor
    · exact fun h => h.2
    · intro hengine
      refine ⟨?_, hengine⟩
      cases hcompiler : settingOf (trim value (str "\"'")) defaultVal with
      | false => exact hengine
      | true => exact settingOf_trimSpace hcompiler

/-- A table without letters outside ASCII. -/
def asciiUnicode : Unicode := ⟨id⟩

theorem lowersApart_asciiUnicode : LowersApart asciiUnicode := by
  intro s hs
  refine ⟨?_, fun hword => ?_⟩
  · rintro (rfl : s = [])
    exact absurd hs (by decide)
  · have hascii : ∀ w ∈ trueWords, isASCII w = true := by decide +kernel
    exact Bool.false_ne_true (hs.symm.trans (hascii s hword))

/-- An environment with one variable. -/
def ipv6Env (value : Bytes) : Engine.Env :=
  fun key => if key = str "ENABLE_IPV6" then some value else none

/-- White space and capitals are no obstacle. -/
theorem settings_agree_padded :
    SettingsAgree asciiUnicode (ipv6Env (str " Yes\r\n")) (str "ENABLE_IPV6") true :=
  (settings_agree_iff lowersApart_asciiUnicode _ _ _).2 (.inl (by decide +kernel))

/-- `fd00:18::1`. -/
def sampleFake6 : Net.IP := [0xfd, 0, 0, 0x18, 0, 0, 0, 0, 0, 0, 0, 0, 0, 0, 0, 1]

/-- `2001:db8::1`. -/
def sampleReal6 : Net.IP := [0x20, 1, 0x0d, 0xb8, 0, 0, 0, 0, 0, 0, 0, 0, 0, 0, 0, 1]

/-- **Quotes split the components.** With `ENABLE_IPV6="true"`, quotes included, the engine and the
compiler read `true` and the netlink package `false`: the mapping of an IPv6 fake is reported as
written and is in no queue. With nothing between the quotes the engine takes the default and the
netlink package does not, and white space between them is taken off by the engine only. -/
theorem settings_disagree :
    LowersApart asciiUnicode ∧
      ¬ SettingsAgree asciiUnicode (ipv6Env (str "\"true\"")) (str "ENABLE_IPV6") true ∧
      Engine.getEnvBool asciiUnicode (ipv6Env (str "\"true\"")) (str "ENABLE_IPV6") true = true ∧
      Compiler.getEnvBool asciiUnicode (ipv6Env (str "\"true\"")) (str "ENABLE_IPV6") true = true ∧
      Netlink.parseBoolEnv asciiUnicode (ipv6Env (str "\"true\"")) (str "ENABLE_IPV6") true =
        false ∧
      (∀ c : Netlink.Worker.Client,
        (c.addMapping false sampleFake6 sampleReal6 60).batchCh = c.batchCh ∧
          (c.addMapping false sampleFake6 sampleReal6 60).returned =
            (⟨c.calls, sampleFake6, sampleReal6, 60⟩, none) :: c.returned) ∧
      Engine.getEnvBool asciiUnicode (ipv6Env (str "''")) (str "ENABLE_IPV6") true = true ∧
      Netlink.parseBoolEnv asciiUnicode (ipv6Env (str "''")) (str "ENABLE_IPV6") true = false ∧
      Engine.getEnvBool asciiUnicode (ipv6Env (str "\" y \"")) (str "ENABLE_IPV6") true = true ∧
      Compiler.getEnvBool asciiUnicode (ipv6Env (str "\" y \"")) (str "ENABLE_IPV6") true =
        false := by
  refine ⟨lowersApart_asciiUnicode, fun h => ?_, by decide +kernel, by decide +kernel,
    by decide +kernel, fun c => ⟨rfl, rfl⟩, by decide +kernel⟩
  exact absurd h.netlink (by decide +kernel)

end NextPath
