import NextPath.Pool.Allocation

/-!
# What the operations leave in the global maps

What an operation can do to the fake-to-real map and the versions, on any pool and any bytes: it
deletes entries (`Fewer`), or it binds one pair (`Binds`). The statements about versions, and about
which fakes are bound to what, use only this.
-/

namespace NextPath.Pool

open Net

/-- The second pool is the first with some fakes deleted. -/
structure Fewer (p q : IPPool) : Prop where
  hlc : q.hlc = p.hlc
  realOf : ∀ f r, q.realOf f = some r → p.realOf f = some r
  versionOf : ∀ f v, q.versionOf f = some v → p.versionOf f = some v

/-- The second pool is the first with some fakes deleted and one pair bound. -/
structure Binds (p q : IPPool) (fake real : IPKey) (version : UInt64) : Prop where
  realOf : ∀ f r, q.realOf f = some r → f = fake ∧ r = real ∨ p.realOf f = some r
  versionOf : ∀ f v, q.versionOf f = some v → v = version ∨ p.versionOf f = some v

namespace Fewer

variable {p q q' : IPPool}

theorem refl (p : IPPool) : Fewer p p := ⟨rfl, fun _ _ h => h, fun _ _ h => h⟩

theorem trans (h : Fewer p q) (h' : Fewer q q') : Fewer p q' where
  hlc := h'.hlc.trans h.hlc
  realOf f r hr := h.realOf f r (h'.realOf f r hr)
  versionOf f v hv := h.versionOf f v (h'.versionOf f v hv)

theorem unbind (p : IPPool) (i : Fin 64) (r f : IPKey) : Fewer p (p.unbind i r f) := by
  refine ⟨rfl, fun x y hy => ?_, fun x v hv => ?_⟩
  · rw [p.realOf_unbind] at hy
    split_ifs at hy
    exact hy
  · rw [p.versionOf_unbind] at hv
    split_ifs at hv
    exact hv

theorem refresh (p : IPPool) (i : Fin 64) (r : IPKey) (t : Time) :
    Fewer p (p.modifyShard i (·.refresh r t)) := ⟨rfl, fun _ _ h => h, fun _ _ h => h⟩

/-- A loop whose every pass deletes. -/
theorem foldl {α : Type} {step : IPPool → α → IPPool} (hstep : ∀ q a, Fewer q (step q a))
    (l : List α) (p : IPPool) : Fewer p (l.foldl step p) := by
  induction l generalizing p with
  | nil => exact refl p
  | cons a l ih => exact (hstep p a).trans (ih _)

theorem removeMapping (p : IPPool) (realIP fakeIP : IP) :
    Fewer p (p.removeMapping realIP fakeIP) := by
  simp only [IPPool.removeMapping]
  split_ifs
  · exact unbind ..
  · exact refl p

theorem pruneExpired (p : IPPool) (now : Time) (order : Fin 64 → List IPKey) :
    Fewer p (p.pruneExpired now order) := by
  refine foldl (fun q i => foldl (fun q' pair => ?_) _ q) _ p
  rw [IPPool.pruneEntry]
  split
  · split_ifs
    · exact unbind ..
    · exact refl _
  · exact refl _

end Fewer

/-- `AddMapping` rejects, or binds its pair. -/
theorem addMapping_effect (p : IPPool) (realIP fakeIP : IP) (v : UInt64) (t : Time) :
    p.addMapping realIP fakeIP v t = (p, false) ∨
    (p.addMapping realIP fakeIP v t).2 = true ∧ (p.addMapping realIP fakeIP v t).1.hlc = p.hlc ∧
      Binds p (p.addMapping realIP fakeIP v t).1 (toIPKey fakeIP) (toIPKey realIP) v := by
  simp only [IPPool.addMapping]
  split_ifs
  · exact .inl rfl
  · exact .inl rfl
  · refine .inr ⟨rfl, by simp, fun f r hr => ?_, fun f w hw => ?_⟩
    · rw [IPPool.realOf_bind, IPPool.realOf_clearOldReal, IPPool.realOf_dropOldFake] at hr
      split_ifs at hr with hf
      · exact .inl ⟨hf, (Option.some.inj hr).symm⟩
      · exact .inr hr
    · rw [IPPool.versionOf_bind, IPPool.versionOf_clearOldReal,
        IPPool.versionOf_dropOldFake] at hw
      split_ifs at hw
      · exact .inl (Option.some.inj hw).symm
      · exact .inr hw

@[simp] theorem IPPool.hlc_addMapping (p : IPPool) (realIP fakeIP : IP) (v : UInt64) (t : Time) :
    (p.addMapping realIP fakeIP v t).1.hlc = p.hlc := by
  rcases addMapping_effect p realIP fakeIP v t with heq | ⟨-, hlc, -⟩
  · rw [heq]
  · exact hlc

/-- What a section that may allocate makes of `p`: it deletes, or it draws a version from the clock
and binds a fake. -/
def DeletesOrBinds (p : IPPool) (realIP : IP) (clk : Time) (out : IPPool × IPPool.Outcome) :
    Prop :=
  ((∀ info, out.2 ≠ .allocated info) ∧ Fewer p out.1) ∨
  ∃ info, out.2 = .allocated info ∧ info.version = (p.getNextVersion clk).2 ∧
    out.1.hlc = info.version ∧
    Binds p out.1 (toIPKey info.ip) (toIPKey realIP) info.version

theorem Fewer.vacate (p : IPPool) (ip : IP) : Fewer p (p.vacate ip) := by
  rw [IPPool.vacate]
  split
  · exact unbind ..
  · exact refl p

theorem secure_effect (p : IPPool) (realIP : IP) (isIPv6 : Bool) (now clk : Time) :
    DeletesOrBinds p realIP clk (p.secure realIP isIPv6 now clk) := by
  have hsec := p.secured_secure realIP isIPv6 now clk
  have hvacate := Fewer.vacate p realIP
  generalize p.secure realIP isIPv6 now clk = out at hsec
  rcases out with ⟨q, outcome⟩
  dsimp only at hsec
  cases hsec with
  | kept => exact .inl ⟨by simp, .refl p⟩
  | extended => exact .inl ⟨by simp, .refresh ..⟩
  | exhausted => exact .inl ⟨by simp, hvacate⟩
  | fresh =>
    refine .inr ⟨_, rfl, ?_, rfl, fun f r hr => ?_, fun f w hw => ?_⟩
    · simp only [IPPool.getNextVersion, hvacate.hlc]
    · rw [IPPool.realOf_bind] at hr
      split_ifs at hr with hf
      · exact .inl ⟨hf, (Option.some.inj hr).symm⟩
      · exact .inr (hvacate.realOf f r hr)
    · rw [IPPool.versionOf_bind] at hw
      split_ifs at hw
      · exact .inl (Option.some.inj hw).symm
      · exact .inr (hvacate.versionOf f w hw)

end NextPath.Pool
