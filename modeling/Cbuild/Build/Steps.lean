import Cbuild.Build.Install

/-! # What a build that returns has done

One inversion lemma for each function of the recursion. A build whose step is
`pkg` is the only kind that is nested; no phase stops it.
-/

namespace Cbuild.Build

open Lib

variable {env : Env} {rec : Call → State → Fueled Error State}

theorem install_returns {c : Call} {st st' : State} :
    (install env rec c st).Returns st' ↔ ∃ plan tcache st₁,
      checkDepends env st.repo c.arch c.tmpl c.origin st.tcache = .ok (plan, tcache) ∧
      (buildMissing env rec env.src.hostCpu (c.chost || env.src.cross c.arch) c.tmpl.pkgname
        plan.hostMissing { st with tcache }).Returns st₁ ∧
      (buildMissing env rec c.arch c.chost c.tmpl.pkgname plan.missing st₁).Returns st' ∧
      installFromRepo env st'.repo c.arch c.tmpl plan = .ok () := by
  unfold install
  simp only [Fueled.bind_returns, Fueled.lift_returns, Fueled.pure_returns]
  constructor
  · intro h
    obtain ⟨⟨plan, tcache⟩, hplan, st₁, hst₁, st₂, hst₂, ⟨⟩, hinst, heq⟩ := h
    subst heq
    exact ⟨plan, tcache, st₁, hplan, hst₁, hst₂, hinst⟩
  · intro h
    obtain ⟨plan, tcache, st₁, hplan, hst₁, hst₂, hinst⟩ := h
    exact ⟨(plan, tcache), hplan, st₁, hst₁, st', hst₂, (), hinst, rfl⟩

theorem buildMissing_cons_returns {arch : Arch} {chost : Bool} {origin : Str} {fulln : FullName}
    {missing : List FullName} {st st' : State} :
    (buildMissing env rec arch chost origin (fulln :: missing) st).Returns st' ↔
      (newTemplate env st.repo arch fulln = .ok none ∧
        (buildMissing env rec arch chost origin missing st).Returns st') ∨
      ∃ t st₁, newTemplate env st.repo arch fulln = .ok (some t) ∧
        (rec ⟨.target .pkg, arch, chost, origin, t⟩ st).Returns st₁ ∧
        (buildMissing env rec arch chost origin missing st₁).Returns st' := by
  rw [buildMissing]
  simp only [Fueled.bind_returns, Fueled.lift_returns]
  constructor
  · intro h
    obtain ⟨o, ho, hrest⟩ := h
    cases o with
    | none => exact Or.inl ⟨ho, hrest⟩
    | some t =>
        rw [Fueled.bind_returns] at hrest
        obtain ⟨st₁, hst₁, hrest⟩ := hrest
        exact Or.inr ⟨t, st₁, ho, hst₁, hrest⟩
  · intro h
    rcases h with ⟨ho, hrest⟩ | ⟨t, st₁, ho, hst₁, hrest⟩
    · exact ⟨none, ho, hrest⟩
    · exact ⟨some t, ho, Fueled.bind_returns.mpr ⟨st₁, hst₁, hrest⟩⟩


/-- A build that is to make packages is not stopped by any phase. -/
theorem stepSentinel_pkg {c : Call} (hstep : c.step = .target .pkg) {p : Phase} (hp : p ≠ .pkg) :
    stepSentinel env c none p = .ok false := by
  unfold stepSentinel
  rw [hstep, if_neg (fun h => hp (Step.target.inj h).symm), if_neg (fun h => nomatch h)]

theorem runPhases_pkg {c : Call} (hstep : c.step = .target .pkg) {ps : List Phase}
    (hps : Phase.pkg ∉ ps) {b : Bool} (h : runPhases env c none ps = .ok b) : b = false := by
  induction ps with
  | nil =>
      cases h
      rfl
  | cons p ps ih =>
      rw [List.mem_cons, not_or] at hps
      rw [runPhases] at h
      obtain ⟨_, _, h⟩ := except_bind_eq_ok.mp h
      rw [stepSentinel_pkg hstep (Ne.symm hps.1)] at h
      exact ih hps.2 h

theorem customDep_pkg {c : Call} (hstep : c.step = .target .pkg) : customDep c = .ok none := by
  unfold customDep
  rw [hstep]

theorem pkg_notMem_phases (t : Template) : Phase.pkg ∉ t.phases := by
  unfold Template.phases
  cases t.prepareAfterPatch <;> decide

/-- What a build that returns has done once its dependencies are there. -/
inductive Done (env : Env) (c : Call) (checked st : State) : State → Prop
  | stopped (h : c.step ≠ .target .pkg) : Done env c checked st st
  | extracted (h : c.step ≠ .target .pkg) : Done env c checked st (st.extract c checked)
  | finished : Done env c checked st ((st.extract c checked).finish env c)

theorem buildExtracted_done {c : Call} {cdep : Option Step} (hcdep : customDep c = .ok cdep)
    {checked st st' : State}
    (h : buildExtracted env c cdep (st.extract c checked) = .ok st') :
    Done env c checked st st' := by
  unfold buildExtracted at h
  obtain ⟨b, hb, h⟩ := except_bind_eq_ok.mp h
  cases b with
  | true =>
      cases h
      refine .extracted fun hstep => ?_
      rw [customDep_pkg hstep] at hcdep
      cases hcdep
      have := runPhases_pkg hstep (pkg_notMem_phases _) hb
      contradiction
  | false =>
      obtain ⟨_, _, h⟩ := except_bind_eq_ok.mp h
      cases h
      exact .finished

theorem buildLocked_done {c : Call} {cdep : Option Step} (hcdep : customDep c = .ok cdep)
    {st st' : State} (h : (buildLocked env rec c cdep st).Returns st') :
    ∃ st₁, (install env rec c st).Returns st₁ ∧ Done env c st st₁ st' := by
  unfold buildLocked at h
  simp only [Fueled.bind_returns, Fueled.lift_returns] at h
  obtain ⟨st₁, hst₁, _, _, b, hb, h⟩ := h
  refine ⟨st₁, hst₁, ?_⟩
  have hpkg : ∀ hstep : c.step = .target .pkg, cdep = none := by
    intro hstep
    rw [customDep_pkg hstep] at hcdep
    exact (Except.ok.inj hcdep).symm
  cases b with
  | true =>
      rw [if_pos rfl, Fueled.pure_returns] at h
      subst h
      refine .stopped fun hstep => ?_
      rw [hpkg hstep, stepSentinel_pkg hstep (by decide)] at hb
      contradiction
  | false =>
      simp only [Bool.false_eq_true, if_false, Fueled.bind_returns, Fueled.lift_returns] at h
      obtain ⟨b, hb, h⟩ := h
      cases b with
      | true =>
          rw [if_pos rfl, Fueled.pure_returns] at h
          subst h
          refine .stopped fun hstep => ?_
          rw [hpkg hstep] at hb
          have := runPhases_pkg hstep (by split <;> decide) hb
          contradiction
      | false =>
          simp only [Bool.false_eq_true, if_false, Fueled.lift_returns] at h
          exact buildExtracted_done hcdep h

/-- A build that returns was not under way, and either it stopped before its dependencies or
they were installed. -/
theorem buildWith_returns {c : Call} {st st' : State} (h : (buildWith env rec c st).Returns st') :
    c.depn ∉ st.depmap ∧
      ((c.step ≠ .target .pkg ∧ st' = st.enter c) ∨
        ∃ st₁, (install env rec c (st.enter c)).Returns st₁ ∧ Done env c (st.enter c) st₁ st') := by
  unfold buildWith at h
  split at h
  · exact absurd h Fueled.throw_returns
  · rename_i hdepn
    refine ⟨by simpa using hdepn, ?_⟩
    simp only [Fueled.bind_returns, Fueled.lift_returns] at h
    obtain ⟨cdep, hcdep, _, _, b, hb, h⟩ := h
    cases b with
    | true =>
        rw [if_pos rfl, Fueled.pure_returns] at h
        refine Or.inl ⟨fun hstep => ?_, h.symm⟩
        rw [customDep_pkg hstep] at hcdep
        cases hcdep
        have := runPhases_pkg hstep (by split <;> decide) hb
        contradiction
    | false =>
        simp only [Bool.false_eq_true, if_false] at h
        exact Or.inr (buildLocked_done hcdep h)

end Cbuild.Build
