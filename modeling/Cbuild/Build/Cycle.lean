import Cbuild.Build.Effects

/-! # Cycles

Templates that wait for each other never finish: the first of them to do so
would have needed another one that is finished already. A cycle is given as the
set of its builds; what is shown holds of any set of builds each of which needs
another one of the set.
-/

namespace Cbuild.Build

open Apk Lib

variable {env : Env} {rec : Call → State → Fueled Error State}

/-! ## The cache -/

/-- Every entry of the cache was found by some lookup. -/
def TCache.Sound (src : Source) (tcache : TCache) : Prop :=
  ∀ pkgn cv full, tcache.lookup pkgn = some (cv, full) →
    ∃ arch repos, Resolves src arch repos [] pkgn (some (some cv, full))

theorem TCache.sound_nil (src : Source) : TCache.Sound src [] := by
  intro pkgn cv full h
  cases h

theorem srcpkgVer_sound {src : Source} {arch : Arch} {repos : List Str} {tcache tcache' : TCache}
    {pkgn : Str} {found : Option (Option Str × FullName)} (hsound : TCache.Sound src tcache)
    (h : srcpkgVer src arch repos tcache pkgn = .ok (found, tcache')) :
    TCache.Sound src tcache' := by
  rcases srcpkgVer_tcache h with rfl | ⟨cv, full, hnone, rfl, rfl⟩
  · exact hsound
  · intro name cv' full' hname
    rw [List.lookup_cons] at hname
    split at hname
    · rename_i heq
      cases hname
      rw [eq_of_beq heq]
      exact ⟨arch, repos, (resolves_of_lookup_none hnone _).mp ⟨_, h⟩⟩
    · exact hsound name cv' full' hname

theorem lookupDepends_sound {src : Source} {arch : Arch} {repos : List Str} {deps : List Str}
    {tcache tcache' : TCache} {l : List BuildDep} (hsound : TCache.Sound src tcache)
    (h : lookupDepends src arch repos deps tcache = .ok (l, tcache')) :
    TCache.Sound src tcache' := by
  induction deps generalizing tcache l with
  | nil =>
      cases h
      exact hsound
  | cons pkgn deps ih =>
      rw [lookupDepends] at h
      obtain ⟨⟨found, tcache₁⟩, hfound, h⟩ := except_bind_eq_ok.mp h
      obtain ⟨⟨rest, tcache₂⟩, hrest, h⟩ := except_bind_eq_ok.mp h
      cases h
      exact ih (srcpkgVer_sound hsound hfound) hrest

theorem checkRuntimeDeps_sound {repo : Repo} {arch : Arch} {t : Template} {origpkg : Str}
    {deps : List (Str × Str)} {tcache tcache' : TCache} {missing : List FullName}
    (hsound : TCache.Sound env.src tcache)
    (h : checkRuntimeDeps env repo arch t origpkg deps tcache = .ok (missing, tcache')) :
    TCache.Sound env.src tcache' := by
  induction deps generalizing tcache missing with
  | nil =>
      cases h
      exact hsound
  | cons d deps ih =>
      rw [checkRuntimeDeps] at h
      obtain ⟨⟨fulln, tcache₁⟩, hd, h⟩ := except_bind_eq_ok.mp h
      obtain ⟨⟨missing', tcache₂⟩, hdeps, h⟩ := except_bind_eq_ok.mp h
      cases h
      refine ih ?_ hdeps
      rcases (checkRuntimeDep_spec hd).2 with rfl | ⟨pkgn, found, hfound⟩
      · exact hsound
      · exact srcpkgVer_sound hsound hfound

theorem checkDepends_sound {repo : Repo} {arch : Arch} {t : Template} {origpkg : Str}
    {tcache tcache' : TCache} {plan : Plan} (hsound : TCache.Sound env.src tcache)
    (h : checkDepends env repo arch t origpkg tcache = .ok (plan, tcache')) :
    TCache.Sound env.src tcache' := by
  obtain ⟨_, _, _, _, _, _, _, _, _, _, hhds, htds, htool, _, _, hruntime, _⟩ :=
    checkDepends_eq_ok h
  have hsound₃ := lookupDepends_sound (lookupDepends_sound hsound hhds) htds
  refine checkRuntimeDeps_sound ?_ hruntime
  unfold crossToolchain at htool
  split at htool
  · exact lookupDepends_sound hsound₃ htool
  · cases htool
    exact hsound₃

/-! ## Needing another build -/

/-- A template finds the name in its repositories, and nobody finds anything else under it. -/
structure Names (src : Source) (arch : Arch) (repos : List Str) (pkgn ver : Str)
    (full : FullName) : Prop where
  here : Resolves src arch repos [] pkgn (some (some ver, full))
  everywhere : ∀ arch' repos' ver' full',
    Resolves src arch' repos' [] pkgn (some (some ver', full')) → ver' = ver ∧ full' = full

theorem Names.resolves {src : Source} {arch : Arch} {repos : List Str} {pkgn ver : Str}
    {full : FullName} (h : Names src arch repos pkgn ver full) {tcache : TCache}
    (hsound : TCache.Sound src tcache) :
    Resolves src arch repos tcache pkgn (some (some ver, full)) := by
  cases hl : tcache.lookup pkgn with
  | none => exact (resolves_of_lookup_none hl _).mpr h.here
  | some r =>
      obtain ⟨cv, full'⟩ := r
      obtain ⟨arch', repos', hres⟩ := hsound pkgn cv full' hl
      obtain ⟨rfl, rfl⟩ := h.everywhere arch' repos' cv full' hres
      exact ⟨tcache, srcpkgVer_cached hl⟩

/-- The template is the one that is read under a full name. -/
structure Reads (env : Env) (arch : Arch) (fulln : FullName) (t : Template) : Prop where
  isFile : env.src.isFile fulln = true
  fullPkgname : t.fullPkgname = env.src.resolve fulln
  ofModule : env.OfModule (arch, t)
  fields : env.src.fields arch t.fullPkgname = some t.toFields

theorem Reads.eq_of_fullPkgname {arch : Arch} {fulln fulln' : FullName} {t t' : Template}
    (h : Reads env arch fulln t) (h' : Reads env arch fulln' t')
    (heq : t.fullPkgname = t'.fullPkgname) : t = t' := by
  have hmod := h.ofModule
  have hmod' := h'.ofModule
  have hfields := h.fields
  have hfields' := h'.fields
  unfold Env.OfModule at hmod hmod'
  obtain ⟨f, full, ver⟩ := t
  obtain ⟨f', full', ver'⟩ := t'
  dsimp only at heq hmod hmod' hfields hfields'
  subst heq
  rw [hmod] at hmod'
  rw [hfields] at hfields'
  cases hmod'
  cases hfields'
  rfl

/-- A dependency that no package meets, while its template makes the package and no other one
does. -/
structure Absent (env : Env) (repo : Repo) (t : Template) (arch : Arch) (pkgn dep : Str)
    (u : Template) : Prop where
  absent : ∀ ver ∈ env.versions repo arch t pkgn, pkgMatch pkgn ver dep ≠ some true
  sole : ∀ w fulln, Reads env arch fulln w → pkgn ∈ (env.outputs arch w).map Prod.fst →
    w.fullPkgname = u.fullPkgname

/-- The build of `t` for `arch` needs the build of `u` for `b`: a dependency on it is missing. -/
inductive Needs (env : Env) (repo : Repo) (arch : Arch) (t : Template) :
    Arch → Template → Prop
  | host {pkgn ver : Str} {fulln : FullName} {u : Template}
      (hmem : pkgn ∈ t.hostdepends (env.src.cross arch))
      (hname : Names env.src arch (env.repos t) pkgn ver fulln)
      (hreads : Reads env env.src.hostCpu fulln u)
      (h : Absent env repo t env.src.hostCpu pkgn (exactly pkgn ver) u) :
      Needs env repo arch t env.src.hostCpu u
  | make {pkgn ver : Str} {fulln : FullName} {u : Template}
      (hmem : pkgn ∈ t.makedepends)
      (hname : Names env.src arch (env.repos t) pkgn ver fulln)
      (hreads : Reads env arch fulln u)
      (h : Absent env repo t arch pkgn (exactly pkgn ver) u) : Needs env repo arch t arch u
  | runtime {rdeps : List (Str × Str)} {d : Str × Str} {pkgn pkgv pkgop ver : Str}
      {fulln : FullName} {u : Template}
      (hrdeps : runtimeDepends env.src.isdigit false t.crdeps = .ok rdeps) (hmem : d ∈ rdeps)
      (hsplit : splitPkgName env.src.isdigit d.2 = some (pkgn, pkgv, pkgop))
      (hown : ¬ t.Owns pkgn)
      (hname : Names env.src arch (env.repos t) pkgn ver fulln)
      (hreads : Reads env arch fulln u)
      (h : Absent env repo t arch pkgn (pkgn ++ pkgop ++ pkgv) u) : Needs env repo arch t arch u

theorem NamePlanned.missing {repo : Repo} {arch buildArch : Arch} {t u : Template}
    {tcache : TCache} {binpkgs : List Str} {missing : List FullName} {pkgn ver : Str}
    {fulln : FullName} (h : NamePlanned env repo arch buildArch t tcache binpkgs missing pkgn)
    (hsound : TCache.Sound env.src tcache)
    (hname : Names env.src arch (env.repos t) pkgn ver fulln)
    (habsent : Absent env repo t buildArch pkgn (exactly pkgn ver) u) : fulln ∈ missing := by
  obtain ⟨found, hfound, ver', _, hver⟩ := h
  have heq : found = some (some ver, fulln) := hfound.unique (hname.resolves hsound)
  rw [heq] at hver
  rcases hver with havail | ⟨full, hfull, _, hmissing⟩
  · obtain ⟨v, hv, hmatch⟩ := (isAvailable_some havail).2
    rw [exactly_eq] at hmatch
    exact absurd hmatch (habsent.absent v hv)
  · cases hmissing
    exact hfull

/-- A build that is needed is in the plan. -/
theorem Needs.planned {repo : Repo} {arch b : Arch} {t u : Template} {tcache : TCache}
    {plan : Plan} (h : Needs env repo arch t b u) (hsound : TCache.Sound env.src tcache)
    (hplan : Planned env repo arch t tcache plan) :
    ∃ fulln, Reads env b fulln u ∧
      ((b = env.src.hostCpu ∧ fulln ∈ plan.hostMissing) ∨ (b = arch ∧ fulln ∈ plan.missing)) := by
  cases h with
  | host hmem hname hreads h =>
      exact ⟨_, hreads, Or.inl ⟨rfl, (hplan.host _ hmem).missing hsound hname h⟩⟩
  | make hmem hname hreads h =>
      exact ⟨_, hreads, Or.inr ⟨rfl, (hplan.make _ hmem).missing hsound hname h⟩⟩
  | @runtime rdeps d pkgn pkgv pkgop ver fulln u hrdeps hmem hsplit hown hname hreads h =>
      refine ⟨fulln, hreads, Or.inr ⟨rfl, ?_⟩⟩
      obtain ⟨full, ⟨pkgn', pkgv', pkgop', hsplit', hchecked⟩, hplanned⟩ :=
        hplan.runtime rdeps hrdeps d hmem
      rw [hsplit] at hsplit'
      cases hsplit'
      cases hchecked with
      | own h => exact absurd h hown
      | found aver havail =>
          obtain ⟨v, hv, hmatch⟩ := (isAvailable_some havail).2
          exact absurd hmatch (h.absent v hv)
      | missing full' _ hmissing =>
          obtain ⟨rdv, hres, _⟩ := hmissing.found
          cases hres.unique (hname.resolves hsound)
          exact hplanned fulln rfl

/-! ## A cycle stays one -/

/-- Builds that are not done yet, each of which needs another one of them. -/
def Cyclic (env : Env) (S : Arch → Template → Prop) (repo : Repo) : Prop :=
  ∀ arch t, S arch t → (∃ fulln, Reads env arch fulln t) ∧
    env.apk.newest repo arch t.fullPkgname ≠ some t.fullPkgver ∧
    ∃ b u, Needs env repo arch t b u ∧ S b u

/-- A build adds versions only of the names it makes. -/
theorem versions_publish {repo : Repo} {arch b : Arch} {t w : Template} {pkgn ver : Str}
    (h : ver ∈ env.versions (env.lay.publish env.outputs repo b w) arch t pkgn) :
    ver ∈ env.versions repo arch t pkgn ∨
      (b = arch ∧ pkgn ∈ (env.outputs b w).map Prod.fst) := by
  unfold Env.versions Layout.versions Layout.packages at h ⊢
  simp only [List.mem_map, List.mem_filter] at h ⊢
  obtain ⟨p, ⟨⟨hp, hsees⟩, hname⟩, rfl⟩ := h
  unfold Layout.publish at hp
  rcases List.mem_append.mp hp with hp | hp
  · exact Or.inl ⟨p, ⟨⟨(List.mem_filter.mp hp).1, hsees⟩, hname⟩, rfl⟩
  · right
    unfold Layout.built at hp
    obtain ⟨o, ho, rfl⟩ := List.mem_map.mp hp
    simp only [Bool.and_eq_true, decide_eq_true_eq] at hsees hname
    exact ⟨hsees.1, o, ho, hname⟩

theorem Absent.publish {repo : Repo} {t u w : Template} {arch b : Arch} {pkgn dep : Str}
    {fulln : FullName} (hreads : Reads env b fulln w) (h : Absent env repo t arch pkgn dep u)
    (hw : b = arch → w.fullPkgname ≠ u.fullPkgname) :
    Absent env (env.lay.publish env.outputs repo b w) t arch pkgn dep u := by
  refine ⟨fun ver hver => ?_, h.sole⟩
  rcases versions_publish hver with hver | ⟨rfl, hmem⟩
  · exact h.absent ver hver
  · exact absurd (h.sole w fulln hreads hmem) (hw rfl)

theorem Needs.publish {repo : Repo} {arch b b' : Arch} {t u w : Template} {fulln : FullName}
    (hw' : Reads env b' fulln w) (h : Needs env repo arch t b u) (hw : b' = b → w.fullPkgname ≠ u.fullPkgname) :
    Needs env (env.lay.publish env.outputs repo b' w) arch t b u := by
  cases h with
  | host hmem hname hreads h => exact .host hmem hname hreads (h.publish hw' hw)
  | make hmem hname hreads h => exact .make hmem hname hreads (h.publish hw' hw)
  | runtime hrdeps hmem hsplit hown hname hreads h =>
      exact .runtime hrdeps hmem hsplit hown hname hreads (h.publish hw' hw)

/-- A build outside the cycle leaves it as it is. -/
theorem Cyclic.publish (hsound : env.Sound) {S : Arch → Template → Prop} {repo : Repo}
    (h : Cyclic env S repo) {b : Arch} {w : Template} {fulln : FullName}
    (hreads : Reads env b fulln w) (hw : ¬ S b w) :
    Cyclic env S (env.lay.publish env.outputs repo b w) := by
  have hne : ∀ {arch u}, S arch u → b = arch → w.fullPkgname ≠ u.fullPkgname := by
    intro arch u hu harch hfull
    subst harch
    obtain ⟨⟨fulln', hreads'⟩, _⟩ := h b u hu
    have hwu : w = u := hreads.eq_of_fullPkgname hreads' hfull
    rw [← hwu] at hu
    exact hw hu
  intro arch t ht
  obtain ⟨hread, hnewest, b', u, hneeds, hu⟩ := h arch t ht
  refine ⟨hread, ?_, b', u, hneeds.publish hreads (hne hu), hu⟩
  rw [hsound.newest_publish_of_ne]
  · exact hnewest
  · intro heq
    obtain ⟨harch, hfull⟩ := Prod.mk.inj heq
    exact hne ht harch.symm hfull.symm

/-! ## No build of the cycle returns -/

/-- The invariant of the recursion. -/
structure Waiting (env : Env) (S : Arch → Template → Prop) (st : State) : Prop where
  cyclic : Cyclic env S st.repo
  tcache : TCache.Sound env.src st.tcache

theorem newTemplate_reads {repo : Repo} {arch : Arch} {fulln : FullName} {t : Template}
    (h : newTemplate env repo arch fulln = .ok (some t)) : Reads env arch fulln t := by
  obtain ⟨hfile, hfull, hmod, hfields, _⟩ := newTemplate_some h
  exact ⟨hfile, hfull, hmod, hfields⟩

theorem buildMissing_waiting {S : Arch → Template → Prop}
    (hrec : ∀ c st st', c.step = .target .pkg → (∃ fulln, Reads env c.arch fulln c.tmpl) →
      Waiting env S st → (rec c st).Returns st' → ¬ S c.arch c.tmpl ∧ Waiting env S st')
    {arch : Arch} {chost : Bool} {origin : Str} {missing : List FullName} {st st' : State}
    (hst : Waiting env S st)
    (h : (buildMissing env rec arch chost origin missing st).Returns st') :
    Waiting env S st' ∧ ∀ fulln ∈ missing, ∀ u, Reads env arch fulln u → ¬ S arch u := by
  induction missing generalizing st with
  | nil =>
      rw [buildMissing, Fueled.pure_returns] at h
      subst h
      exact ⟨hst, fun _ h => absurd h List.not_mem_nil⟩
  | cons fulln missing ih =>
      rcases buildMissing_cons_returns.mp h with ⟨hnone, hrest⟩ | ⟨t, st₁, ht, hst₁, hrest⟩
      · obtain ⟨hst', hout⟩ := ih hst hrest
        refine ⟨hst', fun f hf u hu hS => ?_⟩
        rcases List.mem_cons.mp hf with rfl | hf
        · -- what is skipped is built, and nothing of the cycle is
          obtain ⟨ver, hmod, hnewest⟩ := newTemplate_none hnone
          have humod := hu.ofModule
          unfold Env.OfModule at humod
          rw [← hu.fullPkgname] at hmod hnewest
          rw [hmod] at humod
          cases humod
          exact (hst.cyclic arch u hS).2.1 hnewest
        · exact hout f hf u hu hS
      · have hreads := newTemplate_reads ht
        obtain ⟨hS, hwait₁⟩ := hrec _ _ _ rfl ⟨fulln, hreads⟩ hst hst₁
        obtain ⟨hst', hout⟩ := ih hwait₁ hrest
        refine ⟨hst', fun f hf u hu => ?_⟩
        rcases List.mem_cons.mp hf with rfl | hf
        · have htu : t = u :=
            hreads.eq_of_fullPkgname hu (hreads.fullPkgname.trans hu.fullPkgname.symm)
          rw [← htu]
          exact hS
        · exact hout f hf u hu

/-- A build of the cycle does not get past `install`. -/
theorem install_waiting {S : Arch → Template → Prop}
    (hrec : ∀ c st st', c.step = .target .pkg → (∃ fulln, Reads env c.arch fulln c.tmpl) →
      Waiting env S st → (rec c st).Returns st' → ¬ S c.arch c.tmpl ∧ Waiting env S st')
    {c : Call} {st st' : State} (hst : Waiting env S st)
    (h : (install env rec c st).Returns st') : ¬ S c.arch c.tmpl ∧ Waiting env S st' := by
  obtain ⟨plan, tcache, st₁, hplan, hhost, htarget, _⟩ := install_returns.mp h
  have hstart : Waiting env S { st with tcache } :=
    ⟨hst.cyclic, checkDepends_sound hst.tcache hplan⟩
  obtain ⟨hst₁, houthost⟩ := buildMissing_waiting hrec hstart hhost
  obtain ⟨hst', houttarget⟩ := buildMissing_waiting hrec hst₁ htarget
  refine ⟨fun hS => ?_, hst'⟩
  obtain ⟨_, _, b, u, hneeds, hu⟩ := hst.cyclic c.arch c.tmpl hS
  obtain ⟨fulln, hreads, hplanned⟩ := hneeds.planned hst.tcache (checkDepends_planned hplan)
  rcases hplanned with ⟨rfl, hmem⟩ | ⟨rfl, hmem⟩
  · exact houthost fulln hmem u hreads hu
  · exact houttarget fulln hmem u hreads hu

/-- A nested build that returns is not of the cycle, and leaves it as it is. -/
theorem build_waiting (hsound : env.Sound) {S : Arch → Template → Prop} (fuel : Nat) {c : Call}
    {st st' : State} (hstep : c.step = .target .pkg)
    (hreads : ∃ fulln, Reads env c.arch fulln c.tmpl) (hst : Waiting env S st)
    (h : (build env fuel c st).Returns st') : ¬ S c.arch c.tmpl ∧ Waiting env S st' := by
  induction fuel generalizing c st st' with
  | zero => exact absurd h (by simp [build, Fueled.outOfFuel, Fueled.Returns])
  | succ fuel ih =>
      obtain ⟨_, h⟩ := buildWith_returns h
      rcases h with ⟨hne, _⟩ | ⟨st₁, hinst, hdone⟩
      · exact absurd hstep hne
      have henter : Waiting env S (st.enter c) := ⟨hst.cyclic, hst.tcache⟩
      obtain ⟨hS, hst₁⟩ := install_waiting (fun _ _ _ hs hr hw h => ih hs hr hw h) henter hinst
      refine ⟨hS, ?_⟩
      cases hdone with
      | stopped hne => exact absurd hstep hne
      | extracted hne => exact absurd hstep hne
      | finished =>
          obtain ⟨fulln, hreads⟩ := hreads
          exact ⟨hst₁.cyclic.publish hsound hreads hS, hst₁.tcache⟩

/-- A build of a cycle that is to make packages does not return. -/
theorem build_cyclic_not_returns (hsound : env.Sound) {S : Arch → Template → Prop} (fuel : Nat)
    {c : Call} {st st' : State} (hstep : c.step = .target .pkg) (hst : Waiting env S st)
    (hS : S c.arch c.tmpl) : ¬ (build env fuel c st).Returns st' := by
  intro h
  exact (build_waiting hsound fuel hstep (hst.cyclic _ _ hS).1 hst h).1 hS

end Cbuild.Build
