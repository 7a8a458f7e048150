import Cbuild.Build.Planned
import Cbuild.Build.Terminates

/-! # What a build leaves behind

The relation `Grows` between the states before and after a nested build: `depmap`
is as it was, templates that were not built were built, each once, and every
extract phase found its dependencies. It composes, so that an induction on the
depth carries it through the recursion.
-/

namespace Cbuild.Build

open Apk Lib

/-! ## Assumptions on apk -/

/-- What the code relies on: a finished build makes `is_built` true for its template, and
nothing but a build of that template changes it; a transaction succeeds only if apk sees a
package for each dependency it is given. -/
structure Env.Sound (env : Env) : Prop where
  newest_publish : ∀ repo arch t,
    env.apk.newest (env.lay.publish env.outputs repo arch t) arch t.fullPkgname =
      some t.fullPkgver
  newest_publish_of_ne : ∀ repo arch t arch' full, (arch', full) ≠ (arch, t.fullPkgname) →
    env.apk.newest (env.lay.publish env.outputs repo arch t) arch' full =
      env.apk.newest repo arch' full
  installs : ∀ repo arch repos deps, env.apk.installs repo arch repos deps = true →
    ∀ dep ∈ deps, env.lay.Provides repo arch repos dep

namespace Env

variable (env : Env)

/-- The repositories after some builds. -/
def publishAll (repo : Repo) (l : List (Arch × Template)) : Repo :=
  l.foldl (fun repo x => env.lay.publish env.outputs repo x.1 x.2) repo

/-- The version of the template is the one its module sets. -/
def OfModule (x : Arch × Template) : Prop :=
  env.src.module x.1 x.2.fullPkgname = some ⟨some x.2.fullPkgver, true⟩

/-- `is_built` holds of the template behind a name. -/
def Built (repo : Repo) (arch : Arch) (fulln : FullName) : Prop :=
  ∃ ver, env.src.module arch (env.src.resolve fulln) = some ⟨some ver, true⟩ ∧
    env.apk.newest repo arch (env.src.resolve fulln) = some ver

variable {env}

theorem publishAll_append (repo : Repo) (l l' : List (Arch × Template)) :
    env.publishAll repo (l ++ l') = env.publishAll (env.publishAll repo l) l' :=
  List.foldl_append ..

/-- Once the newest package of a template is the one of its module, it stays so. -/
theorem newest_publishAll (hsound : env.Sound) {l : List (Arch × Template)}
    (hmod : ∀ x ∈ l, env.OfModule x) {arch : Arch} {full : FullName} {ver : Str}
    (hver : env.src.module arch full = some ⟨some ver, true⟩) {repo : Repo}
    (h : env.apk.newest repo arch full = some ver) :
    env.apk.newest (env.publishAll repo l) arch full = some ver := by
  induction l generalizing repo with
  | nil => exact h
  | cons x l ih =>
      refine ih (fun y hy => hmod y (List.mem_cons_of_mem x hy)) ?_
      by_cases hx : (arch, full) = (x.1, x.2.fullPkgname)
      · obtain ⟨rfl, rfl⟩ := Prod.mk.inj hx
        have hxmod : env.OfModule x := hmod x (List.mem_cons_self ..)
        rw [hsound.newest_publish]
        rw [OfModule, hver] at hxmod
        cases hxmod
        rfl
      · rw [hsound.newest_publish_of_ne _ _ _ _ _ hx]
        exact h

theorem newest_publishAll_of_mem (hsound : env.Sound) {l : List (Arch × Template)}
    (hmod : ∀ x ∈ l, env.OfModule x) {x : Arch × Template} (hx : x ∈ l) (repo : Repo) :
    env.apk.newest (env.publishAll repo l) x.1 x.2.fullPkgname = some x.2.fullPkgver := by
  obtain ⟨l₁, l₂, rfl⟩ := List.append_of_mem hx
  rw [publishAll_append]
  exact newest_publishAll hsound
    (fun y hy => hmod y (List.mem_append_right _ (List.mem_cons_of_mem x hy))) (hmod x hx)
    (hsound.newest_publish ..)

theorem Built.publishAll (hsound : env.Sound) {l : List (Arch × Template)}
    (hmod : ∀ x ∈ l, env.OfModule x) {repo : Repo} {arch : Arch} {fulln : FullName}
    (h : env.Built repo arch fulln) : env.Built (env.publishAll repo l) arch fulln := by
  obtain ⟨ver, hver, hnewest⟩ := h
  exact ⟨ver, hver, newest_publishAll hsound hmod hver hnewest⟩

/-! ## Where builds are nested -/

/-- A build for `arch` with `chost` can lead to one for `arch'` with `chost'`. -/
def Nested (env : Env) (arch : Arch) (chost : Bool) (arch' : Arch) (chost' : Bool) : Prop :=
  (arch' = arch ∧ chost' = chost) ∨
    (arch' = env.src.hostCpu ∧ env.src.cross arch = true ∧ chost' = true)

theorem Nested.refl (arch : Arch) (chost : Bool) : env.Nested arch chost arch chost :=
  Or.inl ⟨rfl, rfl⟩

theorem cross_hostCpu : env.src.cross env.src.hostCpu = false := by simp [Source.cross]

theorem hostCpu_of_cross_eq_false {arch : Arch} (h : env.src.cross arch = false) :
    arch = env.src.hostCpu := by simpa [Source.cross] using h

theorem Nested.host (arch : Arch) (chost : Bool) :
    env.Nested arch chost env.src.hostCpu (chost || env.src.cross arch) := by
  cases hcross : env.src.cross arch with
  | true => exact Or.inr ⟨rfl, hcross, Bool.or_true chost⟩
  | false => exact Or.inl ⟨(hostCpu_of_cross_eq_false hcross).symm, Bool.or_false chost⟩

theorem Nested.trans {arch₁ arch₂ arch₃ : Arch} {chost₁ chost₂ chost₃ : Bool}
    (h : env.Nested arch₁ chost₁ arch₂ chost₂) (h' : env.Nested arch₂ chost₂ arch₃ chost₃) :
    env.Nested arch₁ chost₁ arch₃ chost₃ := by
  rcases h with ⟨rfl, rfl⟩ | ⟨rfl, hcross, rfl⟩
  · exact h'
  · rcases h' with ⟨rfl, rfl⟩ | ⟨_, hcross', _⟩
    · exact Or.inr ⟨rfl, hcross, rfl⟩
    · rw [cross_hostCpu] at hcross'
      contradiction

end Env

/-! ## The relation -/

/-- A host or target dependency is in the repositories, in the version of its template where
the name has one. -/
def ProvidedName (env : Env) (x : Extract) (arch : Arch) (pkgn : Str) : Prop :=
  ∃ ver, env.lay.Provides x.repo arch (env.repos x.tmpl) (exactly pkgn ver) ∧
    ∀ sver full, Resolves env.src x.arch (env.repos x.tmpl) x.tcache pkgn (some (some sver, full)) →
      ver = sver ∨ pkgMatch pkgn ver (exactly pkgn sver) = some true

/-- A runtime dependency belongs to the template itself, or it was met when it was checked, or
its template meets it and has been built. -/
def ProvidedRuntime (env : Env) (x : Extract) (dep : Str) : Prop :=
  ∃ pkgn pkgv pkgop, splitPkgName env.src.isdigit dep = some (pkgn, pkgv, pkgop) ∧
    (x.tmpl.Owns pkgn ∨
      (∃ ver ∈ env.versions x.checked x.arch x.tmpl pkgn,
        pkgMatch pkgn ver (pkgn ++ pkgop ++ pkgv) = some true) ∨
      ∃ rdv full, Resolves env.src x.arch (env.repos x.tmpl) x.tcache pkgn (some (some rdv, full)) ∧
        pkgMatch pkgn rdv (pkgn ++ pkgop ++ pkgv) = some true ∧ env.Built x.repo x.arch full)

structure Provided (env : Env) (x : Extract) : Prop where
  host : ∀ pkgn ∈ x.tmpl.hostdepends (env.src.cross x.arch),
    ProvidedName env x env.src.hostCpu pkgn
  make : ∀ pkgn ∈ x.tmpl.makedepends, ProvidedName env x x.arch pkgn
  runtime : ∀ rdeps, runtimeDepends env.src.isdigit false x.tmpl.crdeps = .ok rdeps →
    ∀ d ∈ rdeps, ProvidedRuntime env x d.2

def buildKey (x : Arch × Template) : Arch × FullName := (x.1, x.2.fullPkgname)

/-- The builds that were finished from `st` on, under a build for `arch` with `chost`. -/
structure Builds (env : Env) (arch : Arch) (chost : Bool) (st : State)
    (l : List (Arch × Template)) : Prop where
  distinct : (l.map buildKey).Nodup
  ofModule : ∀ x ∈ l, env.OfModule x
  /-- None of them was built before. -/
  fresh : ∀ x ∈ l, env.apk.newest st.repo x.1 x.2.fullPkgname ≠ some x.2.fullPkgver
  /-- None of them was under way. -/
  outside : ∀ x ∈ l, ∃ chost', env.Nested arch chost x.1 chost' ∧
    depn chost' x.2.pkgname ∉ st.depmap

structure Grows (env : Env) (arch : Arch) (chost : Bool) (st st' : State) : Prop where
  depmap : st'.depmap = st.depmap
  builds : ∃ l, st'.finished = st.finished ++ l ∧ st'.repo = env.publishAll st.repo l ∧
    Builds env arch chost st l
  extracts : ∃ e, st'.extracts = st.extracts ++ e ∧ ∀ x ∈ e, Provided env x

variable {env : Env}

theorem Grows.refl (arch : Arch) (chost : Bool) (st : State) : Grows env arch chost st st := by
  refine ⟨rfl, ⟨[], (List.append_nil _).symm, rfl, ?_⟩, [], (List.append_nil _).symm, ?_⟩
  · exact ⟨List.nodup_nil, fun _ h => absurd h List.not_mem_nil,
      fun _ h => absurd h List.not_mem_nil, fun _ h => absurd h List.not_mem_nil⟩
  · exact fun _ h => absurd h List.not_mem_nil

theorem Builds.mono {arch arch' : Arch} {chost chost' : Bool} {st : State}
    {l : List (Arch × Template)} (hnested : env.Nested arch chost arch' chost')
    (h : Builds env arch' chost' st l) : Builds env arch chost st l := by
  refine ⟨h.distinct, h.ofModule, h.fresh, fun x hx => ?_⟩
  obtain ⟨chost'', hx, hdepn⟩ := h.outside x hx
  exact ⟨chost'', hnested.trans hx, hdepn⟩

theorem Grows.mono {arch arch' : Arch} {chost chost' : Bool} {st st' : State}
    (hnested : env.Nested arch chost arch' chost') (h : Grows env arch' chost' st st') :
    Grows env arch chost st st' := by
  obtain ⟨l, hfinished, hrepo, hl⟩ := h.builds
  exact ⟨h.depmap, ⟨l, hfinished, hrepo, hl.mono hnested⟩, h.extracts⟩

/-- Builds that follow others are builds of other templates, as those are built by then. -/
theorem Builds.append (hsound : env.Sound) {arch : Arch} {chost : Bool} {st st₁ : State}
    {l l' : List (Arch × Template)} (h : Builds env arch chost st l)
    (hrepo : st₁.repo = env.publishAll st.repo l) (hdepmap : st₁.depmap = st.depmap)
    (h' : Builds env arch chost st₁ l') : Builds env arch chost st (l ++ l') := by
  refine ⟨?_, ?_, ?_, ?_⟩
  · rw [List.map_append]
    refine List.nodup_append.mpr ⟨h.distinct, h'.distinct, ?_⟩
    intro k hk k' hk' heq
    subst heq
    obtain ⟨x, hx, rfl⟩ := List.mem_map.mp hk
    obtain ⟨y, hy, hxy⟩ := List.mem_map.mp hk'
    obtain ⟨harch, hfull⟩ := Prod.mk.inj hxy
    have hbuilt := Env.newest_publishAll_of_mem hsound h.ofModule hx st.repo
    have hver : y.2.fullPkgver = x.2.fullPkgver := by
      have hym := h'.ofModule y hy
      have hxm := h.ofModule x hx
      unfold Env.OfModule at hym hxm
      rw [harch, hfull, hxm] at hym
      exact (Option.some.inj (Module.mk.inj (Option.some.inj hym)).1).symm
    refine h'.fresh y hy ?_
    rw [hrepo, harch, hfull, hver]
    exact hbuilt
  · intro x hx
    rcases List.mem_append.mp hx with hx | hx
    · exact h.ofModule x hx
    · exact h'.ofModule x hx
  · intro x hx
    rcases List.mem_append.mp hx with hx | hx
    · exact h.fresh x hx
    · intro hnewest
      refine h'.fresh x hx ?_
      rw [hrepo]
      exact Env.newest_publishAll hsound h.ofModule (h'.ofModule x hx) hnewest
  · intro x hx
    rcases List.mem_append.mp hx with hx | hx
    · exact h.outside x hx
    · rw [← hdepmap]
      exact h'.outside x hx

theorem Grows.trans (hsound : env.Sound) {arch : Arch} {chost : Bool} {st st₁ st₂ : State}
    (h : Grows env arch chost st st₁) (h' : Grows env arch chost st₁ st₂) :
    Grows env arch chost st st₂ := by
  obtain ⟨l, hfinished, hrepo, hl⟩ := h.builds
  obtain ⟨l', hfinished', hrepo', hl'⟩ := h'.builds
  obtain ⟨e, he, hprovided⟩ := h.extracts
  obtain ⟨e', he', hprovided'⟩ := h'.extracts
  refine ⟨h'.depmap.trans h.depmap, ⟨l ++ l', ?_, ?_, ?_⟩, e ++ e', ?_, ?_⟩
  · rw [hfinished', hfinished, List.append_assoc]
  · rw [hrepo', hrepo, Env.publishAll_append]
  · exact hl.append hsound hrepo h.depmap hl'
  · rw [he', he, List.append_assoc]
  · intro x hx
    rcases List.mem_append.mp hx with hx | hx
    · exact hprovided x hx
    · exact hprovided' x hx

theorem Grows.built (hsound : env.Sound) {arch : Arch} {chost : Bool} {st st' : State}
    (h : Grows env arch chost st st') {arch' : Arch} {fulln : FullName}
    (hbuilt : env.Built st.repo arch' fulln) : env.Built st'.repo arch' fulln := by
  obtain ⟨l, _, hrepo, hl⟩ := h.builds
  rw [hrepo]
  exact hbuilt.publishAll hsound hl.ofModule

/-! ## The recursion -/

variable {rec : Call → State → Fueled Error State}

/-- The template of a nested build, which is not built yet. -/
structure Call.Fresh (env : Env) (c : Call) (st : State) : Prop where
  step : c.step = .target .pkg
  ofModule : env.OfModule (c.arch, c.tmpl)
  fresh : env.apk.newest st.repo c.arch c.tmpl.fullPkgname ≠ some c.tmpl.fullPkgver

theorem newTemplate_none {repo : Repo} {arch : Arch} {fulln : FullName}
    (h : newTemplate env repo arch fulln = .ok none) : env.Built repo arch fulln := by
  unfold newTemplate at h
  split at h
  · dsimp only at h
    split at h
    · rename_i ver hmod
      split at h
      · rename_i hbuilt
        exact ⟨ver, hmod, by simpa [ApkCli.isBuilt] using hbuilt⟩
      · split at h <;> cases h
    · cases h
  · cases h

theorem newTemplate_fresh {st : State} {arch : Arch} {fulln : FullName} {t : Template}
    (h : newTemplate env st.repo arch fulln = .ok (some t)) (chost : Bool) (origin : Str) :
    Call.Fresh env ⟨.target .pkg, arch, chost, origin, t⟩ st := by
  obtain ⟨_, _, hmod, _, hbuilt⟩ := newTemplate_some h
  exact ⟨rfl, hmod, by simpa [ApkCli.isBuilt] using hbuilt⟩

theorem buildMissing_grows (hsound : env.Sound)
    (hrec : ∀ c st st', Call.Fresh env c st → (rec c st).Returns st' →
      Grows env c.arch c.chost st st' ∧
        env.apk.newest st'.repo c.arch c.tmpl.fullPkgname = some c.tmpl.fullPkgver)
    {arch : Arch} {chost : Bool} {origin : Str} {missing : List FullName} {st st' : State}
    (h : (buildMissing env rec arch chost origin missing st).Returns st') :
    Grows env arch chost st st' ∧ ∀ fulln ∈ missing, env.Built st'.repo arch fulln := by
  induction missing generalizing st with
  | nil =>
      rw [buildMissing, Fueled.pure_returns] at h
      subst h
      exact ⟨.refl arch chost st, fun _ h => absurd h List.not_mem_nil⟩
  | cons fulln missing ih =>
      rcases buildMissing_cons_returns.mp h with ⟨hnone, hrest⟩ | ⟨t, st₁, ht, hst₁, hrest⟩
      · obtain ⟨hgrows, hbuilt⟩ := ih hrest
        refine ⟨hgrows, fun f hf => ?_⟩
        rcases List.mem_cons.mp hf with rfl | hf
        · exact hgrows.built hsound (newTemplate_none hnone)
        · exact hbuilt f hf
      · obtain ⟨hgrows₁, hnewest⟩ := hrec _ _ _ (newTemplate_fresh ht chost origin) hst₁
        obtain ⟨hgrows, hbuilt⟩ := ih hrest
        refine ⟨hgrows₁.trans hsound hgrows, fun f hf => ?_⟩
        rcases List.mem_cons.mp hf with rfl | hf
        · obtain ⟨_, hfull, hmod, _⟩ := newTemplate_some ht
          refine hgrows.built hsound ⟨t.fullPkgver, ?_, ?_⟩
          · rw [← hfull]
            exact hmod
          · rw [← hfull]
            exact hnewest
        · exact hbuilt f hf

theorem exactly_eq (pkgn ver : Str) : pkgn ++ ['='] ++ ver = exactly pkgn ver := by
  simp [exactly]

/-- What is planned for a name and installed is provided. -/
theorem NamePlanned.provided {x : Extract} {arch : Arch} {pkgn : Str} {binpkgs : List Str}
    {missing : List FullName}
    (h : NamePlanned env x.checked x.arch arch x.tmpl x.tcache binpkgs missing pkgn)
    (hinst : ∀ dep ∈ binpkgs, env.lay.Provides x.repo arch (env.repos x.tmpl) dep) :
    ProvidedName env x arch pkgn := by
  obtain ⟨found, hfound, ver, hmem, hver⟩ := h
  refine ⟨ver, hinst _ hmem, fun sver full hres => ?_⟩
  have heq : found = some (some sver, full) := hfound.unique hres
  rcases hver with havail | ⟨full', _, _, hfull'⟩
  · rw [heq] at havail
    have hmatch := (isAvailable_some havail).1
    rw [exactly_eq] at hmatch
    exact Or.inr hmatch
  · rw [heq] at hfull'
    cases hfull'
    exact Or.inl rfl

theorem RuntimePlanned.provided {x : Extract} {dep : Str} {fulln : Option FullName}
    (h : RuntimePlanned env x.checked x.arch x.tmpl x.tcache dep fulln)
    (hbuilt : ∀ full, fulln = some full → env.Built x.repo x.arch full) :
    ProvidedRuntime env x dep := by
  obtain ⟨pkgn, pkgv, pkgop, hsplit, hchecked⟩ := h
  refine ⟨pkgn, pkgv, pkgop, hsplit, ?_⟩
  cases hchecked with
  | own hown => exact Or.inl hown
  | found aver havail => exact Or.inr (Or.inl (isAvailable_some havail).2)
  | missing full _ hmissing =>
      obtain ⟨rdv, hres, hmatch⟩ := hmissing.found
      exact Or.inr (Or.inr ⟨rdv, full, hres, hmatch, hbuilt full rfl⟩)

theorem installFromRepo_provides (hsound : env.Sound) {repo : Repo} {arch : Arch}
    {t : Template} {plan : Plan} (h : installFromRepo env repo arch t plan = .ok ()) :
    (∀ dep ∈ plan.hostBinpkgs, env.lay.Provides repo env.src.hostCpu (env.repos t) dep) ∧
      ∀ dep ∈ plan.binpkgs, env.lay.Provides repo arch (env.repos t) dep := by
  unfold installFromRepo at h
  dsimp only at h
  generalize hlist : (plan.hostBinpkgs ++ if env.src.cross arch then [] else plan.binpkgs) = host
    at h
  split at h
  · cases h
  · rename_i hhost
    have hprovides := hsound.installs repo env.src.hostCpu (env.repos t) host (by simpa using hhost)
    rw [← hlist] at hprovides
    refine ⟨fun dep hdep => hprovides dep (List.mem_append_left _ hdep), fun dep hdep => ?_⟩
    cases hcross : env.src.cross arch with
    | false =>
        rw [Env.hostCpu_of_cross_eq_false hcross]
        refine hprovides dep (List.mem_append_right _ ?_)
        rw [hcross]
        exact hdep
    | true =>
        have hne : plan.binpkgs ≠ [] := List.ne_nil_of_mem hdep
        split at h
        · cases h
        · rename_i htarget
          refine hsound.installs _ _ _ _ ?_ dep hdep
          simpa [hcross, hne] using htarget

/-- When nested builds grow the state, so does `install`, and the dependencies are provided. -/
theorem install_grows (hsound : env.Sound)
    (hrec : ∀ c st st', Call.Fresh env c st → (rec c st).Returns st' →
      Grows env c.arch c.chost st st' ∧
        env.apk.newest st'.repo c.arch c.tmpl.fullPkgname = some c.tmpl.fullPkgver)
    {c : Call} {st st' : State} (h : (install env rec c st).Returns st') :
    Grows env c.arch c.chost st st' ∧
      Provided env ⟨c.arch, c.tmpl, st.repo, st.tcache, st'.repo⟩ := by
  obtain ⟨plan, tcache, st₁, hplan, hhost, htarget, hinst⟩ := install_returns.mp h
  have hplanned := checkDepends_planned hplan
  obtain ⟨hgrows₁, _⟩ := buildMissing_grows hsound hrec hhost
  obtain ⟨hgrows₂, hbuilt⟩ := buildMissing_grows hsound hrec htarget
  have hgrows : Grows env c.arch c.chost { st with tcache } st' :=
    (hgrows₁.mono (.host c.arch c.chost)).trans hsound hgrows₂
  obtain ⟨hhostp, htargetp⟩ := installFromRepo_provides hsound hinst
  constructor
  · obtain ⟨l, hfinished, hrepo, hl⟩ := hgrows.builds
    exact ⟨hgrows.depmap, ⟨l, hfinished, hrepo, hl.distinct, hl.ofModule, hl.fresh, hl.outside⟩,
      hgrows.extracts⟩
  · refine ⟨fun pkgn hpkgn => ?_, fun pkgn hpkgn => ?_, fun rdeps hrdeps d hd => ?_⟩
    · exact (hplanned.host pkgn hpkgn).provided hhostp
    · exact (hplanned.make pkgn hpkgn).provided htargetp
    · obtain ⟨fulln, hruntime, hmem⟩ := hplanned.runtime rdeps hrdeps d hd
      exact hruntime.provided fun full hfull => hbuilt full (hmem full hfull)

/-- A build is not repeated inside itself: its key is in `depmap` all the time. -/
theorem Builds.self_notMem {c : Call} {st : State} {l : List (Arch × Template)}
    (h : Builds env c.arch c.chost (st.enter c) l) :
    buildKey (c.arch, c.tmpl) ∉ l.map buildKey := by
  intro hmem
  obtain ⟨x, hx, hkey⟩ := List.mem_map.mp hmem
  have harch : x.1 = c.arch := (Prod.mk.inj hkey).1
  have hfull : x.2.fullPkgname = c.tmpl.fullPkgname := (Prod.mk.inj hkey).2
  obtain ⟨chost', hnested, hdepn⟩ := h.outside x hx
  rcases hnested with ⟨_, hchost⟩ | ⟨hhost, hcross, _⟩
  · refine hdepn ?_
    rw [hchost, Template.pkgname, hfull]
    exact List.mem_cons_self ..
  · rw [← harch, hhost, Env.cross_hostCpu] at hcross
    contradiction

theorem Builds.enter {arch : Arch} {chost : Bool} {c : Call} {st : State}
    {l : List (Arch × Template)} (h : Builds env arch chost (st.enter c) l) :
    Builds env arch chost st l := by
  refine ⟨h.distinct, h.ofModule, h.fresh, fun x hx => ?_⟩
  obtain ⟨chost', hnested, hdepn⟩ := h.outside x hx
  exact ⟨chost', hnested, fun hmem => hdepn (List.mem_cons_of_mem _ hmem)⟩

theorem Builds.distinct_concat {c : Call} {st : State} {l : List (Arch × Template)}
    (h : Builds env c.arch c.chost (st.enter c) l) :
    ((l ++ [(c.arch, c.tmpl)]).map buildKey).Nodup := by
  rw [List.map_append, List.map_singleton]
  refine List.nodup_append.mpr ⟨h.distinct, List.nodup_singleton _, ?_⟩
  intro k hk k' hk' heq
  rw [heq, List.mem_singleton.mp hk'] at hk
  exact h.self_notMem hk

/-- The build itself comes last. -/
theorem Builds.concat {c : Call} {st : State} {l : List (Arch × Template)}
    (hfresh : Call.Fresh env c st) (hdepn : c.depn ∉ st.depmap)
    (h : Builds env c.arch c.chost (st.enter c) l) :
    Builds env c.arch c.chost st (l ++ [(c.arch, c.tmpl)]) := by
  refine ⟨h.distinct_concat, ?_, ?_, ?_⟩
  · intro x hx
    rcases List.mem_append.mp hx with hx | hx
    · exact h.ofModule x hx
    · rw [List.mem_singleton.mp hx]
      exact hfresh.ofModule
  · intro x hx
    rcases List.mem_append.mp hx with hx | hx
    · exact h.fresh x hx
    · rw [List.mem_singleton.mp hx]
      exact hfresh.fresh
  · intro x hx
    rcases List.mem_append.mp hx with hx | hx
    · exact h.enter.outside x hx
    · rw [List.mem_singleton.mp hx]
      exact ⟨c.chost, .refl _ _, hdepn⟩

theorem build_grows (hsound : env.Sound) (fuel : Nat) {c : Call} {st st' : State}
    (hfresh : Call.Fresh env c st) (h : (build env fuel c st).Returns st') :
    Grows env c.arch c.chost st st' ∧
      env.apk.newest st'.repo c.arch c.tmpl.fullPkgname = some c.tmpl.fullPkgver := by
  have hdepmap := build_pkg_depmap fuel hfresh.step h
  induction fuel generalizing c st st' with
  | zero => exact absurd h (by simp [build, Fueled.outOfFuel, Fueled.Returns])
  | succ fuel ih =>
      have hrec : ∀ c st st', Call.Fresh env c st → (build env fuel c st).Returns st' →
          Grows env c.arch c.chost st st' ∧
            env.apk.newest st'.repo c.arch c.tmpl.fullPkgname = some c.tmpl.fullPkgver :=
        fun c st st' hfresh h => ih hfresh h (build_pkg_depmap fuel hfresh.step h)
      obtain ⟨hdepn, h⟩ := buildWith_returns h
      rcases h with ⟨hstep, _⟩ | ⟨st₁, hinst, hdone⟩
      · exact absurd hfresh.step hstep
      obtain ⟨hgrows, hprovided⟩ := install_grows hsound hrec hinst
      obtain ⟨l, hfinished, hrepo, hl⟩ := hgrows.builds
      obtain ⟨e, he, hall⟩ := hgrows.extracts
      cases hdone with
      | stopped hstep => exact absurd hfresh.step hstep
      | extracted hstep => exact absurd hfresh.step hstep
      | finished =>
          refine ⟨⟨hdepmap, ⟨l ++ [(c.arch, c.tmpl)], ?_, ?_, hl.concat hfresh hdepn⟩,
            e ++ [⟨c.arch, c.tmpl, st.repo, st.tcache, st₁.repo⟩], ?_, ?_⟩, ?_⟩
          · change st₁.finished ++ [(c.arch, c.tmpl)] = st.finished ++ (l ++ [(c.arch, c.tmpl)])
            rw [hfinished, List.append_assoc]
            rfl
          · rw [Env.publishAll_append]
            change env.lay.publish env.outputs st₁.repo c.arch c.tmpl = _
            rw [hrepo]
            rfl
          · change st₁.extracts ++ _ = _
            rw [he, List.append_assoc]
            rfl
          · intro x hx
            rcases List.mem_append.mp hx with hx | hx
            · exact hall x hx
            · rw [List.mem_singleton.mp hx]
              exact hprovided
          · exact hsound.newest_publish ..

/-- What a build that returns has done, whatever it was asked for. -/
structure Effects (env : Env) (c : Call) (st st' : State) : Prop where
  /-- `depmap` is as it was; only a build that was to stop at a phase leaves its own key. -/
  depmap : st'.depmap = st.depmap ∨
    (c.step ≠ .target .pkg ∧ st'.depmap = c.depn :: st.depmap)
  /-- Every extract phase found its dependencies. -/
  extracts : ∃ e, st'.extracts = st.extracts ++ e ∧ ∀ x ∈ e, Provided env x
  /-- No template was built twice for an architecture. -/
  finished : ∃ l, st'.finished = st.finished ++ l ∧ (l.map buildKey).Nodup

theorem build_effects (hsound : env.Sound) (fuel : Nat) {c : Call} {st st' : State}
    (h : (build env fuel c st).Returns st') : Effects env c st st' := by
  cases fuel with
  | zero => exact absurd h (by simp [build, Fueled.outOfFuel, Fueled.Returns])
  | succ fuel =>
      have hdepmap := buildWith_depmap (fun _ _ _ hstep h => build_pkg_depmap fuel hstep h) h
      obtain ⟨_, h⟩ := buildWith_returns h
      rcases h with ⟨_, rfl⟩ | ⟨st₁, hinst, hdone⟩
      · exact ⟨hdepmap, ⟨[], (List.append_nil _).symm, fun _ h => absurd h List.not_mem_nil⟩,
          [], (List.append_nil _).symm, List.nodup_nil⟩
      obtain ⟨hgrows, hprovided⟩ :=
        install_grows hsound (fun c st st' hfresh h => build_grows hsound fuel hfresh h) hinst
      obtain ⟨l, hfinished, _, hl⟩ := hgrows.builds
      obtain ⟨e, he, hall⟩ := hgrows.extracts
      have hall' : ∀ x ∈ e ++ [⟨c.arch, c.tmpl, st.repo, st.tcache, st₁.repo⟩],
          Provided env x := by
        intro x hx
        rcases List.mem_append.mp hx with hx | hx
        · exact hall x hx
        · rw [List.mem_singleton.mp hx]
          exact hprovided
      have he' : (st₁.extract c (st.enter c)).extracts =
          st.extracts ++ (e ++ [⟨c.arch, c.tmpl, st.repo, st.tcache, st₁.repo⟩]) := by
        change st₁.extracts ++ _ = _
        rw [he, List.append_assoc]
        rfl
      cases hdone with
      | stopped _ => exact ⟨hdepmap, ⟨e, he, hall⟩, l, hfinished, hl.distinct⟩
      | extracted _ => exact ⟨hdepmap, ⟨_, he', hall'⟩, l, hfinished, hl.distinct⟩
      | finished =>
          refine ⟨hdepmap, ⟨_, he', hall'⟩, l ++ [(c.arch, c.tmpl)], ?_, hl.distinct_concat⟩
          change st₁.finished ++ [(c.arch, c.tmpl)] = _
          rw [hfinished, List.append_assoc]
          rfl

end Cbuild.Build
