import Cbuild.Build.Cycle

/-! # `build.build` and `dependencies.install`

The results about the mutual recursion, put together, and the runs that show
where it falls short of more.
-/

namespace Cbuild.Build

open Apk Lib

/-- On a finite tree of templates every build ends: it returns with the effects described, or it
raises; and a build of a cycle raises. -/
theorem build_recursion {env : Env} (hsound : env.Sound) {files : Finset FullName}
    (hfiles : ∀ f, env.src.isFile f = true → f ∈ files) {fuel : Nat}
    (hfuel : 2 * files.card + 2 ≤ fuel) (c : Call) (st : State) :
    ((∃ st', (build env fuel c st).Returns st' ∧ Effects env c st st') ∨
      ∃ e, (build env fuel c st).Raises e) ∧
    ∀ S : Arch → Template → Prop, Waiting env S st → c.step = .target .pkg →
      S c.arch c.tmpl → ∃ e, (build env fuel c st).Raises e := by
  have hends := Fueled.ends_of_not_stops (build_terminates hfiles hfuel c st)
  constructor
  · rcases hends with ⟨st', h⟩ | hraises
    · exact Or.inl ⟨st', h, build_effects hsound fuel h⟩
    · exact Or.inr hraises
  · intro S hst hstep hS
    rcases hends with ⟨st', h⟩ | hraises
    · exact absurd h (build_cyclic_not_returns hsound fuel hstep hst hS)
    · exact hraises

/-! ## Three templates -/

namespace ThreeTemplates

/-- What an index keeps one package of. -/
def packageKey (p : Package) : Arch × FullName := (p.arch, ⟨p.index, p.name⟩)

/-- The packages that `is_built` looks at: those of the template's name in its repository. -/
def ownPackages (repo : Repo) (arch : Arch) (full : FullName) : List Package :=
  repo.filter fun p => packageKey p = (arch, full)

/-- An apk for which a package is built when the index of its repository has it, and that
installs what some package meets. -/
def apk : ApkCli where
  newest repo arch full := ((ownPackages repo arch full).map Package.version).head?
  installs repo arch repos deps :=
    deps.all fun dep => repo.any fun p =>
      p.arch = arch && repos.contains p.index && pkgMatch p.name p.version dep == some true

def main : Str := "main".toList

/-- `main/a` needs `b` to build, and `b-doc`, which nothing makes, at run time. -/
def fieldsA : Fields :=
  ⟨[], [['b']], [], [['b', '-', 'd', 'o', 'c']], [], false, false, false, []⟩

/-- `main/b` needs `c` to build. -/
def fieldsB : Fields := ⟨[], [['c']], [], [], [], false, false, false, []⟩

/-- `main/c` needs `a` at run time. -/
def fieldsC : Fields := ⟨[], [], [], [['a']], [], false, false, false, []⟩

def fields (pkgname : Str) : Fields :=
  if pkgname = ['a'] then fieldsA else if pkgname = ['b'] then fieldsB else fieldsC

def src : Source where
  isFile f := [⟨main, ['a']⟩, ⟨main, ['b']⟩, ⟨main, ['c']⟩].contains f
  resolve f := f
  sourceRepositories r := [r]
  module _ _ := some ⟨some "1-r0".toList, true⟩
  fields _ f := some (fields f.pkgname)
  hostCpu := ['x']
  isdigit := Char.isDigit
  isdigit_op := isDigit_op

/-- Each template makes one package, and no phase raises. -/
def env : Env where
  src := src
  lay := ⟨id, id⟩
  apk := apk
  outputs _ t := [(t.pkgname, [])]
  runs _ _ _ := true

def tmplA : Template := ⟨fieldsA, ⟨main, ['a']⟩, "1-r0".toList⟩

def start (repo : Repo) : State := ⟨[], [], repo, [], []⟩

def callA (step : Step) : Call := ⟨step, ['x'], false, ['a'], tmplA⟩

theorem publish_eq (repo : Repo) (arch : Arch) (t : Template) :
    env.lay.publish env.outputs repo arch t =
      (repo.filter fun p => packageKey p ≠ (arch, t.fullPkgname)) ++
        [⟨t.fullPkgname.repository, arch, t.pkgname, t.fullPkgver, []⟩] := by
  have hnew : env.lay.built env.outputs arch t =
      [⟨t.fullPkgname.repository, arch, t.pkgname, t.fullPkgver, []⟩] := rfl
  unfold Layout.publish
  rw [hnew]
  dsimp only
  congr 1
  refine List.filter_congr fun p _ => ?_
  rw [List.any_cons, List.any_nil, Bool.or_false, Bool.eq_iff_iff, Template.pkgname]
  generalize t.fullPkgname = full
  obtain ⟨repository, pkgname⟩ := full
  simp only [Bool.not_eq_true', decide_eq_true_eq, packageKey, ne_eq, Prod.mk.injEq,
    FullName.mk.injEq]
  grind

theorem ownPackages_publish (repo : Repo) (arch arch' : Arch) (t : Template) (full : FullName) :
    ownPackages (env.lay.publish env.outputs repo arch t) arch' full =
      if (arch', full) = (arch, t.fullPkgname) then
        [⟨full.repository, arch, full.pkgname, t.fullPkgver, []⟩]
      else ownPackages repo arch' full := by
  unfold ownPackages
  rw [publish_eq, List.filter_append, List.filter_filter]
  by_cases hkey : (arch', full) = (arch, t.fullPkgname)
  · rw [if_pos hkey, hkey]
    obtain ⟨rfl, rfl⟩ := Prod.mk.inj hkey
    simp [packageKey]
  · rw [if_neg hkey]
    have hold : ∀ p : Package, (packageKey p = (arch', full) && packageKey p ≠ (arch, t.fullPkgname))
        = decide (packageKey p = (arch', full)) := by
      intro p
      by_cases hp : packageKey p = (arch', full)
      · simp [hp, hkey]
      · simp [hp]
    simp only [hold]
    have hnew : packageKey ⟨t.fullPkgname.repository, arch, t.pkgname, t.fullPkgver, []⟩ ≠
        (arch', full) := Ne.symm hkey
    simp [hnew]

theorem env_sound : env.Sound := by
  refine ⟨fun repo arch t => ?_, fun repo arch t arch' full hne => ?_, ?_⟩
  · change ((ownPackages _ arch t.fullPkgname).map _).head? = _
    rw [ownPackages_publish, if_pos rfl]
    rfl
  · change ((ownPackages _ arch' full).map _).head? = _
    rw [ownPackages_publish, if_neg hne]
    rfl
  · intro repo arch repos deps h dep hdep
    have hany := List.all_eq_true.mp h dep hdep
    obtain ⟨p, hp, hmeets⟩ := List.any_eq_true.mp hany
    simp only [Bool.and_eq_true, decide_eq_true_eq, beq_iff_eq] at hmeets
    refine ⟨p, List.mem_filter.mpr ⟨hp, ?_⟩, Or.inl hmeets.2⟩
    simpa [env] using hmeets.1

def tmplB : Template := ⟨fieldsB, ⟨main, ['b']⟩, "1-r0".toList⟩

def tmplC : Template := ⟨fieldsC, ⟨main, ['c']⟩, "1-r0".toList⟩

/-- The builds of the three templates. -/
def cycle (arch : Arch) (t : Template) : Prop :=
  arch = ['x'] ∧ (t = tmplA ∨ t = tmplB ∨ t = tmplC)

theorem isFile_iff {f : FullName} : src.isFile f = true ↔
    f ∈ ({⟨main, ['a']⟩, ⟨main, ['b']⟩, ⟨main, ['c']⟩} : Finset FullName) := by
  simp [src]

/-- Whoever looks a name up finds the template of that name, if anything. -/
theorem names_everywhere {arch : Arch} {repos : List Str} {pkgn ver : Str} {full : FullName}
    (halt : altname pkgn = none)
    (h : Resolves src arch repos [] pkgn (some (some ver, full))) :
    ver = "1-r0".toList ∧ full = ⟨main, pkgn⟩ := by
  obtain ⟨tcache', h⟩ := h
  unfold srcpkgVer Source.srcpkgPath at h
  rw [List.lookup_nil] at h
  cases hfind : src.findTemplate repos pkgn with
  | none =>
      rw [hfind, halt] at h
      cases h
  | some path =>
      rw [hfind] at h
      cases h
      refine ⟨rfl, ?_⟩
      have hfile := isFile_iff.mp (List.find?_some hfind)
      obtain ⟨r, _, hr⟩ := List.mem_map.mp (List.mem_of_find?_eq_some hfind)
      subst hr
      simp only [Finset.mem_insert, Finset.mem_singleton, FullName.mk.injEq] at hfile
      have hmain : r = main := by
        rcases hfile with h | h | h <;> exact h.1
      rw [hmain]
      rfl

/-- Each template makes the package of its own name. -/
theorem sole {pkgn : Str} {arch : Arch} {w : Template} {fulln : FullName}
    (hw : Reads env arch fulln w) (h : pkgn ∈ (env.outputs arch w).map Prod.fst) :
    w.fullPkgname = ⟨main, pkgn⟩ := by
  have hname : pkgn = w.pkgname := List.mem_singleton.mp h
  have hfile := isFile_iff.mp hw.isFile
  have hfull : w.fullPkgname = fulln := hw.fullPkgname
  rw [← hfull] at hfile
  rw [hname, Template.pkgname]
  generalize w.fullPkgname = full at hfile ⊢
  simp only [Finset.mem_insert, Finset.mem_singleton] at hfile
  rcases hfile with rfl | rfl | rfl <;> rfl

theorem absent {t u : Template} {pkgn dep : Str} (hu : u.fullPkgname = ⟨main, pkgn⟩) :
    Absent env [] t ['x'] pkgn dep u := by
  constructor
  · intro ver hver
    cases hver
  · intro w fulln hw h
    exact (sole hw h).trans hu.symm

theorem reads (pkgn : Str) (hfile : src.isFile ⟨main, pkgn⟩ = true) :
    Reads env ['x'] ⟨main, pkgn⟩ ⟨fields pkgn, ⟨main, pkgn⟩, "1-r0".toList⟩ :=
  ⟨hfile, rfl, rfl, rfl⟩

theorem names (pkgn : Str) (halt : altname pkgn = none)
    (hhere : Resolves src ['x'] [main] [] pkgn (some (some "1-r0".toList, ⟨main, pkgn⟩))) :
    Names src ['x'] [main] pkgn "1-r0".toList ⟨main, pkgn⟩ :=
  ⟨hhere, fun _ _ _ _ h => names_everywhere halt h⟩

theorem needsB : Needs env [] ['x'] tmplA ['x'] tmplB :=
  .make (List.mem_singleton_self ['b']) (names ['b'] (by decide) ⟨_, rfl⟩)
    (reads ['b'] (by decide)) (absent rfl)

theorem needsC : Needs env [] ['x'] tmplB ['x'] tmplC :=
  .make (List.mem_singleton_self ['c']) (names ['c'] (by decide) ⟨_, rfl⟩)
    (reads ['c'] (by decide)) (absent rfl)

theorem needsA : Needs env [] ['x'] tmplC ['x'] tmplA := by
  have hown : ¬ tmplC.Owns ['a'] := by
    intro h
    rcases h with h | ⟨_, hsp, _⟩
    · exact absurd h (by decide)
    · cases hsp
  have hsplit : splitPkgName Char.isDigit ['a', '>', '=', '0'] =
      some (['a'], ['0'], ['>', '=']) := by decide
  exact .runtime rfl (List.mem_singleton_self (['c'], ['a', '>', '=', '0'])) hsplit hown
    (names ['a'] (by decide) ⟨_, rfl⟩) (reads ['a'] (by decide)) (absent rfl)

/-- With nothing in the repository the three builds wait for each other. -/
theorem waiting : Waiting env cycle (start []) := by
  constructor
  · intro arch t ht
    obtain ⟨rfl, rfl | rfl | rfl⟩ := ht
    · exact ⟨⟨_, reads ['a'] (by decide)⟩, (fun h => nomatch h), _, _, needsB, rfl, .inr (.inl rfl)⟩
    · exact ⟨⟨_, reads ['b'] (by decide)⟩, (fun h => nomatch h), _, _, needsC, rfl, .inr (.inr rfl)⟩
    · exact ⟨⟨_, reads ['c'] (by decide)⟩, (fun h => nomatch h), _, _, needsA, rfl, .inl rfl⟩
  · exact TCache.sound_nil _

end ThreeTemplates

open ThreeTemplates

/-- With nothing in the repository the cycle of the three templates is an error. -/
theorem build_recursion_cycle :
    ∃ e, (build env 8 (callA (.target .pkg)) (start [])).Raises e := by
  have hfuel : 2 * ({⟨main, ['a']⟩, ⟨main, ['b']⟩, ⟨main, ['c']⟩} : Finset FullName).card + 2 ≤ 8 := by
    decide
  have hrec := build_recursion env_sound (fun _ => isFile_iff.mp) hfuel
    (callA (.target .pkg)) (start [])
  exact hrec.2 cycle waiting rfl ⟨rfl, .inl rfl⟩

namespace ThreeTemplates

/-- An older version of `a` is in the repository. -/
def oldA : Repo := [⟨main, ['x'], ['a'], "0-r0".toList, []⟩]

end ThreeTemplates

open ThreeTemplates

/-- A cycle can be built when an older package meets one of its dependencies: the build of `a`
returns, though none of the three templates is built at first. When its extract phase starts
there is no `b-doc`. A build that stops after `fetch` leaves its key in `depmap`. -/
theorem oldA_cycle_returns :
    env.Sound ∧
    (∀ pkgn ∈ [['a'], ['b'], ['c']],
      env.apk.isBuilt oldA ['x'] ⟨main, pkgn⟩ "1-r0".toList = false) ∧
    (∃ st', (build env 4 (callA (.target .fetch)) (start oldA)).Returns st' ∧
      st'.depmap = [['a']]) ∧
    ∃ st', (build env 4 (callA (.target .pkg)) (start oldA)).Returns st' ∧
      ∃ x ∈ st'.extracts, x.tmpl.pkgname = ['a'] ∧
        env.versions x.repo x.arch x.tmpl ['b', '-', 'd', 'o', 'c'] = [] := by
  refine ⟨env_sound, by decide +kernel, ?_, ?_⟩
  · obtain ⟨st', h, hdepmap⟩ := Fueled.exists_returns
      (x := build env 4 (callA (.target .fetch)) (start oldA))
      (p := fun st => st.depmap = [['a']]) (by decide +kernel)
    exact ⟨st', h, of_decide_eq_true hdepmap⟩
  · obtain ⟨st', h, hall⟩ := Fueled.exists_returns
      (x := build env 4 (callA (.target .pkg)) (start oldA))
      (p := fun st => st.extracts.any fun x => x.tmpl.pkgname = ['a'] &&
        env.versions x.repo x.arch x.tmpl ['b', '-', 'd', 'o', 'c'] = []) (by decide +kernel)
    obtain ⟨x, hx, hnone⟩ := List.any_eq_true.mp hall
    rw [Bool.and_eq_true, decide_eq_true_eq, decide_eq_true_eq] at hnone
    exact ⟨st', h, x, hx, hnone⟩

end Cbuild.Build
