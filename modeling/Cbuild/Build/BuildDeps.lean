import Cbuild.Build.Planned
import Cbuild.Build.Recursion
import Mathlib

/-! # The graph behind the order of builds

`Template.get_build_deps` lists the templates that a template comes after in a
sorted run. It looks names up by rules of its own: the directory of the name in
the first source repository that has one, under the repository where it was
found. `install` resolves a name with `_srcpkg_ver`, and builds what is missing.
-/

namespace Cbuild.Build

open Apk Lib

/-- `_resolve_bdep`: the repository of the directory, and the name of what it links to. -/
def resolveBdep (src : Source) (repos : List Str) (depn : Str) : Option FullName :=
  (src.findTemplate repos depn).map fun path => ⟨path.repository, (src.resolve path).pkgname⟩

/-- The first loop of `get_build_deps`, over host and target dependencies. -/
def collectBuild (src : Source) (repos : List Str) :
    List Str → List Str × List FullName → List Str × List FullName
  | [], acc => acc
  | bd :: bds, (visited, bdeps) =>
      if visited.contains bd then collectBuild src repos bds (visited, bdeps)
      else
        collectBuild src repos bds (bd :: visited, (resolveBdep src repos bd).toList ++ bdeps)

/-- The second loop, over runtime dependencies: neighbours are passed over. -/
def collectRuntime (src : Source) (repos : List Str) (pkgname : Str) :
    List (Str × Str) → List Str × List FullName → List Str × List FullName
  | [], acc => acc
  | (orig, bd) :: bds, (visited, bdeps) =>
      if visited.contains bd then collectRuntime src repos pkgname bds (visited, bdeps)
      else
        let found := (resolveBdep src repos bd).filter fun f => bd = orig || f.pkgname ≠ pkgname
        collectRuntime src repos pkgname bds (bd :: visited, found.toList ++ bdeps)

/-- `{sr}/{pn}` -/
def FullName.str (f : FullName) : Str := f.repository ++ '/' :: f.pkgname

/-- `get_build_deps`; the keys of `bdeps` come sorted and without duplicates. -/
def getBuildDeps (src : Source) (arch : Arch) (t : Template) : Except Error (List FullName) := do
  let repos := src.sourceRepositories t.fullPkgname.repository
  let (hds, tds, rds) ← setupDependNames src arch t
  let build := collectBuild src repos (if src.cross arch then tds else hds ++ tds) ([], [])
  let (_, bdeps) := collectRuntime src repos t.pkgname rds build
  return bdeps.dedup.mergeSort fun f g => f.str ≤ g.str

/-! ## What is listed -/

/-- The directory of the name in the first repository that has one belongs to the template. -/
def OwnDirectory (src : Source) (repos : List Str) (pkgn : Str) (full : FullName) : Prop :=
  ∃ path, src.findTemplate repos pkgn = some path ∧ path.repository = full.repository ∧
    (src.resolve path).pkgname = full.pkgname

theorem resolveBdep_eq_some {src : Source} {repos : List Str} {pkgn : Str} {full : FullName} :
    resolveBdep src repos pkgn = some full ↔ OwnDirectory src repos pkgn full := by
  obtain ⟨repository, pkgname⟩ := full
  unfold resolveBdep OwnDirectory
  simp only [Option.map_eq_some_iff, FullName.mk.injEq]

theorem collectBuild_visited {src : Source} {repos : List Str} {bds visited : List Str}
    {bdeps : List FullName} {bd : Str} :
    bd ∈ (collectBuild src repos bds (visited, bdeps)).1 ↔ bd ∈ visited ∨ bd ∈ bds := by
  induction bds generalizing visited bdeps with
  | nil => simp [collectBuild]
  | cons d bds ih =>
      rw [collectBuild]
      split
      · rename_i hmem
        have hd : d ∈ visited := by simpa using hmem
        rw [ih, List.mem_cons]
        constructor
        · rintro (h | h)
          · exact Or.inl h
          · exact Or.inr (Or.inr h)
        · rintro (h | rfl | h)
          · exact Or.inl h
          · exact Or.inl hd
          · exact Or.inr h
      · rw [ih, List.mem_cons, List.mem_cons, or_assoc, or_left_comm]

theorem mem_collectBuild {src : Source} {repos : List Str} {bds visited : List Str}
    {bdeps : List FullName} {f : FullName} :
    f ∈ (collectBuild src repos bds (visited, bdeps)).2 ↔
      f ∈ bdeps ∨ ∃ bd ∈ bds, bd ∉ visited ∧ resolveBdep src repos bd = some f := by
  induction bds generalizing visited bdeps with
  | nil => simp [collectBuild]
  | cons d bds ih =>
      rw [collectBuild]
      split
      · rename_i hmem
        have hd : d ∈ visited := by simpa using hmem
        rw [ih]
        apply or_congr_right
        constructor
        · intro h
          obtain ⟨bd, hbd, h⟩ := h
          exact ⟨bd, List.mem_cons_of_mem d hbd, h⟩
        · intro h
          obtain ⟨bd, hbd, hnew, h⟩ := h
          rcases List.mem_cons.mp hbd with rfl | hbd
          · exact absurd hd hnew
          · exact ⟨bd, hbd, hnew, h⟩
      · rename_i hmem
        have hd : d ∉ visited := by simpa using hmem
        rw [ih, List.mem_append, Option.mem_toList]
        constructor
        · rintro ((h | h) | ⟨bd, hbd, hnew, h⟩)
          · exact Or.inr ⟨d, List.mem_cons_self .., hd, h⟩
          · exact Or.inl h
          · exact Or.inr ⟨bd, List.mem_cons_of_mem d hbd,
              fun hv => hnew (List.mem_cons_of_mem d hv), h⟩
        · rintro (h | ⟨bd, hbd, hnew, h⟩)
          · exact Or.inl (Or.inr h)
          · by_cases hbdd : bd = d
            · rw [hbdd] at h
              exact Or.inl (Or.inl h)
            · refine Or.inr ⟨bd, (List.mem_cons.mp hbd).resolve_left hbdd, ?_, h⟩
              rw [List.mem_cons, not_or]
              exact ⟨hbdd, hnew⟩

/-- When no package depends on itself, the neighbours are what is left out. -/
theorem mem_collectRuntime {src : Source} {repos : List Str} {pkgname : Str}
    {bds : List (Str × Str)} {visited : List Str} {bdeps : List FullName} {f : FullName}
    (hself : ∀ d ∈ bds, d.2 ≠ d.1) :
    f ∈ (collectRuntime src repos pkgname bds (visited, bdeps)).2 ↔
      f ∈ bdeps ∨ ∃ d ∈ bds, d.2 ∉ visited ∧ resolveBdep src repos d.2 = some f ∧
        f.pkgname ≠ pkgname := by
  induction bds generalizing visited bdeps with
  | nil => simp [collectRuntime]
  | cons d bds ih =>
      obtain ⟨orig, bd⟩ := d
      have hrest : ∀ d ∈ bds, d.2 ≠ d.1 := fun d hd => hself d (List.mem_cons_of_mem _ hd)
      have hne : bd ≠ orig := hself (orig, bd) (List.mem_cons_self ..)
      rw [collectRuntime]
      split
      · rename_i hmem
        have hbd : bd ∈ visited := by simpa using hmem
        rw [ih hrest]
        apply or_congr_right
        constructor
        · intro h
          obtain ⟨d, hd, h⟩ := h
          exact ⟨d, List.mem_cons_of_mem _ hd, h⟩
        · intro h
          obtain ⟨d, hd, hnew, h⟩ := h
          rcases List.mem_cons.mp hd with rfl | hd
          · exact absurd hbd hnew
          · exact ⟨d, hd, hnew, h⟩
      · rename_i hmem
        have hbd : bd ∉ visited := by simpa using hmem
        rw [ih hrest, List.mem_append, Option.mem_toList, Option.filter_eq_some_iff]
        simp only [hne, decide_false, Bool.false_or, decide_eq_true_eq]
        constructor
        · rintro ((h | h) | ⟨d, hd, hnew, h⟩)
          · exact Or.inr ⟨(orig, bd), List.mem_cons_self .., hbd, h⟩
          · exact Or.inl h
          · exact Or.inr ⟨d, List.mem_cons_of_mem _ hd,
              fun hv => hnew (List.mem_cons_of_mem bd hv), h⟩
        · rintro (h | ⟨d, hd, hnew, h⟩)
          · exact Or.inl (Or.inr h)
          · by_cases hbdd : d.2 = bd
            · rw [hbdd] at h
              exact Or.inl (Or.inl h)
            · have hd' : d ∈ bds := by
                rcases List.mem_cons.mp hd with rfl | hd
                · exact absurd rfl hbdd
                · exact hd
              refine Or.inr ⟨d, hd', ?_, h⟩
              rw [List.mem_cons, not_or]
              exact ⟨hbdd, hnew⟩

/-! ## The names of runtime dependencies -/

/-- The name of a runtime dependency, without its constraint. -/
def depName (dep : Str) : Str := dep.takeWhile fun c => !isOpChar c

theorem depName_of_split {isdigit : Char → Bool} {dep pkgn pkgv pkgop : Str}
    (h : splitPkgName isdigit dep = some (pkgn, pkgv, pkgop)) : pkgn = depName dep :=
  (splitPkgName_eq_some h).1

/-- With `only_names` the same dependencies come by their names. -/
theorem runtimeDepends_names {src : Source} {crdeps rdeps : List (Str × Str)}
    (h : runtimeDepends src.isdigit false crdeps = .ok rdeps)
    (hsplit : ∀ d ∈ rdeps, ∃ r, splitPkgName src.isdigit d.2 = some r) :
    runtimeDepends src.isdigit true crdeps = .ok (rdeps.map fun d => (d.1, depName d.2)) := by
  induction crdeps generalizing rdeps with
  | nil =>
      cases h
      rfl
  | cons d crdeps ih =>
      obtain ⟨orig, dep⟩ := d
      rw [runtimeDepends] at h ⊢
      split at h
      · rename_i hconflict
        rw [if_pos hconflict]
        exact ih h hsplit
      · rename_i hconflict
        rw [if_neg hconflict]
        obtain ⟨dep', hdep', h⟩ := except_bind_eq_ok.mp h
        obtain ⟨rest, hrest, h⟩ := except_bind_eq_ok.mp h
        apply except_bind_eq_ok.mpr
        refine ⟨dep', hdep', except_bind_eq_ok.mpr ?_⟩
        cases hs : splitPkgName src.isdigit dep' with
        | none =>
            rw [hs] at h
            cases h
            obtain ⟨⟨pkgn, pkgv, pkgop⟩, hr⟩ := hsplit _ (List.mem_cons_self ..)
            change splitPkgName src.isdigit (dep' ++ ['>', '=', '0']) = some _ at hr
            have hname : pkgn = dep' := splitPkgName_append src.isdigit_op hs hr
            have hdep : depName (dep' ++ ['>', '=', '0']) = dep' := by
              rw [← depName_of_split hr, hname]
            refine ⟨_, ih hrest fun d hd => hsplit d (List.mem_cons_of_mem _ hd), ?_⟩
            show Except.ok _ = Except.ok _
            rw [List.map_cons]
            dsimp only
            rw [if_neg Bool.false_ne_true, if_pos rfl, hdep]
        | some r =>
            obtain ⟨pn, pkgv, pkgop⟩ := r
            rw [hs] at h
            cases h
            refine ⟨_, ih hrest fun d hd => hsplit d (List.mem_cons_of_mem _ hd), ?_⟩
            show Except.ok _ = Except.ok _
            rw [List.map_cons, depName_of_split hs]
            rfl

/-! ## What is missing -/

variable {env : Env}

theorem checkRuntimeDeps_ne {repo : Repo} {arch : Arch} {t : Template} {origpkg : Str}
    {deps : List (Str × Str)} {tcache tcache' : TCache} {missing : List FullName}
    (h : checkRuntimeDeps env repo arch t origpkg deps tcache = .ok (missing, tcache')) :
    ∀ d ∈ deps, (∃ r, splitPkgName env.src.isdigit d.2 = some r) ∧ depName d.2 ≠ d.1 := by
  induction deps generalizing tcache missing with
  | nil => exact fun _ h => absurd h List.not_mem_nil
  | cons d deps ih =>
      obtain ⟨origin, dep⟩ := d
      rw [checkRuntimeDeps] at h
      obtain ⟨⟨fulln, tcache₁⟩, hd, h⟩ := except_bind_eq_ok.mp h
      obtain ⟨⟨missing', tcache₂⟩, hdeps, h⟩ := except_bind_eq_ok.mp h
      cases h
      intro d' hd'
      rcases List.mem_cons.mp hd' with rfl | hd'
      · unfold checkRuntimeDep at hd
        split at hd
        · cases hd
        · rename_i pkgn pkgv pkgop hsplit
          split at hd
          · cases hd
          · rename_i hne
            rw [depName_of_split hsplit] at hne
            exact ⟨⟨_, hsplit⟩, hne⟩
      · exact ih hdeps d' hd'

/-- The template of a dependency of a native build that is missing in the repositories. -/
inductive MissingTemplate (env : Env) (repo : Repo) (arch : Arch) (t : Template)
    (tcache : TCache) (full : FullName) : Prop
  | build {pkgn ver : Str} {found : Option (Option Str × FullName)}
      (hmem : pkgn ∈ t.hostdepends false ++ t.makedepends)
      (hres : Resolves env.src arch (env.repos t) tcache pkgn found)
      (h : NameMissing env repo arch t pkgn found ver full) :
      MissingTemplate env repo arch t tcache full
  | runtime {rdeps : List (Str × Str)} {d : Str × Str} {pkgn pkgv pkgop : Str}
      (hrdeps : runtimeDepends env.src.isdigit false t.crdeps = .ok rdeps) (hmem : d ∈ rdeps)
      (hsplit : splitPkgName env.src.isdigit d.2 = some (pkgn, pkgv, pkgop))
      (hown : ¬ t.Owns pkgn)
      (h : RuntimeMissing env repo arch t tcache pkgn pkgop pkgv full) :
      MissingTemplate env repo arch t tcache full

theorem NamePlanned.mem_missing {repo : Repo} {arch : Arch} {t : Template} {tcache : TCache}
    {binpkgs : List Str} {missing : List FullName} {pkgn ver : Str}
    {found : Option (Option Str × FullName)} {full : FullName}
    (h : NamePlanned env repo arch arch t tcache binpkgs missing pkgn)
    (hres : Resolves env.src arch (env.repos t) tcache pkgn found)
    (hmissing : NameMissing env repo arch t pkgn found ver full) : full ∈ missing := by
  obtain ⟨found', hfound', ver', _, hver⟩ := h
  cases hfound'.unique hres
  rcases hver with havail | ⟨full', hfull', _, hsome⟩
  · rw [hmissing.1] at havail
    cases havail
  · rw [hmissing.2] at hsome
    cases hsome
    exact hfull'

/-- The parts of a successful check of a native build. -/
theorem checkDepends_native {repo : Repo} {arch : Arch} {t : Template} {origpkg : Str}
    {tcache tcache' : TCache} {plan : Plan} (hnative : env.src.cross arch = false)
    (h : checkDepends env repo arch t origpkg tcache = .ok (plan, tcache')) :
    ∃ rdeps rmissing missing, runtimeDepends env.src.isdigit false t.crdeps = .ok rdeps ∧
      plan.missing = missing ++ rmissing ∧
      (∀ full ∈ plan.hostMissing ++ missing, ∃ pkgn ∈ t.hostdepends false ++ t.makedepends,
        ∃ found ver, Resolves env.src arch (env.repos t) tcache pkgn found ∧
          NameMissing env repo arch t pkgn found ver full) ∧
      ∃ tcache₁, checkRuntimeDeps env repo arch t origpkg rdeps tcache₁ = .ok (rmissing, tcache') ∧
        ∀ name r, Resolves env.src arch (env.repos t) tcache₁ name r →
          Resolves env.src arch (env.repos t) tcache name r := by
  have hhost : arch = env.src.hostCpu := Env.hostCpu_of_cross_eq_false hnative
  obtain ⟨rdeps, hds, tcache₁, tds, tcache₂, toolchain, tcache₃, missing, rmissing, hrdeps, hhds,
    htds, htool, hhostdeps, htarget, hruntime, hplan⟩ := checkDepends_eq_ok h
  unfold crossToolchain at htool
  rw [hnative] at hhds htool hhostdeps htarget
  cases htool
  rw [List.append_nil, ← hhost] at hhostdeps
  obtain ⟨_, _, hsame₂⟩ := lookupDepends_spec hhds
  obtain ⟨_, _, hsame₃⟩ := lookupDepends_spec htds
  refine ⟨rdeps, rmissing, missing, hrdeps, hplan, ?_, _, hruntime, ?_⟩
  · intro full hfull
    rcases List.mem_append.mp hfull with hfull | hfull
    · obtain ⟨pkgn, hpkgn, h⟩ := names_missing (fun _ _ hr => hr) hhds hhostdeps full hfull
      exact ⟨pkgn, List.mem_append_left _ hpkgn, h⟩
    · obtain ⟨pkgn, hpkgn, h⟩ :=
        names_missing (fun name r hr => (hsame₂ name r).mp hr) htds htarget full hfull
      exact ⟨pkgn, List.mem_append_right _ hpkgn, h⟩
  · intro name r hr
    exact (hsame₂ name r).mp ((hsame₃ name r).mp hr)

/-- A native build is to build exactly the templates of its missing dependencies. -/
theorem plan_missing_iff {repo : Repo} {arch : Arch} {t : Template} {origpkg : Str}
    {tcache tcache' : TCache} {plan : Plan} (hnative : env.src.cross arch = false)
    (h : checkDepends env repo arch t origpkg tcache = .ok (plan, tcache')) (full : FullName) :
    full ∈ plan.hostMissing ++ plan.missing ↔ MissingTemplate env repo arch t tcache full := by
  have hhost : arch = env.src.hostCpu := Env.hostCpu_of_cross_eq_false hnative
  obtain ⟨rdeps, rmissing, missing, hrdeps, hmissing, hbuild, tcache₁, hruntime, hsame⟩ :=
    checkDepends_native hnative h
  have hplanned := checkDepends_planned h
  constructor
  · intro hfull
    rw [hmissing, ← List.append_assoc] at hfull
    rcases List.mem_append.mp hfull with hfull | hfull
    · obtain ⟨pkgn, hpkgn, found, ver, hres, hname⟩ := hbuild full hfull
      exact .build hpkgn hres hname
    · obtain ⟨d, hd, pkgn, pkgv, pkgop, hsplit, hchecked⟩ :=
        (checkRuntimeDeps_spec hruntime).2 full hfull
      cases hchecked.of_resolves hsame with
      | missing _ hown hm => exact .runtime hrdeps hd hsplit hown hm
  · intro hfull
    cases hfull with
    | build hmem hres hname =>
        rcases List.mem_append.mp hmem with hmem | hmem
        · have hp := hplanned.host _ (by rw [hnative]; exact hmem)
          rw [← hhost] at hp
          exact List.mem_append_left _ (hp.mem_missing hres hname)
        · exact List.mem_append_right _ ((hplanned.make _ hmem).mem_missing hres hname)
    | @runtime rdeps' d pkgn pkgv pkgop hrdeps' hmem hsplit hown hm =>
        obtain ⟨fulln, ⟨pkgn', pkgv', pkgop', hsplit', hchecked⟩, hin⟩ :=
          hplanned.runtime rdeps' hrdeps' d hmem
        rw [hsplit] at hsplit'
        cases hsplit'
        cases hchecked with
        | own h => exact absurd h hown
        | found aver h =>
            rw [hm.absent] at h
            cases h
        | missing full' _ hm' =>
            obtain ⟨rdv, hres, _⟩ := hm.found
            obtain ⟨rdv', hres', _⟩ := hm'.found
            cases hres.unique hres'
            exact List.mem_append_right _ (hin full rfl)

/-! ## What is covered -/

/-- Some dependency of the template leads `get_build_deps` to another one: the directory of its
own name does, and for runtime dependencies it is not a namesake of the template itself. -/
def Leads (src : Source) (t : Template) (full : FullName) : Prop :=
  let repos := src.sourceRepositories t.fullPkgname.repository
  (∃ pkgn ∈ t.hostdepends false ++ t.makedepends, OwnDirectory src repos pkgn full) ∨
    ∃ rdeps, runtimeDepends src.isdigit false t.crdeps = .ok rdeps ∧
      ∃ d ∈ rdeps, OwnDirectory src repos (depName d.2) full ∧ full.pkgname ≠ t.pkgname

theorem mem_getBuildDeps {arch : Arch} {t : Template} (hnative : env.src.cross arch = false)
    {rdeps : List (Str × Str)}
    (hrdeps : runtimeDepends env.src.isdigit false t.crdeps = .ok rdeps)
    (hok : ∀ d ∈ rdeps, (∃ r, splitPkgName env.src.isdigit d.2 = some r) ∧ depName d.2 ≠ d.1) :
    ∃ l, getBuildDeps env.src arch t = .ok l ∧ ∀ full, full ∈ l ↔ Leads env.src t full := by
  have hnames := runtimeDepends_names hrdeps fun d hd => (hok d hd).1
  refine ⟨_, except_bind_eq_ok.mpr ⟨_, except_bind_eq_ok.mpr ⟨_, hnames, rfl⟩, rfl⟩, fun full => ?_⟩
  have hself : ∀ d ∈ rdeps.map (fun d => (d.1, depName d.2)), d.2 ≠ d.1 := by
    intro d hd
    obtain ⟨d', hd', rfl⟩ := List.mem_map.mp hd
    exact (hok d' hd').2
  rw [List.mem_mergeSort, List.mem_dedup, hnative, if_neg Bool.false_ne_true]
  generalize hrepos : env.src.sourceRepositories t.fullPkgname.repository = repos
  generalize hcollect : collectBuild env.src repos (t.hostdepends false ++ t.makedepends) ([], []) =
    acc
  obtain ⟨visited, bdeps⟩ := acc
  have hvisited : ∀ pkgn, pkgn ∈ visited ↔ pkgn ∈ t.hostdepends false ++ t.makedepends := by
    intro pkgn
    have h := @collectBuild_visited env.src repos (t.hostdepends false ++ t.makedepends) [] [] pkgn
    rw [hcollect] at h
    simpa using h
  have hbdeps : full ∈ bdeps ↔
      ∃ pkgn ∈ t.hostdepends false ++ t.makedepends, resolveBdep env.src repos pkgn = some full := by
    have h := @mem_collectBuild env.src repos (t.hostdepends false ++ t.makedepends) [] [] full
    rw [hcollect] at h
    simpa using h
  rw [mem_collectRuntime hself, hbdeps]
  unfold Leads
  rw [hrepos]
  simp only [← resolveBdep_eq_some]
  constructor
  · intro h
    rcases h with h | ⟨d, hd, _, hres, hne⟩
    · exact Or.inl h
    · obtain ⟨d', hd', rfl⟩ := List.mem_map.mp hd
      exact Or.inr ⟨rdeps, hrdeps, d', hd', hres, hne⟩
  · intro h
    rcases h with h | ⟨rdeps', hrdeps', d, hd, hres, hne⟩
    · exact Or.inl h
    · cases hrdeps.symm.trans hrdeps'
      by_cases hv : depName d.2 ∈ visited
      · exact Or.inl ⟨depName d.2, (hvisited _).mp hv, hres⟩
      · exact Or.inr ⟨(d.1, depName d.2), List.mem_map_of_mem hd, hv, hres, hne⟩

/-- `install` starts a build of `u`, because a dependency of `t` is missing. -/
def Triggers (env : Env) (repo : Repo) (arch : Arch) (t : Template) (origpkg : Str)
    (tcache : TCache) (u : Template) : Prop :=
  ∃ plan tcache' full, checkDepends env repo arch t origpkg tcache = .ok (plan, tcache') ∧
    full ∈ plan.hostMissing ++ plan.missing ∧ newTemplate env repo arch full = .ok (some u)

/-- Every other template that `install` builds for `t` is one that `t` comes after. -/
def Covered (env : Env) (repo : Repo) (arch : Arch) (t : Template) (origpkg : Str)
    (tcache : TCache) : Prop :=
  ∀ u, Triggers env repo arch t origpkg tcache u → u.fullPkgname ≠ t.fullPkgname →
    ∃ l, getBuildDeps env.src arch t = .ok l ∧ u.fullPkgname ∈ l

/-- The order covers the builds of a native template exactly when, unless `install` raises before
it builds anything, each missing dependency whose template is not built yet has this template in
the directory of some dependency. -/
theorem covered_iff {env : Env} {repo : Repo} {arch : Arch} {t : Template} {origpkg : Str}
    {tcache : TCache} (hnative : env.src.cross arch = false) :
    Covered env repo arch t origpkg tcache ↔
      ((∃ e, checkDepends env repo arch t origpkg tcache = .error e) ∨
        ∀ full u, MissingTemplate env repo arch t tcache full →
          newTemplate env repo arch full = .ok (some u) → u.fullPkgname ≠ t.fullPkgname →
          Leads env.src t u.fullPkgname) := by
  cases hplan : checkDepends env repo arch t origpkg tcache with
  | error e =>
      refine iff_of_true ?_ (Or.inl ⟨e, rfl⟩)
      intro u ⟨plan, tcache', full, h, _⟩
      rw [hplan] at h
      cases h
  | ok r =>
      obtain ⟨plan, tcache'⟩ := r
      obtain ⟨rdeps, rmissing, missing, hrdeps, _, _, tcache₁, hruntime, _⟩ :=
        checkDepends_native hnative hplan
      obtain ⟨l, hl, hmem⟩ := mem_getBuildDeps hnative hrdeps (checkRuntimeDeps_ne hruntime)
      constructor
      · intro hcovered
        refine Or.inr fun full u hmissing hu hne => ?_
        have hin := (plan_missing_iff hnative hplan full).mpr hmissing
        obtain ⟨l', hl', hin'⟩ := hcovered u ⟨plan, tcache', full, hplan, hin, hu⟩ hne
        cases hl.symm.trans hl'
        exact (hmem _).mp hin'
      · intro h u htriggers hne
        obtain ⟨plan', tcache'', full, hplan', hin, hu⟩ := htriggers
        cases hplan.symm.trans hplan'
        rcases h with ⟨e, he⟩ | h
        · cases he
        · have hmissing := (plan_missing_iff hnative hplan full).mp hin
          exact ⟨l, hl, (hmem _).mpr (h full u hmissing hu hne)⟩

namespace ThreeTemplates

def bStatic : Str := "b-static".toList

/-- `main/a` needs the static libraries of `b`, an automatic package, to build. -/
def staticA : Template := ⟨⟨[], [bStatic], [], [], [], false, false, false, []⟩, ⟨main, ['a']⟩,
  "1-r0".toList⟩

theorem missingB {full : FullName}
    (h : MissingTemplate ThreeTemplates.env [] ['x'] tmplB [] full) : full = ⟨main, ['c']⟩ := by
  cases h with
  | @build pkgn ver found hmem hres hname =>
      have hpkgn : pkgn = ['c'] := List.mem_singleton.mp hmem
      subst hpkgn
      have hc : Resolves src ['x'] [main] [] ['c'] (some (some "1-r0".toList, ⟨main, ['c']⟩)) :=
        ⟨_, rfl⟩
      have hfound : found = some (some "1-r0".toList, ⟨main, ['c']⟩) := hres.unique hc
      have hname2 := hname.2
      rw [hfound] at hname2
      cases hname2
      rfl
  | @runtime rdeps d pkgn pkgv pkgop hrdeps hmem hsplit hown hm =>
      cases hrdeps
      cases hmem

end ThreeTemplates

/-- `main/b` needs `c`, which has a directory of its own, and comes after it. -/
theorem covered_iff_ownDirectory :
    Covered ThreeTemplates.env [] ['x'] ThreeTemplates.tmplB ['b'] [] := by
  refine (covered_iff rfl).mpr (Or.inr fun full u hmissing hu _ => ?_)
  have hfull := ThreeTemplates.missingB hmissing
  have huname : u.fullPkgname = ⟨ThreeTemplates.main, ['c']⟩ := by
    rw [(newTemplate_some hu).2.1, hfull]
    rfl
  rw [huname]
  exact Or.inl ⟨['c'], List.mem_singleton_self _, ⟨ThreeTemplates.main, ['c']⟩, rfl, rfl, rfl⟩

/-- `install` finds `b` behind `b-static` and builds it, and `get_build_deps` lists nothing. -/
theorem automaticPackage_not_covered :
    ¬ Covered ThreeTemplates.env [] ['x'] ThreeTemplates.staticA ['a'] [] := by
  intro h
  obtain ⟨l, hl, hmem⟩ := h ThreeTemplates.tmplB
    ⟨_, _, ⟨ThreeTemplates.main, ['b']⟩, rfl, List.mem_singleton_self _, rfl⟩ (by decide)
  have hnone : getBuildDeps ThreeTemplates.src ['x'] ThreeTemplates.staticA = .ok [] := by
    decide +kernel
  cases hl.symm.trans hnone
  cases hmem

end Cbuild.Build
