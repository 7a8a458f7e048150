import Cbuild.Build.Depends
import Cbuild.Lib.Fueled

/-! # What `install` collects

The plan of `checkDepends` in terms of single dependencies: what a name resolves
to does not depend on when it is looked up, and a template is to be built exactly
for a dependency that is not available.
-/

namespace Cbuild.Build

open Apk Lib

/-! ## Names -/

/-- A lookup of the name, on the cache as it is, gives `found`. -/
def Resolves (src : Source) (arch : Arch) (repos : List Str) (tcache : TCache) (pkgn : Str)
    (found : Option (Option Str × FullName)) : Prop :=
  ∃ tcache', srcpkgVer src arch repos tcache pkgn = .ok (found, tcache')

theorem Resolves.unique {src : Source} {arch : Arch} {repos : List Str} {tcache : TCache}
    {pkgn : Str} {found found' : Option (Option Str × FullName)}
    (h : Resolves src arch repos tcache pkgn found)
    (h' : Resolves src arch repos tcache pkgn found') : found = found' := by
  obtain ⟨_, h⟩ := h
  obtain ⟨_, h'⟩ := h'
  have heq := h.symm.trans h'
  exact (Prod.mk.inj (Except.ok.inj heq)).1

/-- What a lookup does to the cache: nothing, or it puts in what it found. -/
theorem srcpkgVer_tcache {src : Source} {arch : Arch} {repos : List Str} {tcache tcache' : TCache}
    {pkgn : Str} {found : Option (Option Str × FullName)}
    (h : srcpkgVer src arch repos tcache pkgn = .ok (found, tcache')) :
    tcache' = tcache ∨ ∃ cv full, tcache.lookup pkgn = none ∧ found = some (some cv, full) ∧
      tcache' = (pkgn, (cv, full)) :: tcache := by
  unfold srcpkgVer at h
  split at h
  · cases h
    exact Or.inl rfl
  · rename_i hlookup
    split at h
    · cases h
      exact Or.inl rfl
    · dsimp only at h
      split at h
      · cases h
      · split at h
        · cases h
          exact Or.inl rfl
        · cases h
          exact Or.inr ⟨_, _, hlookup, rfl, rfl⟩

theorem srcpkgVer_cached {src : Source} {arch : Arch} {repos : List Str} {tcache : TCache}
    {pkgn cv : Str} {full : FullName} (h : tcache.lookup pkgn = some (cv, full)) :
    srcpkgVer src arch repos tcache pkgn = .ok (some (some cv, full), tcache) := by
  unfold srcpkgVer
  rw [h]

/-- A lookup of a name that is not in the cache does not depend on the cache. -/
theorem resolves_of_lookup_none {src : Source} {arch : Arch} {repos : List Str}
    {tcache : TCache} {pkgn : Str} (h : tcache.lookup pkgn = none)
    (found : Option (Option Str × FullName)) :
    Resolves src arch repos tcache pkgn found ↔ Resolves src arch repos [] pkgn found := by
  unfold Resolves srcpkgVer
  rw [h, List.lookup_nil]
  cases hpath : src.srcpkgPath repos pkgn with
  | none => simp
  | some path =>
      cases hmod : src.module arch (src.resolve path) with
      | none => simp [hmod]
      | some modv => cases hver : modv.version <;> simp [hmod, hver]

/-- A template that looks names up finds the same for a name before and after. -/
theorem srcpkgVer_resolves {src : Source} {arch : Arch} {repos : List Str}
    {tcache tcache' : TCache} {pkgn : Str} {found : Option (Option Str × FullName)}
    (h : srcpkgVer src arch repos tcache pkgn = .ok (found, tcache')) (name : Str)
    (r : Option (Option Str × FullName)) :
    Resolves src arch repos tcache' name r ↔ Resolves src arch repos tcache name r := by
  rcases srcpkgVer_tcache h with rfl | ⟨cv, full, hnone, rfl, rfl⟩
  · exact Iff.rfl
  · by_cases hname : name = pkgn
    · have hnew : Resolves src arch repos ((pkgn, (cv, full)) :: tcache) name
          (some (some cv, full)) :=
        ⟨_, srcpkgVer_cached (by rw [hname]; exact List.lookup_cons_self ..)⟩
      have hold : Resolves src arch repos tcache name (some (some cv, full)) :=
        ⟨_, by rw [hname]; exact h⟩
      constructor
      · intro hr
        rwa [← hnew.unique hr]
      · intro hr
        rwa [← hold.unique hr]
    · have hlookup : ((pkgn, (cv, full)) :: tcache).lookup name = tcache.lookup name := by
        rw [List.lookup_cons, beq_false_of_ne hname]
      cases hl : tcache.lookup name with
      | none =>
          rw [resolves_of_lookup_none (hlookup.trans hl), resolves_of_lookup_none hl]
      | some p =>
          unfold Resolves
          rw [srcpkgVer_cached (hlookup.trans hl), srcpkgVer_cached hl]
          simp

/-- What a dependency is resolved to. -/
def BuildDep.found (dep : BuildDep) : Option (Option Str × FullName) :=
  dep.full.map fun full => (dep.sver, full)

theorem lookupDepends_spec {src : Source} {arch : Arch} {repos : List Str} {deps : List Str}
    {tcache tcache' : TCache} {l : List BuildDep}
    (h : lookupDepends src arch repos deps tcache = .ok (l, tcache')) :
    l.map BuildDep.pkgn = deps ∧
      (∀ dep ∈ l, Resolves src arch repos tcache dep.pkgn dep.found ∧
        (dep.full = none → dep.sver = none)) ∧
      ∀ name r, Resolves src arch repos tcache' name r ↔ Resolves src arch repos tcache name r := by
  induction deps generalizing tcache l with
  | nil =>
      cases h
      exact ⟨rfl, fun _ h => absurd h List.not_mem_nil, fun _ _ => Iff.rfl⟩
  | cons pkgn deps ih =>
      rw [lookupDepends] at h
      obtain ⟨⟨found, tcache₁⟩, hfound, h⟩ := except_bind_eq_ok.mp h
      obtain ⟨⟨rest, tcache₂⟩, hrest, h⟩ := except_bind_eq_ok.mp h
      cases h
      obtain ⟨hnames, hdeps, htcache⟩ := ih hrest
      have hsame := srcpkgVer_resolves hfound
      refine ⟨?_, ?_, ?_⟩
      · rw [List.map_cons, hnames]
      · intro dep hdep
        rcases List.mem_cons.mp hdep with rfl | hdep
        · have hres : Resolves src arch repos tcache pkgn found := ⟨_, hfound⟩
          cases found with
          | none => exact ⟨hres, fun _ => rfl⟩
          | some r => exact ⟨hres, fun h => nomatch h⟩
        · obtain ⟨hres, hnone⟩ := hdeps dep hdep
          exact ⟨(hsame _ _).mp hres, hnone⟩
      · intro name r
        rw [htcache, hsame]

/-! ## Versions -/

variable {env : Env}

theorem anyMatch_true {pkgn ppat : Str} {pvers : List Str}
    (h : anyMatch pkgn ppat pvers = .ok true) : ∃ v ∈ pvers, pkgMatch pkgn v ppat = some true := by
  induction pvers with
  | nil => cases h
  | cons v pvers ih =>
      rw [anyMatch] at h
      split at h
      · cases h
      · rename_i hv
        exact ⟨v, List.mem_cons_self .., hv⟩
      · obtain ⟨w, hw, hmatch⟩ := ih h
        exact ⟨w, List.mem_cons_of_mem _ hw, hmatch⟩

theorem firstRepo_some {pkgn ppat aver : Str} {crepos : List (List Str)}
    (h : firstRepo pkgn ppat crepos = .ok (some aver)) : pkgMatch pkgn aver ppat = some true := by
  induction crepos with
  | nil => cases h
  | cons jsn crepos ih =>
      cases jsn with
      | nil => exact ih h
      | cons nv rest =>
          rw [firstRepo] at h
          split at h
          · cases h
          · rename_i hmatch
            cases h
            exact hmatch
          · cases h

/-- A version that is found meets the constraint, and so does one that apk lists. -/
theorem isAvailable_some {pkgn pkgop pkgv aver : Str} {pvers : List Str}
    {crepos : List (List Str)}
    (h : isAvailable pkgn pkgop (some pkgv) pvers crepos = .ok (some aver)) :
    pkgMatch pkgn aver (pkgn ++ pkgop ++ pkgv) = some true ∧
      ∃ v ∈ pvers, pkgMatch pkgn v (pkgn ++ pkgop ++ pkgv) = some true := by
  unfold isAvailable at h
  split at h
  · cases h
  · rename_i latest hlatest
    obtain ⟨b, hb, h⟩ := except_bind_eq_ok.mp h
    cases b with
    | false => cases h
    | true =>
        obtain ⟨v, hv, hmatch⟩ := anyMatch_true hb
        rw [List.mem_reverse] at hv
        rw [if_pos rfl] at h
        split at h
        · rename_i hlen
          cases h
          obtain ⟨w, hw⟩ := List.length_eq_one_iff.mp hlen
          rw [hw, List.mem_singleton] at hv
          rw [hw] at hlatest
          cases hlatest
          exact ⟨by rw [← hv]; exact hmatch, v, by rw [hw, hv]; exact List.mem_singleton_self _, hmatch⟩
        · exact ⟨firstRepo_some h, v, hv, hmatch⟩

/-! ## Dependencies of the build -/

/-- The dependency is not available, and its template is `full`. -/
def BuildDep.Missing (env : Env) (repo : Repo) (arch : Arch) (t : Template) (dep : BuildDep)
    (ver : Str) (full : FullName) : Prop :=
  env.available repo arch t dep.pkgn ['='] dep.sver = .ok none ∧ dep.found = some (some ver, full)

theorem checkBuildDep_spec {repo : Repo} {arch : Arch} {t : Template} {origpkg : Str}
    {host cross : Bool} {dep : BuildDep} {binpkg : Str} {fulln : Option FullName}
    (h : checkBuildDep env repo arch t origpkg host cross dep = .ok (binpkg, fulln)) :
    ∃ ver, binpkg = exactly dep.pkgn ver ∧
      ((env.available repo arch t dep.pkgn ['='] dep.sver = .ok (some ver) ∧ fulln = none) ∨
        ∃ full, dep.Missing env repo arch t ver full ∧ fulln = some full) := by
  unfold checkBuildDep at h
  obtain ⟨avail, havail, h⟩ := except_bind_eq_ok.mp h
  split at h
  · rename_i aver
    cases h
    exact ⟨aver, rfl, Or.inl ⟨havail, rfl⟩⟩
  · split at h
    · rename_i sver full hsver hfull
      split at h
      · cases h
      · cases h
        refine ⟨sver, rfl, Or.inr ⟨full, ⟨havail, ?_⟩, rfl⟩⟩
        rw [BuildDep.found, hfull, hsver]
        rfl
    · cases h

/-- Every dependency is installed in some version: one that is available, or that of its
template, which then is to be built. -/
theorem checkBuildDeps_planned {repo : Repo} {arch : Arch} {t : Template} {origpkg : Str}
    {host cross : Bool} {deps : List BuildDep} {binpkgs : List Str} {missing : List FullName}
    (h : checkBuildDeps env repo arch t origpkg host cross deps = .ok (binpkgs, missing)) :
    ∀ dep ∈ deps, ∃ ver, exactly dep.pkgn ver ∈ binpkgs ∧
      (env.available repo arch t dep.pkgn ['='] dep.sver = .ok (some ver) ∨
        ∃ full ∈ missing, dep.Missing env repo arch t ver full) := by
  induction deps generalizing binpkgs missing with
  | nil => exact fun _ h => absurd h List.not_mem_nil
  | cons d deps ih =>
      rw [checkBuildDeps] at h
      obtain ⟨⟨binpkg, fulln⟩, hd, h⟩ := except_bind_eq_ok.mp h
      obtain ⟨⟨binpkgs', missing'⟩, hdeps, h⟩ := except_bind_eq_ok.mp h
      cases h
      intro dep hdep
      rcases List.mem_cons.mp hdep with rfl | hdep
      · obtain ⟨ver, rfl, havail | ⟨full, hmissing, rfl⟩⟩ := checkBuildDep_spec hd
        · exact ⟨ver, List.mem_cons_self .., Or.inl havail.1⟩
        · exact ⟨ver, List.mem_cons_self .., Or.inr ⟨full, List.mem_cons_self .., hmissing⟩⟩
      · obtain ⟨ver, hmem, havail | ⟨full, hfull, hmissing⟩⟩ := ih hdeps dep hdep
        · exact ⟨ver, List.mem_cons_of_mem _ hmem, Or.inl havail⟩
        · exact ⟨ver, List.mem_cons_of_mem _ hmem,
            Or.inr ⟨full, List.mem_append_right _ hfull, hmissing⟩⟩

/-- Templates are built for missing dependencies only. -/
theorem checkBuildDeps_missing {repo : Repo} {arch : Arch} {t : Template} {origpkg : Str}
    {host cross : Bool} {deps : List BuildDep} {binpkgs : List Str} {missing : List FullName}
    (h : checkBuildDeps env repo arch t origpkg host cross deps = .ok (binpkgs, missing)) :
    ∀ full ∈ missing, ∃ dep ∈ deps, ∃ ver, dep.Missing env repo arch t ver full := by
  induction deps generalizing binpkgs missing with
  | nil =>
      cases h
      exact fun _ h => absurd h List.not_mem_nil
  | cons d deps ih =>
      rw [checkBuildDeps] at h
      obtain ⟨⟨binpkg, fulln⟩, hd, h⟩ := except_bind_eq_ok.mp h
      obtain ⟨⟨binpkgs', missing'⟩, hdeps, h⟩ := except_bind_eq_ok.mp h
      cases h
      intro full hfull
      rcases List.mem_append.mp hfull with hfull | hfull
      · obtain ⟨ver, rfl, ⟨_, rfl⟩ | ⟨full', hmissing, rfl⟩⟩ := checkBuildDep_spec hd
        · exact absurd hfull List.not_mem_nil
        · rw [Option.toList_some, List.mem_singleton] at hfull
          exact ⟨d, List.mem_cons_self .., ver, by rw [hfull]; exact hmissing⟩
      · obtain ⟨dep, hdep, hmissing⟩ := ih hdeps full hfull
        exact ⟨dep, List.mem_cons_of_mem _ hdep, hmissing⟩

/-! ## Runtime dependencies -/

/-- The name belongs to the template itself: its package or a subpackage. -/
def Template.Owns (t : Template) (pkgn : Str) : Prop :=
  pkgn = t.pkgname ∨ ∃ sp ∈ t.subpkgList, sp.pkgname = pkgn

/-- No version of the name that meets the constraint is available, and its template is `full`,
whose version meets it. -/
structure RuntimeMissing (env : Env) (repo : Repo) (arch : Arch) (t : Template)
    (tcache : TCache) (pkgn pkgop pkgv : Str) (full : FullName) : Prop where
  absent : env.available repo arch t pkgn pkgop (some pkgv) = .ok none
  found : ∃ rdv, Resolves env.src arch (env.repos t) tcache pkgn (some (some rdv, full)) ∧
    pkgMatch pkgn rdv (pkgn ++ pkgop ++ pkgv) = some true

/-- What a round of the loop over the runtime dependencies settles. -/
inductive RuntimeChecked (env : Env) (repo : Repo) (arch : Arch) (t : Template)
    (tcache : TCache) (pkgn pkgop pkgv : Str) : Option FullName → Prop
  | own (h : t.Owns pkgn) : RuntimeChecked env repo arch t tcache pkgn pkgop pkgv none
  | found (aver : Str) (h : env.available repo arch t pkgn pkgop (some pkgv) = .ok (some aver)) :
      RuntimeChecked env repo arch t tcache pkgn pkgop pkgv none
  | missing (full : FullName) (hown : ¬ t.Owns pkgn)
      (h : RuntimeMissing env repo arch t tcache pkgn pkgop pkgv full) :
      RuntimeChecked env repo arch t tcache pkgn pkgop pkgv (some full)

theorem owns_iff {t : Template} {pkgn : Str} :
    (pkgn = t.pkgname || t.subpkgList.any fun sp => sp.pkgname = pkgn) = true ↔ t.Owns pkgn := by
  simp [Template.Owns]

theorem checkRuntimeDep_spec {repo : Repo} {arch : Arch} {t : Template}
    {origpkg origin dep : Str} {tcache tcache' : TCache} {fulln : Option FullName}
    (h : checkRuntimeDep env repo arch t origpkg origin dep tcache = .ok (fulln, tcache')) :
    (∃ pkgn pkgv pkgop, splitPkgName env.src.isdigit dep = some (pkgn, pkgv, pkgop) ∧
      RuntimeChecked env repo arch t tcache pkgn pkgop pkgv fulln) ∧
      (tcache' = tcache ∨ ∃ pkgn found,
        srcpkgVer env.src arch (env.repos t) tcache pkgn = .ok (found, tcache')) := by
  unfold checkRuntimeDep at h
  split at h
  · cases h
  · rename_i pkgn pkgv pkgop hsplit
    split at h
    · cases h
    · split at h
      · rename_i hown
        cases h
        exact ⟨⟨pkgn, pkgv, pkgop, hsplit, .own (owns_iff.mp hown)⟩, Or.inl rfl⟩
      · rename_i hown
        rw [owns_iff] at hown
        split at h
        · cases h
        · obtain ⟨avail, havail, h⟩ := except_bind_eq_ok.mp h
          split at h
          · rename_i aver
            cases h
            exact ⟨⟨pkgn, pkgv, pkgop, hsplit, .found aver havail⟩, Or.inl rfl⟩
          · obtain ⟨⟨found, tcache₁⟩, hfound, h⟩ := except_bind_eq_ok.mp h
            split at h
            · rename_i rdv full tc heq
              cases heq
              dsimp only at h
              split at h
              · cases h
              · cases h
              · rename_i hmatch
                cases h
                exact ⟨⟨pkgn, pkgv, pkgop, hsplit,
                  .missing full hown ⟨havail, rdv, ⟨_, hfound⟩, hmatch⟩⟩,
                  Or.inr ⟨pkgn, _, hfound⟩⟩
            · cases h

theorem RuntimeChecked.of_resolves {repo : Repo} {arch : Arch} {t : Template}
    {tcache tcache' : TCache} {pkgn pkgop pkgv : Str} {fulln : Option FullName}
    (hsame : ∀ name r, Resolves env.src arch (env.repos t) tcache' name r →
      Resolves env.src arch (env.repos t) tcache name r)
    (h : RuntimeChecked env repo arch t tcache' pkgn pkgop pkgv fulln) :
    RuntimeChecked env repo arch t tcache pkgn pkgop pkgv fulln := by
  cases h with
  | own h => exact .own h
  | found aver h => exact .found aver h
  | missing full hown h =>
      obtain ⟨rdv, hres, hmatch⟩ := h.found
      exact .missing full hown ⟨h.absent, rdv, hsame _ _ hres, hmatch⟩

/-- A runtime dependency and the template that is to be built for it, if any. -/
def RuntimePlanned (env : Env) (repo : Repo) (arch : Arch) (t : Template) (tcache : TCache)
    (dep : Str) (fulln : Option FullName) : Prop :=
  ∃ pkgn pkgv pkgop, splitPkgName env.src.isdigit dep = some (pkgn, pkgv, pkgop) ∧
    RuntimeChecked env repo arch t tcache pkgn pkgop pkgv fulln

theorem checkRuntimeDeps_spec {repo : Repo} {arch : Arch} {t : Template} {origpkg : Str}
    {deps : List (Str × Str)} {tcache tcache' : TCache} {missing : List FullName}
    (h : checkRuntimeDeps env repo arch t origpkg deps tcache = .ok (missing, tcache')) :
    (∀ d ∈ deps, ∃ fulln, RuntimePlanned env repo arch t tcache d.2 fulln ∧
      ∀ full, fulln = some full → full ∈ missing) ∧
    (∀ full ∈ missing, ∃ d ∈ deps, RuntimePlanned env repo arch t tcache d.2 (some full)) := by
  induction deps generalizing tcache missing with
  | nil =>
      cases h
      exact ⟨fun _ h => absurd h List.not_mem_nil, fun _ h => absurd h List.not_mem_nil⟩
  | cons d deps ih =>
      obtain ⟨origin, dep⟩ := d
      rw [checkRuntimeDeps] at h
      obtain ⟨⟨fulln, tcache₁⟩, hd, h⟩ := except_bind_eq_ok.mp h
      obtain ⟨⟨missing', tcache₂⟩, hdeps, h⟩ := except_bind_eq_ok.mp h
      cases h
      obtain ⟨hchecked, htcache⟩ := checkRuntimeDep_spec hd
      have hsame : ∀ name r, Resolves env.src arch (env.repos t) tcache₁ name r →
          Resolves env.src arch (env.repos t) tcache name r := by
        intro name r hr
        rcases htcache with rfl | ⟨pkgn, found, hfound⟩
        · exact hr
        · exact (srcpkgVer_resolves hfound name r).mp hr
      have hback : ∀ {dep fulln}, RuntimePlanned env repo arch t tcache₁ dep fulln →
          RuntimePlanned env repo arch t tcache dep fulln :=
        fun ⟨pkgn, pkgv, pkgop, hsplit, hc⟩ => ⟨pkgn, pkgv, pkgop, hsplit, hc.of_resolves hsame⟩
      obtain ⟨hplanned, hmissing⟩ := ih hdeps
      constructor
      · intro d' hd'
        rcases List.mem_cons.mp hd' with rfl | hd'
        · refine ⟨fulln, hchecked, fun full hfull => ?_⟩
          rw [hfull]
          exact List.mem_append_left _ (List.mem_singleton_self full)
        · obtain ⟨f, hf, hmem⟩ := hplanned d' hd'
          exact ⟨f, hback hf, fun full hfull => List.mem_append_right _ (hmem full hfull)⟩
      · intro full hfull
        rcases List.mem_append.mp hfull with hfull | hfull
        · rw [Option.mem_toList] at hfull
          have heq : fulln = some full := hfull
          rw [heq] at hchecked
          exact ⟨(origin, dep), List.mem_cons_self .., hchecked⟩
        · obtain ⟨d', hd', hf⟩ := hmissing full hfull
          exact ⟨d', List.mem_cons_of_mem _ hd', hback hf⟩

/-! ## The plan -/

/-- A host or target dependency by name, with what it resolves to. -/
def NameMissing (env : Env) (repo : Repo) (arch : Arch) (t : Template) (pkgn : Str)
    (found : Option (Option Str × FullName)) (ver : Str) (full : FullName) : Prop :=
  env.available repo arch t pkgn ['='] (found.bind Prod.fst) = .ok none ∧
    found = some (some ver, full)

/-- How a host or target dependency comes out. -/
def NamePlanned (env : Env) (repo : Repo) (arch buildArch : Arch) (t : Template)
    (tcache : TCache) (binpkgs : List Str) (missing : List FullName) (pkgn : Str) : Prop :=
  ∃ found, Resolves env.src arch (env.repos t) tcache pkgn found ∧
    ∃ ver, exactly pkgn ver ∈ binpkgs ∧
      (env.available repo buildArch t pkgn ['='] (found.bind Prod.fst) = .ok (some ver) ∨
        ∃ full ∈ missing, NameMissing env repo buildArch t pkgn found ver full)

theorem BuildDep.found_bind {dep : BuildDep} (h : dep.full = none → dep.sver = none) :
    dep.found.bind Prod.fst = dep.sver := by
  unfold BuildDep.found
  cases hfull : dep.full with
  | none =>
      rw [h hfull]
      rfl
  | some full => rfl

/-- Lookup and check of a list of names. -/
theorem names_planned {repo : Repo} {arch buildArch : Arch} {t : Template} {origpkg : Str}
    {host cross : Bool} {names : List Str} {tcache₀ tcache tcache' : TCache}
    {deps extra : List BuildDep} {binpkgs : List Str} {missing : List FullName}
    (hstart : ∀ name r, Resolves env.src arch (env.repos t) tcache name r →
      Resolves env.src arch (env.repos t) tcache₀ name r)
    (hlookup : lookupDepends env.src arch (env.repos t) names tcache = .ok (deps, tcache'))
    (h : checkBuildDeps env repo buildArch t origpkg host cross (deps ++ extra) =
      .ok (binpkgs, missing)) :
    ∀ pkgn ∈ names, NamePlanned env repo arch buildArch t tcache₀ binpkgs missing pkgn := by
  obtain ⟨hnames, hdeps, _⟩ := lookupDepends_spec hlookup
  intro pkgn hpkgn
  rw [← hnames] at hpkgn
  obtain ⟨dep, hdep, rfl⟩ := List.mem_map.mp hpkgn
  obtain ⟨hres, hnone⟩ := hdeps dep hdep
  obtain ⟨ver, hmem, hver⟩ := checkBuildDeps_planned h dep (List.mem_append_left _ hdep)
  refine ⟨dep.found, hstart _ _ hres, ver, hmem, ?_⟩
  unfold NameMissing
  rw [BuildDep.found_bind hnone]
  exact hver

theorem names_missing {repo : Repo} {arch buildArch : Arch} {t : Template} {origpkg : Str}
    {host cross : Bool} {names : List Str} {tcache₀ tcache tcache' : TCache}
    {deps : List BuildDep} {binpkgs : List Str} {missing : List FullName}
    (hstart : ∀ name r, Resolves env.src arch (env.repos t) tcache name r →
      Resolves env.src arch (env.repos t) tcache₀ name r)
    (hlookup : lookupDepends env.src arch (env.repos t) names tcache = .ok (deps, tcache'))
    (h : checkBuildDeps env repo buildArch t origpkg host cross deps = .ok (binpkgs, missing)) :
    ∀ full ∈ missing, ∃ pkgn ∈ names, ∃ found ver,
      Resolves env.src arch (env.repos t) tcache₀ pkgn found ∧
        NameMissing env repo buildArch t pkgn found ver full := by
  obtain ⟨hnames, hdeps, _⟩ := lookupDepends_spec hlookup
  intro full hfull
  obtain ⟨dep, hdep, ver, hmissing⟩ := checkBuildDeps_missing h full hfull
  obtain ⟨hres, hnone⟩ := hdeps dep hdep
  refine ⟨dep.pkgn, ?_, dep.found, ver, hstart _ _ hres, ?_⟩
  · rw [← hnames]
    exact List.mem_map_of_mem hdep
  · unfold NameMissing
    rw [BuildDep.found_bind hnone]
    exact hmissing

/-- The plan of a template, dependency by dependency. -/
structure Planned (env : Env) (repo : Repo) (arch : Arch) (t : Template) (tcache : TCache)
    (plan : Plan) : Prop where
  host : ∀ pkgn ∈ t.hostdepends (env.src.cross arch),
    NamePlanned env repo arch env.src.hostCpu t tcache plan.hostBinpkgs plan.hostMissing pkgn
  make : ∀ pkgn ∈ t.makedepends,
    NamePlanned env repo arch arch t tcache plan.binpkgs plan.missing pkgn
  runtime : ∀ rdeps, runtimeDepends env.src.isdigit false t.crdeps = .ok rdeps →
    ∀ d ∈ rdeps, ∃ fulln, RuntimePlanned env repo arch t tcache d.2 fulln ∧
      ∀ full, fulln = some full → full ∈ plan.missing

/-- The parts of a check that succeeds. -/
theorem checkDepends_eq_ok {repo : Repo} {arch : Arch} {t : Template} {origpkg : Str}
    {tcache tcache' : TCache} {plan : Plan}
    (h : checkDepends env repo arch t origpkg tcache = .ok (plan, tcache')) :
    ∃ rdeps hds tcache₁ tds tcache₂ toolchain tcache₃ missing rmissing,
      runtimeDepends env.src.isdigit false t.crdeps = .ok rdeps ∧
      lookupDepends env.src arch (env.repos t) (t.hostdepends (env.src.cross arch)) tcache =
        .ok (hds, tcache₁) ∧
      lookupDepends env.src arch (env.repos t) t.makedepends tcache₁ = .ok (tds, tcache₂) ∧
      crossToolchain env arch t tcache₂ = .ok (toolchain, tcache₃) ∧
      checkBuildDeps env repo env.src.hostCpu t origpkg true (env.src.cross arch)
        (hds ++ toolchain) = .ok (plan.hostBinpkgs, plan.hostMissing) ∧
      checkBuildDeps env repo arch t origpkg false (env.src.cross arch) tds =
        .ok (plan.binpkgs, missing) ∧
      checkRuntimeDeps env repo arch t origpkg rdeps tcache₃ = .ok (rmissing, tcache') ∧
      plan.missing = missing ++ rmissing := by
  unfold checkDepends setupDepends at h
  obtain ⟨⟨deps, tcache₁⟩, hdeps, h⟩ := except_bind_eq_ok.mp h
  obtain ⟨rdeps, hrdeps, hdeps⟩ := except_bind_eq_ok.mp hdeps
  obtain ⟨⟨hds, tcache₂⟩, hhds, hdeps⟩ := except_bind_eq_ok.mp hdeps
  obtain ⟨⟨tds, tcache₃⟩, htds, hdeps⟩ := except_bind_eq_ok.mp hdeps
  cases hdeps
  obtain ⟨⟨toolchain, tcache₄⟩, htool, h⟩ := except_bind_eq_ok.mp h
  obtain ⟨⟨hostBinpkgs, hostMissing⟩, hhost, h⟩ := except_bind_eq_ok.mp h
  obtain ⟨⟨binpkgs, missing⟩, htarget, h⟩ := except_bind_eq_ok.mp h
  obtain ⟨⟨rmissing, tcache₅⟩, hruntime, h⟩ := except_bind_eq_ok.mp h
  cases h
  exact ⟨rdeps, hds, tcache₂, tds, _, toolchain, tcache₄, missing, rmissing, hrdeps, hhds, htds,
    htool, hhost, htarget, hruntime, rfl⟩

theorem checkDepends_planned {repo : Repo} {arch : Arch} {t : Template} {origpkg : Str}
    {tcache tcache' : TCache} {plan : Plan}
    (h : checkDepends env repo arch t origpkg tcache = .ok (plan, tcache')) :
    Planned env repo arch t tcache plan := by
  obtain ⟨rdeps, hds, tcache₂, tds, tcache₁, toolchain, tcache₄, missing, rmissing, hrdeps, hhds,
    htds, htool, hhost, htarget, hruntime, hplan⟩ := checkDepends_eq_ok h
  obtain ⟨_, _, hsame₂⟩ := lookupDepends_spec hhds
  obtain ⟨_, _, hsame₃⟩ := lookupDepends_spec htds
  have hsame₄ : ∀ name r, Resolves env.src arch (env.repos t) tcache₄ name r →
      Resolves env.src arch (env.repos t) tcache₁ name r := by
    intro name r hr
    unfold crossToolchain at htool
    split at htool
    · exact ((lookupDepends_spec htool).2.2 name r).mp hr
    · cases htool
      exact hr
  have hsame : ∀ name r, Resolves env.src arch (env.repos t) tcache₄ name r →
      Resolves env.src arch (env.repos t) tcache name r :=
    fun name r hr => (hsame₂ name r).mp ((hsame₃ name r).mp (hsame₄ name r hr))
  constructor
  · exact names_planned (fun _ _ hr => hr) hhds hhost
  · intro pkgn hpkgn
    have hplanned := names_planned (fun name r hr => (hsame₂ name r).mp hr) htds
      (by rw [List.append_nil]; exact htarget) pkgn hpkgn
    obtain ⟨found, hfound, ver, hmem, hver⟩ := hplanned
    refine ⟨found, hfound, ver, hmem, ?_⟩
    rcases hver with hver | ⟨full, hfull, hmissing⟩
    · exact Or.inl hver
    · rw [hplan]
      exact Or.inr ⟨full, List.mem_append_left _ hfull, hmissing⟩
  · intro rdeps' hrdeps' d hd
    cases hrdeps.symm.trans hrdeps'
    rw [hplan]
    obtain ⟨fulln, ⟨pkgn, pkgv, pkgop, hsplit, hc⟩, hmem⟩ :=
      (checkRuntimeDeps_spec hruntime).1 d hd
    exact ⟨fulln, ⟨pkgn, pkgv, pkgop, hsplit, hc.of_resolves hsame⟩,
      fun full hfull => List.mem_append_right _ (hmem full hfull)⟩

end Cbuild.Build
