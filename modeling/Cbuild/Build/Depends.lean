import Cbuild.Build.Repo

/-! # What is missing for a build

The first half of `dependencies.install`: every dependency is looked for in the
repositories, and the templates of those that are not there are collected. It
ends before anything is built.
-/

namespace Cbuild.Build

open Apk

/-- A set of settings under which builds run. -/
structure Env where
  src : Source
  lay : Layout
  apk : ApkCli
  /-- The packages that a finished build leaves. -/
  outputs : Outputs
  /-- A phase ends without raising. -/
  runs : Phase → Arch → Template → Bool

/-- What `install` has collected when it starts to build. -/
structure Plan where
  /-- `host_missing_deps` -/
  hostMissing : List FullName
  /-- `missing_deps` -/
  missing : List FullName
  /-- `host_binpkg_deps` -/
  hostBinpkgs : List Str
  /-- `binpkg_deps` -/
  binpkgs : List Str

variable (env : Env)

/-- The package and the constraint that is passed to apk. -/
def exactly (pkgn ver : Str) : Str := pkgn ++ '=' :: ver

namespace Env

/-- `source_repositories` -/
def repos (t : Template) : List Str := env.src.sourceRepositories t.fullPkgname.repository

def versions (repo : Repo) (arch : Arch) (t : Template) (pkgn : Str) : List Str :=
  env.lay.versions repo arch (env.repos t) pkgn

def available (repo : Repo) (arch : Arch) (t : Template) (pkgn pkgop : Str)
    (pkgv : Option Str) : Except Error (Option Str) :=
  isAvailable pkgn pkgop pkgv (env.versions repo arch t pkgn)
    (env.lay.versionsByRepo repo arch (env.repos t) pkgn)

end Env

/-- One round of the loops over the host and the target dependencies: the package to install,
and the template to build first when it is missing. Cross builds do not check their host
dependencies for loops. -/
def checkBuildDep (repo : Repo) (arch : Arch) (t : Template) (origpkg : Str) (host cross : Bool)
    (dep : BuildDep) : Except Error (Str × Option FullName) := do
  match ← env.available repo arch t dep.pkgn ['='] dep.sver with
  | some aver => return (exactly dep.pkgn aver, none)
  | none =>
      match dep.sver, dep.full with
      | some sver, some fulln =>
          if (!(host && cross)) && (dep.pkgn = origpkg || dep.pkgn = t.pkgname) then
            .error (.buildLoop dep.pkgn origpkg)
          else return (exactly dep.pkgn sver, some fulln)
      | _, _ => .error (.noDependency host dep.pkgn)

def checkBuildDeps (repo : Repo) (arch : Arch) (t : Template) (origpkg : Str)
    (host cross : Bool) : List BuildDep → Except Error (List Str × List FullName)
  | [] => .ok ([], [])
  | dep :: deps => do
      let (binpkg, fulln) ← checkBuildDep env repo arch t origpkg host cross dep
      let (binpkgs, missing) ← checkBuildDeps repo arch t origpkg host cross deps
      return (binpkg :: binpkgs, fulln.toList ++ missing)

/-- One round of the loop over the runtime dependencies. -/
def checkRuntimeDep (repo : Repo) (arch : Arch) (t : Template) (origpkg : Str)
    (origin dep : Str) (tcache : TCache) : Except Error (Option FullName × TCache) :=
  match splitPkgName env.src.isdigit dep with
  | none => .error (.invalidRuntime dep)
  | some (pkgn, pkgv, pkgop) =>
      if pkgn = origin then .error (.buildLoop pkgn pkgn)
      -- subpackages and their parent depend on each other as they like
      else if pkgn = t.pkgname || t.subpkgList.any fun sp => sp.pkgname = pkgn then
        .ok (none, tcache)
      -- we're a dependency build but depend on whatever depends on us
      else if pkgn = origpkg && t.pkgname ≠ origpkg then .error (.buildLoop pkgn pkgn)
      else do
        match ← env.available repo arch t pkgn pkgop (some pkgv) with
        | some _ => return (none, tcache)
        | none =>
            match ← srcpkgVer env.src arch (env.repos t) tcache pkgn with
            | (some (some rdv, fulln), tcache) =>
                let rpt := pkgn ++ pkgop ++ pkgv
                match pkgMatch pkgn rdv rpt with
                | none => .error .invalidVersion
                | some false => .error (.futile pkgn rdv rpt)
                | some true => return (some fulln, tcache)
            | _ => .error (.unresolved pkgn)

def checkRuntimeDeps (repo : Repo) (arch : Arch) (t : Template) (origpkg : Str) :
    List (Str × Str) → TCache → Except Error (List FullName × TCache)
  | [], tcache => .ok ([], tcache)
  | (origin, dep) :: deps, tcache => do
      let (fulln, tcache) ← checkRuntimeDep env repo arch t origpkg origin dep tcache
      let (missing, tcache) ← checkRuntimeDeps repo arch t origpkg deps tcache
      return (fulln.toList ++ missing, tcache)

/-- The cross toolchain is a host dependency of every cross build. -/
def crossToolchain (arch : Arch) (t : Template) (tcache : TCache) :
    Except Error (List BuildDep × TCache) :=
  if env.src.cross arch then
    lookupDepends env.src arch (env.repos t) ["base-cross-".toList ++ arch] tcache
  else .ok ([], tcache)

/-- `install` up to the builds. -/
def checkDepends (repo : Repo) (arch : Arch) (t : Template) (origpkg : Str) (tcache : TCache) :
    Except Error (Plan × TCache) := do
  let cross := env.src.cross arch
  let (deps, tcache) ← setupDepends env.src arch t tcache
  let (toolchain, tcache) ← crossToolchain env arch t tcache
  let (hostBinpkgs, hostMissing) ←
    checkBuildDeps env repo env.src.hostCpu t origpkg true cross (deps.hdeps ++ toolchain)
  let (binpkgs, missing) ← checkBuildDeps env repo arch t origpkg false cross deps.tdeps
  let (rmissing, tcache) ← checkRuntimeDeps env repo arch t origpkg deps.rdeps tcache
  return (⟨hostMissing, missing ++ rmissing, hostBinpkgs, binpkgs⟩, tcache)

end Cbuild.Build
