import Cbuild.Build.Source

/-! # The package repositories

The indexes as one list of packages, the queries of `_get_vers` and
`_is_available` on it, and what the end of a build does to it. What apk does
beyond a query by name is a parameter, `ApkCli`.
-/

namespace Cbuild.Build

open Apk

structure Package where
  /-- The index that lists it: the stage or the regular one of a repository. -/
  index : Str
  arch : Arch
  name : Str
  version : Str
  /-- The versioned provides, by name. -/
  provides : List (Str × Str)
  deriving DecidableEq

/-- All packages of all indexes, each index in its own order. -/
abbrev Repo := List Package

/-- The packages that a build leaves, each with its provides. -/
abbrev Outputs := Arch → Template → List (Str × List (Str × Str))

/-- Where the indexes are. -/
structure Layout where
  /-- The indexes of some source repositories, highest priority first. -/
  indexes : List Str → List Str
  /-- The index to which the packages of a repository are staged. -/
  stageIndex : Str → Str

namespace Layout

variable (lay : Layout)

/-- The packages apk sees for an architecture and source repositories. -/
def packages (repo : Repo) (arch : Arch) (repos : List Str) : List Package :=
  repo.filter fun p => p.arch = arch && (lay.indexes repos).contains p.index

/-- `_get_vers` for one name. -/
def versions (repo : Repo) (arch : Arch) (repos : List Str) (pkgn : Str) : List Str :=
  ((lay.packages repo arch repos).filter fun p => p.name = pkgn).map Package.version

/-- The query of `_is_available` for one name, repository by repository. -/
def versionsByRepo (repo : Repo) (arch : Arch) (repos : List Str) (pkgn : Str) :
    List (List Str) :=
  (lay.indexes repos).map fun cr =>
    (repo.filter fun p => p.arch = arch && p.index = cr && p.name = pkgn).map Package.version

/-- The packages of a finished build. -/
def built (outputs : Outputs) (arch : Arch) (t : Template) : List Package :=
  (outputs arch t).map fun (name, provides) =>
    ⟨lay.stageIndex t.fullPkgname.repository, arch, name, t.fullPkgver, provides⟩

/-- The packages are staged; an index keeps one version of a name, the newest built. -/
def publish (outputs : Outputs) (repo : Repo) (arch : Arch) (t : Template) : Repo :=
  let new := lay.built outputs arch t
  (repo.filter fun p =>
    !new.any fun q => q.index = p.index && q.arch = p.arch && q.name = p.name) ++ new

end Layout

/-- A package meets a dependency by its own name or by one of its provides. -/
def Package.meets (p : Package) (dep : Str) : Prop :=
  pkgMatch p.name p.version dep = some true ∨ ∃ q ∈ p.provides, pkgMatch q.1 q.2 dep = some true

/-- Some package that apk sees meets the dependency. -/
def Layout.Provides (lay : Layout) (repo : Repo) (arch : Arch) (repos : List Str) (dep : Str) :
    Prop :=
  ∃ p ∈ lay.packages repo arch repos, p.meets dep

/-- The first of the versions that meets the dependency ends the search. -/
def anyMatch (pkgn ppat : Str) : List Str → Except Error Bool
  | [] => .ok false
  | apn :: pvers =>
      match pkgMatch pkgn apn ppat with
      | none => .error .invalidVersion
      | some true => .ok true
      | some false => anyMatch pkgn ppat pvers

/-- The first repository that has the package decides. -/
def firstRepo (pkgn ppat : Str) : List (List Str) → Except Error (Option Str)
  | [] => .ok none
  | [] :: crepos => firstRepo pkgn ppat crepos
  | (nv :: _) :: _ =>
      match pkgMatch pkgn nv ppat with
      | none => .error .invalidVersion
      | some true => .ok (some nv)
      | some false => .ok none

/-- `_is_available`, as far as what it finds goes; what it says about why it finds nothing is
for the log only. -/
def isAvailable (pkgn pkgop : Str) (pkgv : Option Str) (pvers : List Str)
    (crepos : List (List Str)) : Except Error (Option Str) :=
  match pvers.getLast? with
  | none => .ok none
  | some latest =>
      match pkgv with
      | none => .ok (some latest)
      | some pkgv => do
          let ppat := pkgn ++ pkgop ++ pkgv
          if ← anyMatch pkgn ppat pvers.reverse then
            -- only one version, so it's unambiguous
            if pvers.length = 1 then return some latest
            else firstRepo pkgn ppat crepos
          else return none

/-- What apk decides by rules that are not those of a query by name. -/
structure ApkCli where
  /-- The version `is_built` is told for a package: `apk query` without `--all-matches`, in the
  indexes of its own repository. -/
  newest : Repo → Arch → FullName → Option Str
  /-- The transaction of `_install_from_repo` succeeds. -/
  installs : Repo → Arch → List Str → List Str → Bool

/-- `is_built` -/
def ApkCli.isBuilt (apk : ApkCli) (repo : Repo) (arch : Arch) (full : FullName) (fullPkgver : Str) :
    Bool :=
  apk.newest repo arch full = some fullPkgver

end Cbuild.Build
