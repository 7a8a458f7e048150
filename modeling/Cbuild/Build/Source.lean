import Cbuild.Apk.Match

/-! # Templates and their dependencies

The template directories as `dependencies.py` looks names up in them, the fields
of a template that a build reads, and `setup_depends`. Builds are past stage 0
throughout, so that host dependencies always count.
-/

namespace Cbuild.Build

open Apk

abbrev Arch := Str

/-- `full_pkgname`: a directory of the tree, by its repository and its own name. -/
structure FullName where
  repository : Str
  pkgname : Str
  deriving DecidableEq

inductive Phase
  | setup | fetch | deps | extract | prepare | patch | configure | build | check | install
  | pkg | custom
  deriving DecidableEq

/-- What a build is asked to do: to stop after a phase, or to run a target of the template. -/
inductive Step
  | target (p : Phase)
  | custom (name : Str)
  deriving DecidableEq

inductive Error
  /-- `invalid version '{ver}' for comparison` -/
  | invalidVersion
  /-- `virtual dependency '{dep}' has no specified provider` -/
  | noProvider (dep : Str)
  /-- `host dependency '{pkgn}' does not exist`, or target -/
  | noDependency (host : Bool) (pkgn : Str)
  /-- `invalid runtime dependency: {dep}` -/
  | invalidRuntime (dep : Str)
  /-- `build loop detected: {pkgn} <-> {origpkg}` -/
  | buildLoop (pkgn origpkg : Str)
  /-- `template '{pkgn}' cannot be resolved` -/
  | unresolved (pkgn : Str)
  /-- `version {pkgn}={rdv} does not match dependency {rpt}` -/
  | futile (pkgn rdv rpt : Str)
  /-- `build-time dependency cycle encountered for {pkgname} (dependency of {origin})` -/
  | cycle (pkgname origin : Str)
  /-- `custom target '{name}' is not defined in template` -/
  | noTarget (name : Str)
  /-- A template that cannot be read. -/
  | badTemplate (full : FullName)
  /-- A phase of the build that raises. -/
  | phaseFailed (p : Phase) (full : FullName)
  /-- `failed to install dependencies` -/
  | installFailed
  deriving DecidableEq

/-- What a template module sets, as far as it is read before `init_from_mod` is through. -/
structure Module where
  /-- `{pkgver}-r{pkgrel}`, unless one of them is missing or `None`. -/
  version : Option Str
  /-- The mandatory fields are there, and `pkgname` is the name of the directory. -/
  valid : Bool

structure Subpkg where
  pkgname : Str
  depends : List Str

/-- The fields that a build reads once the template is initialized. -/
structure Fields where
  hostmakedepends : List Str
  makedepends : List Str
  checkdepends : List Str
  depends : List Str
  subpkgList : List Subpkg
  /-- `options["check"]`, or `_force_check` -/
  runsCheck : Bool
  /-- The template has a `fetch` of its own. -/
  ownFetch : Bool
  prepareAfterPatch : Bool
  customTargets : List (Str × Step)

structure Template extends Fields where
  fullPkgname : FullName
  /-- `full_pkgver` -/
  fullPkgver : Str

abbrev Template.pkgname (t : Template) : Str := t.fullPkgname.pkgname

/-- The source tree, and the settings that do not change during a run. -/
structure Source where
  /-- `{repository}/{pkgname}/template.py` is a file -/
  isFile : FullName → Bool
  /-- The directory it is in, with links resolved. -/
  resolve : FullName → FullName
  /-- `source_repositories` of a template of a repository. -/
  sourceRepositories : Str → List Str
  /-- What the module sets; nothing when executing it raises. -/
  module : Arch → FullName → Option Module
  /-- The rest of `init_from_mod`; nothing when it raises. -/
  fields : Arch → FullName → Option Fields
  /-- `chroot.host_cpu()` -/
  hostCpu : Arch
  /-- `str.isdigit` -/
  isdigit : Char → Bool
  isdigit_op : ∀ c, isOpChar c = true → isdigit c = false

theorem isDigit_op (c : Char) (h : isOpChar c = true) : c.isDigit = false := by
  simp only [isOpChar, Bool.or_eq_true, beq_iff_eq] at h
  rcases h with ((rfl | rfl) | rfl) | rfl <;> rfl

/-! ## Looking a name up -/

/-- The suffixes of the automatic packages, in the order of the source. -/
def autopkgs : List Str :=
  ["dbg".toList, "static".toList, "doc".toList, "man".toList, "dinit-links".toList,
    "dinit".toList, "initramfs-tools".toList, "udev".toList, "bashcomp".toList,
    "zshcomp".toList, "fishcomp".toList, "nucomp".toList, "locale".toList, "pycache".toList]

/-- The package that an automatic package is made for, by its suffix. -/
def altname (pkgn : Str) : Option Str :=
  (autopkgs.find? fun apkg => ('-' :: apkg).isSuffixOf pkgn).map fun apkg =>
    pkgn.take (pkgn.length - (apkg.length + 1))

namespace Source

variable (src : Source)

def cross (arch : Arch) : Bool := arch ≠ src.hostCpu

/-- The first repository that has a directory of the name. -/
def findTemplate (repos : List Str) (pkgn : Str) : Option FullName :=
  (repos.map fun r => ⟨r, pkgn⟩).find? src.isFile

/-- The file `_srcpkg_ver` ends up with: the name's own, or that of the package it is an
automatic package of. -/
def srcpkgPath (repos : List Str) (pkgn : Str) : Option FullName :=
  match src.findTemplate repos pkgn with
  | some path => some path
  | none =>
      match altname pkgn with
      | none => none
      | some [] => none
      | some alt => src.findTemplate repos alt

end Source

/-- `_tcache` -/
abbrev TCache := List (Str × (Str × FullName))

/-- `_srcpkg_ver`: the version, where there is one, and the template of a name. The cache is
by name, whoever asks. -/
def srcpkgVer (src : Source) (arch : Arch) (repos : List Str) (tcache : TCache) (pkgn : Str) :
    Except Error (Option (Option Str × FullName) × TCache) :=
  match tcache.lookup pkgn with
  | some (cv, full) => .ok (some (some cv, full), tcache)
  | none =>
      match src.srcpkgPath repos pkgn with
      | none => .ok (none, tcache)
      | some tmplpath =>
          let full := src.resolve tmplpath
          match src.module arch full with
          | none => .error (.badTemplate full)
          | some modv =>
              match modv.version with
              | none => .ok (some (none, full), tcache)
              | some cv => .ok (some (some cv, full), (pkgn, (cv, full)) :: tcache)

/-! ## `setup_depends` -/

def isRdep (pn : Str) : Bool :=
  !(["so:".toList, "pc:".toList, "cmd:".toList, "alt:".toList, "virtual:".toList,
    "soname:".toList].any fun pre => pre.isPrefixOf pn)

/-- A runtime dependency, or the provider it names when it is a virtual one. -/
def specifiedProvider (dep : Str) : Except Error Str :=
  if isRdep dep then .ok dep
  else
    match dep.dropWhile fun c => c != '!' with
    | [] => .error (.noProvider dep)
    | _ :: prov =>
        if "alt:".toList.isPrefixOf dep then
          .ok ((dep.takeWhile fun c => c != '!').drop 4 ++ '-' :: prov ++ "-default".toList)
        else .ok prov

/-- The runtime dependencies of the package and its subpackages, with the package that has each;
`onlyNames` leaves their constraints out. -/
def runtimeDepends (isdigit : Char → Bool) (onlyNames : Bool) :
    List (Str × Str) → Except Error (List (Str × Str))
  | [] => .ok []
  | (orig, dep) :: crdeps =>
      -- conflicts are not checked at all
      if ['!'].isPrefixOf dep then runtimeDepends isdigit onlyNames crdeps
      else do
        let dep ← specifiedProvider dep
        let rdeps ← runtimeDepends isdigit onlyNames crdeps
        match splitPkgName isdigit dep with
        | none => return (orig, if onlyNames then dep else dep ++ ['>', '=', '0']) :: rdeps
        | some (pn, _) => return (orig, if onlyNames then pn else dep) :: rdeps

/-- A dependency of the build, with the version and the template its name resolves to. -/
structure BuildDep where
  sver : Option Str
  pkgn : Str
  full : Option FullName

def lookupDepends (src : Source) (arch : Arch) (repos : List Str) :
    List Str → TCache → Except Error (List BuildDep × TCache)
  | [], tcache => .ok ([], tcache)
  | dep :: deps, tcache => do
      let (found, tcache) ← srcpkgVer src arch repos tcache dep
      let (rest, tcache) ← lookupDepends src arch repos deps tcache
      return (⟨found.bind Prod.fst, dep, found.map Prod.snd⟩ :: rest, tcache)

structure Depends where
  hdeps : List BuildDep
  tdeps : List BuildDep
  rdeps : List (Str × Str)

namespace Template

variable (t : Template)

def crdeps : List (Str × Str) :=
  t.depends.map (fun x => (t.pkgname, x)) ++
    t.subpkgList.flatMap fun sp => sp.depends.map fun x => (sp.pkgname, x)

/-- The dependencies on the host side: those of the build and, for a native build, of its
checks. -/
def hostdepends (cross : Bool) : List Str :=
  t.hostmakedepends ++ if cross || !t.runsCheck then [] else t.checkdepends

end Template

def setupDepends (src : Source) (arch : Arch) (t : Template) (tcache : TCache) :
    Except Error (Depends × TCache) := do
  let repos := src.sourceRepositories t.fullPkgname.repository
  let rdeps ← runtimeDepends src.isdigit false t.crdeps
  let (hdeps, tcache) ← lookupDepends src arch repos (t.hostdepends (src.cross arch)) tcache
  let (tdeps, tcache) ← lookupDepends src arch repos t.makedepends tcache
  return (⟨hdeps, tdeps, rdeps⟩, tcache)

/-- `setup_depends` with `only_names`. -/
def setupDependNames (src : Source) (arch : Arch) (t : Template) :
    Except Error (List Str × List Str × List (Str × Str)) := do
  let rdeps ← runtimeDepends src.isdigit true t.crdeps
  return (t.hostdepends (src.cross arch), t.makedepends, rdeps)

end Cbuild.Build
