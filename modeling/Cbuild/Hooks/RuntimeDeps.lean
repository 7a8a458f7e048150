import Cbuild.Apk.Generate
import Cbuild.Apk.Match
import Cbuild.Hooks.Provides
import Cbuild.Hooks.Services
import Mathlib

/-! # What a package depends on

`001_runtime_deps.py` looks for what the files of a package need: shared libraries,
pkg-config modules, services, and the ends of symlinks. What is not in the package itself is
looked for in the packages of the same template and then in the installed ones.
`005_py_dep.py`, `006_devel_install_if.py` and `007_trigger_deps.py` rewrite the result, and
`_get_new_deps` of `generate.py` makes one list of it for apk.
-/

namespace Cbuild.RuntimeDeps

open Lib Apk
open Services (Kind)

/-- One of `current_elfs`. -/
structure Elf extends Provides.Elf where
  needed : List Str

/-- Where a symlink points to. -/
structure Target where
  absolute : Bool
  parts : List Str

/-- What `scanelf.scan_one` says of a path in the root. -/
inductive Probe
  | missing
  | invalid
  | lib (soname : Option Str)

/-- What the hooks take from elsewhere. -/
structure World where
  isspace : Char → Bool
  isdigit : Char → Bool
  probe : Str → Probe
  /-- The names `apk query --match=provides` gives, over what is installed and over the
  repositories. -/
  installed : Str → List Str
  repository : Str → List Str
  /-- `--installed --match=name,provides` -/
  named : Str → List Str
  /-- The lines of `pkg-config --print-requires --print-requires-private`, unless it fails. -/
  printRequires : Str → Option (List Str)
  /-- `os.lstat`: whether a path is there, unless that raises. -/
  lstat : List Str → Option Bool
  /-- `(dir / name).exists()` -/
  pathExists : List Str → Str → Bool
  isDir : List Str → Bool

/-- A template whose packages are split up. -/
structure Main where
  pkgname : Str
  pkgver : Str
  pkgrel : Str
  pythonVersion : Str
  destdirBase : List Str
  subpkgList : List Str
  /-- With the packages that are split off automatically, in the order of the split. -/
  subpkgAll : List Str
  elfs : List Elf

/-- One of its packages. -/
structure Pkg where
  pkgname : Str
  autopkg : Bool
  stage : Nat
  metaStyle : Bool
  scanrundeps : Bool
  scandevelif : Bool
  scantrigdeps : Bool
  brokenlinks : Bool
  depends : List Str
  installIf : List Str
  ignoreShlibs : List Str
  /-- The patterns, part by part. -/
  skipDependencies : List (List Str)
  brokenSymlinks : List (List Str)
  /-- `*.pc` in the directory of libraries and in the shared one, and whether they exist as
  more than a link. -/
  pcLib : List (Str × Bool)
  pcShare : List (Str × Bool)
  dinit : List Services.Entry
  dinitUser : List Services.Entry
  links : List (List Str × Target)
  /-- Whether there is a `__pycache__`, and bytecode outside of one. -/
  pycache : Bool
  bytecode : Bool
  /-- The versions of the `python3.*` in `usr/lib`. -/
  pythons : List Str

/-- What the hooks work on. -/
structure Deps where
  depends : List Str
  installIf : List Str
  soRequires : List Str
  pcRequires : List Str
  svcRequires : List Str
  deriving DecidableEq

inductive Failure
  | package (e : PkgError)
  | os
  deriving DecidableEq

def raise {α : Type} (message : Str) (hint : Str) : Except Failure α :=
  .error (.package ⟨message, hint⟩)

/-- `_match_skipdep`, where it gives nothing. -/
def Pkg.skipped (pkg : Pkg) (path : List Str) : Bool := pkg.skipDependencies.any (pathMatch path)

/-- `sp.destdir` -/
def Main.destdir (main : Main) (pkgname : Str) : List Str := main.destdirBase ++ [pkgname]

def Main.version (main : Main) : Str := main.pkgver ++ "-r".toList ++ main.pkgrel

/-- The dependency on exactly the package that is built along. -/
def Main.pin (main : Main) (k : Str) : Str := k ++ '=' :: main.version

/-- The loop over the packages found: a plain dependency is replaced. -/
def Main.pinOne (main : Main) (depends : List Str) (k : Str) : List Str :=
  if k ∈ depends then depends.replace k (main.pin k)
  else if main.pin k ∈ depends then depends
  else depends ++ [main.pin k]

def Main.pinAll (main : Main) (depends : List Str) (subpkgDeps : Dict Str Unit) : List Str :=
  subpkgDeps.keys.foldl main.pinOne depends

/-! ## Shared libraries -/

/-- The name a library is found by. -/
def Elf.libName (elf : Elf) : Option Str :=
  match elf.soname with
  | some (c :: soname) => some (c :: soname)
  | _ =>
      let name := elf.path.getLastD []
      if ".so".toList ∈ Provides.suffixes name then some name else none

def Elf.record (curso : Dict Str Str) (elf : Elf) : Dict Str Str :=
  match elf.libName with
  | some soname => curso.set soname elf.pname
  | none => curso

/-- `curso` -/
def Main.curso (main : Main) : Dict Str Str := main.elfs.foldl Elf.record []

/-- The files of the package whose needs count. -/
def Pkg.scannedElfs (main : Main) (pkg : Pkg) : List Elf :=
  main.elfs.filter fun elf => elf.pname == pkg.pkgname && !pkg.skipped elf.path && !elf.foreign

/-- `verify_deps` -/
def Pkg.verifyDeps (main : Main) (pkg : Pkg) : Dict Str Unit :=
  ((pkg.scannedElfs main).flatMap (·.needed)).foldl (fun deps n => deps.set n ()) []

/-- What stands before an exclamation mark and the rest, unless it is in the first place. -/
def cutProvider (dsv : Str) : Str × Str :=
  let exc := dsv.idxOf '!'
  if 0 < exc ∧ exc < dsv.length then (dsv.take exc, dsv.drop exc) else (dsv, [])

def soPath (dvn : Str) : Str :=
  if "/".toList.isPrefixOf dvn then dvn else "/usr/lib/".toList ++ dvn

/-- The path an explicit library is looked for at, and what follows its name. -/
def parseSoname (isdigit : Char → Bool) (dep : Str) : Str × Str :=
  match splitPkgName isdigit (cutProvider dep).1 with
  | some (dvn, dvv, dvop) => (soPath dvn, dvop ++ dvv ++ (cutProvider dep).2)
  | none => (soPath (cutProvider dep).1, (cutProvider dep).2)

/-- A string of a format, where `None` may be. -/
def pyStr (s : Option Str) : Str := s.getD "None".toList

/-- The loop over the `soname:` dependencies, and whether one of them is broken. -/
def resolveLoop (w : World) : Dict Str (Option Str) → List Str → List Str × Bool
  | _, [] => ([], false)
  | socache, dv :: dvs =>
      match "soname:".toList.isPrefixOf? dv with
      | none =>
          let r := resolveLoop w socache dvs
          (dv :: r.1, r.2)
      | some dsv =>
          let (fdvn, rest) := parseSoname w.isdigit dsv
          match socache.get fdvn with
          | some soname =>
              let r := resolveLoop w socache dvs
              (("so:".toList ++ pyStr soname ++ rest) :: r.1, r.2)
          | none =>
              match w.probe fdvn with
              | .lib soname =>
                  let r := resolveLoop w (socache.set fdvn soname) dvs
                  (("so:".toList ++ pyStr soname ++ rest) :: r.1, r.2)
              | _ => (dv :: (resolveLoop w socache dvs).1, true)

/-- Whether there is a package for a library, which a bootstrap may still have to install. -/
def World.soProvided (w : World) (pkg : Pkg) (dep : Str) : Bool :=
  w.installed ("so:".toList ++ dep) != [] ||
    (pkg.stage == 0 && w.repository ("so:".toList ++ dep) != [])

/-- What the second loop of `_scan_so` has found. -/
structure SoScan where
  soRequires : List Str
  subpkgDeps : Dict Str Unit
  broken : Bool

def verifyOne (w : World) (main : Main) (pkg : Pkg) (s : SoScan) (dep : Str) : SoScan :=
  if dep ∈ pkg.ignoreShlibs then s
  else
    match main.curso.get dep with
    | some depn =>
        if depn = pkg.pkgname then s else { s with subpkgDeps := s.subpkgDeps.set depn () }
    | none =>
        if w.soProvided pkg dep then { s with soRequires := s.soRequires ++ [dep] }
        else { s with broken := true }

/-- `_scan_so` -/
def scanSo (w : World) (main : Main) (pkg : Pkg) (d : Deps) : Except Failure Deps :=
  let r := resolveLoop w [] d.depends
  let s := (pkg.verifyDeps main).keys.foldl (verifyOne w main pkg) ⟨[], [], r.2⟩
  if s.broken then raise "Failed scanning shlib dependencies".toList []
  else .ok { d with depends := main.pinAll r.1 s.subpkgDeps, soRequires := s.soRequires }

/-! ## Modules -/

/-- `[<>=]` -/
def isPcOp (c : Char) : Bool := c == '<' || c == '>' || c == '='

/-- `re.sub(r"\s*([<>=]+)\s*", r"\1", ln)`: the blanks read since `after`, an operator or
not, are kept when another thing follows. -/
def tighten (isspace : Char → Bool) (after : Bool) (blanks : Str) : Str → Str
  | [] => if after then [] else blanks
  | c :: ln =>
      if isPcOp c then c :: tighten isspace true [] ln
      else if isspace c then tighten isspace after (blanks ++ [c]) ln
      else (if after then [] else blanks) ++ c :: tighten isspace false [] ln

/-- `_pc_ops` -/
def pcOps : List Str := [['='], ['<'], ['>'], ['<', '='], ['>', '=']]

/-- The module of a constraint. -/
def pcName (ln : Str) : Str := ln.takeWhile fun c => !isPcOp c

def pcQuoted (message ln : Str) : Str := message ++ ln ++ ['\'']

/-- The check of a constraint, after its name. -/
def checkPc (ln : Str) : Except Failure Unit :=
  let constraint := ln.dropWhile fun c => !isPcOp c
  if constraint = [] then .ok ()
  else if constraint.takeWhile isPcOp ∉ pcOps then
    raise (pcQuoted "invalid operator in constraint '".toList ln) []
  else if !versionValidate (constraint.dropWhile isPcOp) then
    raise (pcQuoted "invalid version in constraint '".toList ln) []
  else .ok ()

def pcDirs : List (List Str) := [Provides.usrLibPkgconfig, Provides.usrSharePkgconfig]

/-- Whether a package has the file of a module. -/
def Main.hasPc (w : World) (main : Main) (pkgname pn : Str) : Bool :=
  pcDirs.any fun dir => w.pathExists (main.destdir pkgname ++ dir) (pn ++ ".pc".toList)

def scanPcLine (w : World) (main : Main) (pkg : Pkg) (pcreq : Dict Str Str) (out : Str) :
    Except Failure (Dict Str Str) := do
  let ln := tighten w.isspace false [] out
  checkPc ln
  if main.hasPc w pkg.pkgname (pcName ln) then return pcreq
  return pcreq.set ln (pcName ln)

/-- The files that are asked, by the names of their modules. -/
def Pkg.pcFiles (pkg : Pkg) : List Str :=
  let scanned (dir : List Str) (files : List (Str × Bool)) :=
    (files.filter fun f => f.2 && !pkg.skipped (dir ++ [f.1])).map fun f => Provides.pcStem f.1
  scanned Provides.usrLibPkgconfig pkg.pcLib ++ scanned Provides.usrSharePkgconfig pkg.pcShare

/-- `scan_pc` -/
def scanPcFile (w : World) (main : Main) (pkg : Pkg) (pcreq : Dict Str Str) (stem : Str) :
    Except Failure (Dict Str Str) :=
  match w.printRequires stem with
  | none => raise "failed scanning .pc files".toList
      "maybe you need to put 'pkgconf' in 'hostmakedepends'".toList
  | some lns => lns.foldlM (scanPcLine w main pkg) pcreq

/-- `cli.get_provider` -/
def World.getProvider (w : World) (pkgn : Str) : Option Str := (w.named pkgn).head?

/-- The loop over what is required: each has to have a provider. -/
def requireAll (w : World) (own : Str → Option Str) (virtual : Str → Str)
    (fail : Str → Except Failure (List Str)) : List Str → Except Failure (List Str)
  | [] => .ok []
  | k :: ks =>
      match (own k).or (w.getProvider (virtual k)) with
      | some _ => do
          let requires ← requireAll w own virtual fail ks
          return k :: requires
      | none => fail k

/-- `subpkg_provides_pc` -/
def Main.providesPc (w : World) (main : Main) (pn : Str) : Option Str :=
  main.subpkgList.find? fun sp => main.hasPc w sp pn

/-- pkgconf itself is not scanned. -/
def Main.buildsPkgconf (w : World) (main : Main) (pkg : Pkg) : Bool :=
  w.pathExists (main.destdir pkg.pkgname ++ Provides.usrLibPkgconfig) "libpkgconf.pc".toList

/-- `pcreq[k]` -/
def moduleOf (pcreq : Dict Str Str) (k : Str) : Str := (pcreq.get k).getD []

/-- `_scan_pc` -/
def scanPc (w : World) (main : Main) (pkg : Pkg) (d : Deps) : Except Failure Deps :=
  if main.buildsPkgconf w pkg then .ok d
  else do
    let pcreq ← pkg.pcFiles.foldlM (scanPcFile w main pkg) []
    let pcRequires ← requireAll w (fun k => main.providesPc w (moduleOf pcreq k))
      (fun k => "pc:".toList ++ moduleOf pcreq k)
      (fun k => raise ("  pc: ".toList ++ k ++ " (unknown provider)".toList)
        ("add package providing '".toList ++ k ++ "' to 'makedepends'".toList)) pcreq.keys
    return { d with pcRequires := pcRequires }

/-! ## Services -/

/-- `pkg_provides_svc` -/
def Main.hasSvc (w : World) (main : Main) (pkgname pn : Str) (k : Kind) : Bool :=
  w.pathExists (main.destdir pkgname ++ k.dir) pn

/-- A package for the scan of its services. -/
def Pkg.services (w : World) (main : Main) (pkg : Pkg) : Services.Pkg where
  dinit := pkg.dinit
  dinitUser := pkg.dinitUser
  skipDependencies := pkg.skipDependencies
  provides := fun k sv => main.hasSvc w pkg.pkgname sv k
  subpkgs := main.subpkgAll.map fun sp => (sp, fun k sv => main.hasSvc w sp sv k)
  getProvider := w.getProvider

/-- `_scan_svc` -/
def scanSvc (w : World) (main : Main) (pkg : Pkg) (d : Deps) : Except Failure Deps :=
  match Services.scanSvc (pkg.services w main) pkg.dinit pkg.dinitUser with
  | .ok svcRequires => .ok { d with svcRequires }
  | .error (k, sv) =>
      raise ("  ".toList ++ k.pfx ++ ": ".toList ++ sv ++ " (unknown provider)".toList)
        ("add package providing '".toList ++ sv ++ "' to 'makedepends'".toList)

/-! ## Symlinks -/

/-- `os.path.normpath`, for the parts of an absolute path. -/
def normpath (parts : List Str) : List Str :=
  parts.foldl (fun path c => if c = "..".toList then path.dropLast else path ++ [c]) []

/-- `_exists_link` -/
def World.existsLink (w : World) (path : List Str) : Except Failure Bool :=
  match w.lstat (normpath path) with
  | some there => .ok there
  | none => .error .os

/-- Where a link points to, from the directory of its package. -/
def linkDest (link : List Str × Target) : List Str :=
  if link.2.absolute then link.2.parts else link.1.dropLast ++ link.2.parts

/-- The first package that has a path. -/
def Main.firstWith (w : World) (main : Main) (sdest : List Str) :
    List Str → Except Failure (Option Str)
  | [] => .ok none
  | sp :: sps => do
      if ← w.existsLink (main.destdir sp ++ sdest) then return some sp
      main.firstWith w sdest sps

def pathText (absolute : Bool) (parts : List Str) : Str :=
  let text := pyJoin ['/'] parts
  if absolute then '/' :: text else if text = [] then ['.'] else text

/-- Whether a link may point to nothing. -/
def Pkg.mayBreak (pkg : Pkg) (path : List Str) : Bool :=
  pkg.brokenlinks || pkg.brokenSymlinks.any (pathMatch path)

/-- The loop of `_scan_symlinks`; the main package is looked at last. -/
def scanLink (w : World) (main : Main) (pkg : Pkg) (subpkgDeps : Dict Str Unit)
    (link : List Str × Target) : Except Failure (Dict Str Unit) := do
  if pkg.skipped link.1 then return subpkgDeps
  if ← w.existsLink (main.destdir pkg.pkgname ++ linkDest link) then return subpkgDeps
  match ← main.firstWith w (linkDest link) (main.subpkgAll ++ [main.pkgname]) with
  | some sp => return subpkgDeps.set sp ()
  | none =>
      if pkg.mayBreak link.1 then return subpkgDeps
      raise ("  symlink: ".toList ++ pathText false link.1 ++ " (points to: ".toList ++
          pathText link.2.absolute link.2.parts ++ ", unknown provider)".toList)
        "your symlink probably points to a foreign package".toList

/-- `_scan_symlinks` -/
def scanSymlinks (w : World) (main : Main) (pkg : Pkg) (d : Deps) : Except Failure Deps := do
  let subpkgDeps ← pkg.links.foldlM (scanLink w main pkg) []
  return { d with depends := main.pinAll d.depends subpkgDeps }

/-! ## The hooks -/

/-- `invoke` of `001_runtime_deps.py` -/
def runtimeDeps (w : World) (main : Main) (pkg : Pkg) (d : Deps) : Except Failure Deps :=
  if !pkg.scanrundeps then .ok d
  else if pkg.autopkg then scanSvc w main pkg d
  else do
    let d ← scanSo w main pkg d
    let d ← scanPc w main pkg d
    let d ← scanSymlinks w main pkg d
    scanSvc w main pkg d

def python : Str := "python".toList

/-- `invoke` of `005_py_dep.py` -/
def pyDep (main : Main) (pkg : Pkg) (d : Deps) : Except Failure Deps :=
  if main.pkgname = python ∨ pkg.autopkg = true then .ok d
  else if pkg.pycache then raise "leftover unsplit pycache".toList []
  else if pkg.bytecode then raise "python bytecode outside __pycache__".toList []
  else
    match pkg.pythons with
    | [] => .ok d
    | [pyver] =>
        if pyver ≠ main.pythonVersion then
          raise ("bad python version (".toList ++ pyver ++ [')']) []
        else if main.pkgname = python ++ pyver then .ok d
        else
          let installIf := d.installIf.replace "python-pycache".toList
            ("python-pycache~".toList ++ pyver)
          if python ∈ d.depends then
            .ok { d with depends := d.depends.replace python (python ++ pyver), installIf }
          else
            .ok { d with
              depends := d.depends ++ ["python-python".toList ++ pyver ++ "-meta".toList], installIf }
    | _ => raise "multiple python versions in package".toList []

/-- `matchdeps` -/
def Main.matchdeps (main : Main) (pkg : Pkg) : List Str :=
  (main.pkgname :: main.subpkgList.filter (· ≠ pkg.pkgname)).map main.pin

/-- `invoke` of `006_devel_install_if.py` -/
def develInstallIf (main : Main) (pkg : Pkg) (d : Deps) : Deps :=
  if main.pkgname = pkg.pkgname ∨ pkg.autopkg = true ∨ d.installIf ≠ [] ∨ pkg.scandevelif = false ∨
      "-devel".toList.isSuffixOf pkg.pkgname = false ∨ pkg.pkgname = "base-devel".toList then d
  else
    let iif := d.depends.filter (· ∈ main.matchdeps pkg)
    if iif = [] then d else { d with installIf := iif ++ ["base-devel".toList] }

/-- `_trigdeps` -/
def trigdeps : List (List Str × Str) :=
  [(["etc".toList, "ca-certificates".toList, "update.d".toList], "ca-certificates".toList),
    (["usr".toList, "share".toList, "ca-certificates".toList], "ca-certificates".toList)]

/-- `invoke` of `007_trigger_deps.py` -/
def triggerDeps (w : World) (main : Main) (pkg : Pkg) (d : Deps) : Deps :=
  if pkg.scantrigdeps = false ∨ pkg.autopkg = true then d
  else
    let deps := (trigdeps.filter fun t => w.isDir (main.destdir pkg.pkgname ++ t.1) &&
      t.2 != pkg.pkgname).map Prod.snd
    let depl := deps.filter (· ∉ d.depends)
    -- several paths may add the same dependency
    let depset : Dict Str Unit := depl.foldl (fun depset dep => depset.set dep ()) []
    { d with depends := d.depends ++ depset.keys }

/-- The hooks of `pkg` that have a say in this, in their order. -/
def hooks (w : World) (main : Main) (pkg : Pkg) : Except Failure Deps := do
  let d ← runtimeDeps w main pkg ⟨pkg.depends, pkg.installIf, [], [], []⟩
  let d ← pyDep main pkg d
  return triggerDeps w main pkg (develInstallIf main pkg d)

/-- An explicit dependency as apk gets it. -/
def forApk (c : Str) : Str := removePrefix "virtual:".toList (cutProvider c).1

/-- The dependencies of `_get_new_deps`. -/
def newDeps (pkg : Pkg) (d : Deps) : List Str :=
  Provides.sorted ((if "-bootstrap".toList.isSuffixOf pkg.pkgname && !pkg.metaStyle then
      ["bootstrap:cbuild".toList] else []) ++
    d.depends.map forApk ++
    (Provides.sorted d.soRequires).map ("so:".toList ++ ·) ++
    (Provides.sorted d.pcRequires).map ("pc:".toList ++ ·) ++
    Provides.sorted d.svcRequires)

end Cbuild.RuntimeDeps
