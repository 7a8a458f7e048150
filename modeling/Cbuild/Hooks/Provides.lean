import Cbuild.Apk.Token
import Cbuild.Lib.Dict
import Cbuild.Lib.Fnmatch
import Cbuild.Lib.Traverse
import Mathlib

/-! # What a package provides

`002_provides.py` scans a package for commands, pkg-config modules, shared libraries
and services, and `_get_new_deps` of `generate.py` puts the explicit provides and
those of the four scanners into one list for apk. The scanners leave out what is
explicit; each keeps its own record of that.
-/

namespace Cbuild.Provides

open Lib Apk

/-- One of `current_elfs`, as far as it is looked at. -/
structure Elf where
  path : List Str
  soname : Option Str
  pname : Str
  foreign : Bool

/-- A package whose files are in place. -/
structure Pkg where
  pkgname : Str
  /-- The name of the main package. -/
  rpkgname : Str
  pkgver : Str
  pkgrel : Str
  alternative : Bool
  autopkg : Bool
  stage : Nat
  scancmd : Bool
  scanpkgconf : Bool
  scanshlibs : Bool
  scanservices : Bool
  provides : List Str
  renames : List Str
  /-- The patterns of `skip_providers`, part by part. -/
  skipProviders : List (List Str)
  /-- `usr/bin` -/
  bin : List Str
  bin_nodup : bin.Nodup
  /-- `*.pc` in `usr/lib/pkgconfig` and in `usr/share/pkgconfig`, and whether they exist as
  more than a link. -/
  pcLib : List (Str × Bool)
  pcShare : List (Str × Bool)
  elfs : List Elf
  /-- `usr/lib/dinit.d` and `usr/lib/dinit.d/user`, and what of it is a file. -/
  dinit : List (Str × Bool)
  dinit_nodup : (dinit.map Prod.fst).Nodup
  dinitUser : List (Str × Bool)
  dinitUser_nodup : (dinitUser.map Prod.fst).Nodup

/-- What the hook takes from elsewhere. -/
structure Tools where
  /-- `\w` and `\d` of the regular expressions. -/
  isWord : Char → Bool
  isDigit : Char → Bool
  /-- The lines `pkg-config --print-provides` prints for a module in a directory, unless it
  fails. -/
  printProvides : List Str → Str → Option (List Str)

/-- `list.sort` for strings. -/
def sorted (l : List Str) : List Str := l.mergeSort fun a b => decide (a ≤ b)

/-! ## Explicit names -/

/-- The explicit provides of a kind, without the prefix. -/
def explicit (pfx : Str) (provides : List Str) : List Str := provides.filterMap pfx.isPrefixOf?

/-- The name of an entry, which may come with a version. -/
def cutVersion (name : Str) : Str := name.takeWhile (· ≠ '=')

/-- The name an explicit command or service is known by. -/
def unversioned (name : Str) : Str := if name.head? = some '=' then name else cutVersion name

/-- `cmdset` -/
def Pkg.cmdset (pkg : Pkg) : List Str := (explicit "cmd:".toList pkg.provides).map unversioned

/-- `svcset`, in which both kinds of services go by their plain names. -/
def Pkg.svcset (pkg : Pkg) : List Str :=
  (pkg.provides.filterMap fun p =>
    ("svc:".toList.isPrefixOf? p).or ("usvc:".toList.isPrefixOf? p)).map unversioned

/-- `pcset` and `soset`; what comes without a version is an error. -/
def versioned (names : List Str) : Option (List Str) :=
  names.mapM fun name => if '=' ∈ name then some (cutVersion name) else none

/-! ## Scanners -/

/-- `_match_skipprov` -/
def Pkg.skipped (pkg : Pkg) (path : List Str) : Bool := pkg.skipProviders.any (pathMatch path)

def forbidden (name : Str) : Bool := name.any "[]=<>~".toList.contains

/-- The version of scanned commands and services. -/
def Pkg.version (pkg : Pkg) : Str :=
  if pkg.alternative then "=0".toList else '=' :: pkg.pkgver ++ "-r".toList ++ pkg.pkgrel

def usrBin : List Str := ["usr".toList, "bin".toList]

/-- The commands in `usr/bin`. -/
def Pkg.foundCmds (pkg : Pkg) : List Str :=
  if !pkg.scancmd || pkg.autopkg then []
  else pkg.bin.filter fun f => !pkg.skipped (usrBin ++ [f]) && !forbidden f

/-- `_invoke_cmd` -/
def invokeCmd (pkg : Pkg) : List Str :=
  sorted ((pkg.foundCmds.filter (· ∉ pkg.cmdset)).map (· ++ pkg.version))

/-- `ln.split(" = ")`, `cur` being what has been read of the first part. -/
def splitEq (cur : Str) : Str → List Str
  | ' ' :: '=' :: ' ' :: s => cur :: splitEq [] s
  | c :: s => splitEq (cur ++ [c]) s
  | [] => [cur]

def preRelease : List Str := ["alpha".toList, "beta".toList, "rc".toList, "pre".toList]

/-- `re.sub(r"-(alpha|beta|rc|pre)", "_\\1", mver)` -/
def sanitizeVer : Str → Str
  | [] => []
  | c :: s => (if c = '-' ∧ preRelease.any (·.isPrefixOf s) then '_' else c) :: sanitizeVer s

/-- The version of a module, unless apk does not accept it. -/
def Pkg.moduleVer (pkg : Pkg) (mver : Str) : Option Str :=
  let mver := sanitizeVer mver
  if mver = [] ∨ pkg.alternative = true then some "0".toList
  else if versionValidate mver then some mver
  else none

/-- One line of `pkg-config`. -/
def scanLine (pkg : Pkg) (pcset : List Str) (pcs : Dict Str Str) (ln : Str) :
    Option (Dict Str Str) :=
  match splitEq [] ln with
  | [pname, mver] => (pkg.moduleVer mver).map fun mver =>
      if pname ∈ pcset then pcs else pcs.set pname (pname ++ '=' :: mver)
  | _ => none

/-- `v.stem` of a file that ends in `.pc`. -/
def pcStem (f : Str) : Str := if f.length = 3 then f else f.take (f.length - 3)

/-- The files that are asked for their modules. -/
def Pkg.scanned (pkg : Pkg) (dir : List Str) (files : List (Str × Bool)) : List (List Str × Str) :=
  (files.filter fun f => f.2 && !pkg.skipped (dir ++ [f.1])).map fun f => (dir, f.1)

/-- `scan_pc`, for a file that is asked. -/
def scanPc (tools : Tools) (pkg : Pkg) (pcset : List Str) (pcs : Dict Str Str)
    (f : List Str × Str) : Option (Dict Str Str) :=
  if pcStem f.2 ∈ pcs.keys then none
  else (tools.printProvides f.1 (pcStem f.2)).bind fun lns => lns.foldlM (scanLine pkg pcset) pcs

def usrLibPkgconfig : List Str := ["usr".toList, "lib".toList, "pkgconfig".toList]

def usrSharePkgconfig : List Str := ["usr".toList, "share".toList, "pkgconfig".toList]

def Pkg.pcFiles (pkg : Pkg) : List (List Str × Str) :=
  if !pkg.scanpkgconf || pkg.stage == 0 || pkg.autopkg then []
  else pkg.scanned usrLibPkgconfig pkg.pcLib ++ pkg.scanned usrSharePkgconfig pkg.pcShare

/-- `_invoke_pc` -/
def invokePc (tools : Tools) (pkg : Pkg) : Option (List Str) :=
  if !pkg.scanpkgconf || pkg.stage == 0 || pkg.autopkg then some []
  else (versioned (explicit "pc:".toList pkg.provides)).bind fun pcset =>
    (pkg.pcFiles.foldlM (scanPc tools pkg pcset) []).map Dict.values

/-- `(\.\d+)*$`, within a number or not. -/
def soVersion (isDigit : Char → Bool) (digits : Bool) : Str → Bool
  | [] => true
  | ['\n'] => true
  | '.' :: c :: s => isDigit c && soVersion isDigit true s
  | c :: s => digits && isDigit c && soVersion isDigit digits s

/-- `(.*)+\.so(\.\d+)*$` -/
def soEnd (isDigit : Char → Bool) : Str → Bool
  | [] => false
  | c :: s => (".so".toList.isPrefixOf (c :: s) && soVersion isDigit false (s.drop 2)) ||
      (c ≠ '\n' && soEnd isDigit s)

/-- `re.match(r"^\w+(.*)+\.so(\.\d+)*$", soname)` -/
def Tools.isSoname (tools : Tools) : Str → Bool
  | [] => false
  | c :: s => tools.isWord c && soEnd tools.isDigit s

/-- `re.search(r"\d+$", soname)` -/
def Tools.endsInDigit (tools : Tools) (soname : Str) : Bool :=
  match soname.reverse with
  | [] => false
  | c :: s => tools.isDigit (if c = '\n' then s.headD c else c)

def usrLib : List Str := ["usr".toList, "lib".toList]

/-- `_matches_lib` -/
def Tools.matchesLib (tools : Tools) (soname : Str) (root : List Str) : Bool :=
  tools.isSoname soname && (tools.endsInDigit soname || root == usrLib)

/-- `fp.suffixes` -/
def suffixes (name : Str) : List Str :=
  if name.getLast? = some '.' then []
  else (((name.dropWhile (· = '.')).splitOn '.').drop 1).map ('.' :: ·)

/-- The version in a file name, from behind the first `.so` on. -/
def autosfx (name : Str) : Str :=
  let sfx := ((((suffixes name).dropWhile (· ≠ ".so".toList)).drop 1).flatten).drop 1
  if sfx = [] then "0".toList else sfx

/-- The soname of a library that is the package's own, with the version of the file. -/
def ownLib (tools : Tools) (pkg : Pkg) (elf : Elf) : Option (Str × Str) :=
  if elf.pname ≠ pkg.pkgname ∨ pkg.skipped elf.path = true ∨ elf.foreign = true then none
  else elf.soname.bind fun soname =>
    if tools.matchesLib soname elf.path.dropLast then
      some (soname, autosfx (elf.path.getLastD []))
    else none

def Pkg.foundLibs (pkg : Pkg) (tools : Tools) : List (Str × Str) :=
  if !pkg.scanshlibs || pkg.autopkg then [] else pkg.elfs.filterMap (ownLib tools pkg)

/-- `_invoke_so` -/
def invokeSo (tools : Tools) (pkg : Pkg) : Option (List (Str × Str)) :=
  if !pkg.scanshlibs || pkg.autopkg then some []
  else (versioned (explicit "so:".toList pkg.provides)).bind fun soset =>
    if (pkg.foundLibs tools).all fun lib => lib.2 = "0".toList || versionValidate lib.2 then
      some (((pkg.foundLibs tools).filter fun lib => lib.1 ∉ soset).map fun lib =>
        (lib.1, if pkg.alternative then "0".toList else lib.2))
    else none

def usrLibDinit : List Str := ["usr".toList, "lib".toList, "dinit.d".toList]

def usrLibDinitUser : List Str := usrLibDinit ++ ["user".toList]

/-- The services among the entries of a directory. -/
def Pkg.services (pkg : Pkg) (dir : List Str) (entries : List (Str × Bool)) : List Str :=
  if !pkg.scanservices || (pkg.autopkg && !"-dinit".toList.isSuffixOf pkg.pkgname) then []
  else (entries.filter fun f => f.2 && !pkg.skipped (dir ++ [f.1]) && !forbidden f.1).map Prod.fst

/-- For `dinit-chimera` only the targets count. -/
def Pkg.foundSvcs (pkg : Pkg) : List Str :=
  pkg.services usrLibDinit (pkg.dinit.filter fun f =>
    pkg.rpkgname ≠ "dinit-chimera".toList || ".target".toList.isSuffixOf f.1)

def Pkg.foundUsvcs (pkg : Pkg) : List Str := pkg.services usrLibDinitUser pkg.dinitUser

/-- `_scan_svc`, for the services of one directory. -/
def scanSvc (pkg : Pkg) (pfx : Str) (found : List Str) : List Str :=
  (found.filter fun f => pfx ++ f ∉ pkg.svcset).map fun f => pfx ++ f ++ pkg.version

/-- `_invoke_svc` -/
def invokeSvc (pkg : Pkg) : List Str :=
  sorted (scanSvc pkg "svc:".toList pkg.foundSvcs ++ scanSvc pkg "usvc:".toList pkg.foundUsvcs)

/-- What the hook leaves in the package. -/
structure Scanned where
  cmdProvides : List Str
  pcProvides : List Str
  asoProvides : List (Str × Str)
  svcProvides : List Str

/-- `invoke` -/
def invoke (tools : Tools) (pkg : Pkg) : Option Scanned :=
  (invokePc tools pkg).bind fun pcs => (invokeSo tools pkg).map fun asonames =>
    ⟨invokeCmd pkg, pcs, asonames, invokeSvc pkg⟩

/-! ## The list for apk -/

/-- A name a package has had, with a version. -/
def Pkg.rename (pkg : Pkg) (ren : Str) : Str :=
  if '=' ∈ ren then ren else ren ++ '=' :: pkg.pkgver ++ "-r".toList ++ pkg.pkgrel

/-- What is provided without a scan: the package an alternative is for, the explicit provides
and the old names. -/
def Pkg.unscanned (pkg : Pkg) (origin : Str) : List Str :=
  (if pkg.alternative then [origin ++ "=0".toList] else []) ++ pkg.provides ++
    pkg.renames.map pkg.rename

/-- The provides of `_get_new_deps`. -/
def newProvides (pkg : Pkg) (origin : Str) (s : Scanned) : List Str :=
  sorted (pkg.unscanned origin ++
    (s.asoProvides.mergeSort fun a b => decide (a.1 ≤ b.1)).map (fun x =>
      "so:".toList ++ x.1 ++ '=' :: x.2) ++
    (sorted s.pcProvides).map ("pc:".toList ++ ·) ++
    (sorted s.cmdProvides).map ("cmd:".toList ++ ·) ++ s.svcProvides)

/-- The provides apk gets for a package, unless a scan fails. -/
def passed (tools : Tools) (pkg : Pkg) (origin : Str) : Option (List Str) :=
  (invoke tools pkg).map (newProvides pkg origin)

end Cbuild.Provides
