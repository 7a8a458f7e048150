import Cbuild.Apk.Token
import Cbuild.Lib.Make
import Mathlib

/-! # Recipe lines for `apk mkpkg` and `strip`

`_get_cmdline` and the last recipe of `gen_mkpkg` in `cbuild/apk/generate.py`, and
`strip_attach` in `cbuild/util/strip.py`. The metadata that other functions
compute (dependencies, providers, the state directory) are fields of `Package`.
-/

namespace Cbuild.Apk

open Lib

/-! ## Strings -/

/-- `sep.join(parts)`. -/
def pyJoin (sep : Str) (parts : List Str) : Str := sep.intercalate parts

def pyInt10 (n : Int) : Str := (toString n).toList

/-- `str.removeprefix`. -/
def removePrefix (p s : Str) : Str := if p.isPrefixOf s then s.drop p.length else s

/-- `str(PurePosixPath(s))`. -/
def purePath (s : Str) : Str :=
  let root : Str :=
    if "//".toList.isPrefixOf s ∧ ¬ "///".toList.isPrefixOf s then "//".toList
    else if "/".toList.isPrefixOf s then "/".toList
    else []
  let parts := (s.splitOn '/').filter fun c => c ≠ [] ∧ c ≠ ['.']
  let path := root ++ pyJoin ['/'] parts
  if path = [] then ['.'] else path

/-- `str(base / s)`. -/
def pathDiv (base s : Str) : Str :=
  if "/".toList.isPrefixOf s then purePath s else purePath (base ++ '/' :: s)

/-- `PurePath.suffix`, of a file name. -/
def pathSuffix (name : Str) : Str :=
  let suffix := (name.reverse.takeWhile (· ≠ '.')).reverse
  if suffix ≠ [] ∧ suffix.length + 1 < name.length then '.' :: suffix else []

/-! ## Packages -/

structure Package where
  pkgname : Str
  pkgver : Str
  pkgrel : Int
  pkgdesc : Str
  subdesc : Str
  license : Str
  origin : Str
  alternative : Str
  /-- Of the template. -/
  maintainer : Str
  url : Str
  sourceDateEpoch : Int
  gitRevision : Str
  gitDirty : Bool
  stage : Nat
  providerPriority : Int
  replacesPriority : Int
  triggers : List Str
  /-- The names of the regular files in `statedir / "scripts"`. -/
  scripts : List Str
  chrootStatedir : Str
  chrootDestdir : Str
  compression : Str
  /-- The path of the signing key and its last component. -/
  signkey : Option (Str × Str)

/-- What `_get_new_deps` returns. -/
structure NewDeps where
  deps : List Str
  provides : List Str
  replaces : List Str
  installIf : List Str

/-- `pkg.error`, with its hint. -/
structure PkgError where
  message : Str
  hint : Str
  deriving DecidableEq

def info (key : String) (value : Str) : List Str :=
  ["--info".toList, key.toList ++ ':' :: value]

/-- A field that is left out if its list is empty. -/
def infoList (key : String) (values : List Str) : List Str :=
  if values ≠ [] then info key (pyJoin [' '] values) else []

/-- A field that is left out unless it is positive. -/
def infoPositive (key : String) (n : Int) : List Str :=
  if n > 0 then info key (pyInt10 n) else []

def scriptSuffixes : List Str := [".trigger".toList]

/-- The suffixes of the scripts of the package, without their dot. -/
def scriptList (pkg : Package) : List Str :=
  ((pkg.scripts.filter fun f =>
    (pkg.pkgname ++ ['.']).isPrefixOf f && scriptSuffixes.contains (pathSuffix f)).map
      fun f => (pathSuffix f).drop 1).mergeSort fun a b => decide (a ≤ b)

def scriptArgs (pkg : Package) : List Str :=
  (scriptList pkg).flatMap fun f =>
    ["--script".toList,
      f ++ ':' :: pathDiv pkg.chrootStatedir ("scripts/".toList ++ pkg.pkgname ++ '.' :: f)]

def triggerArgs : List Str → Except PkgError (List Str)
  | [] => .ok []
  | t :: ts =>
      if "/".toList.isPrefixOf (removePrefix "+".toList t) then do
        let rest ← triggerArgs ts
        return "--trigger".toList :: t :: rest
      else .error ⟨"invalid trigger path: ".toList ++ t,
        "trigger declarations require absolute paths".toList⟩

def signArgs (pkg : Package) : List Str :=
  match pkg.signkey with
  | none => []
  | some (path, name) =>
      if pkg.stage > 0 then ["--sign-key".toList, "/tmp/".toList ++ name]
      else ["--sign-key".toList, path]

/-- A generic preset, by what the user has set for all packages. -/
def compressionPreset (comp dcomp : Str) : Str :=
  if comp = "fast".toList then
    if "zstd".toList.isPrefixOf dcomp then "zstd:3".toList
    else if "deflate".toList.isPrefixOf dcomp then "deflate:3".toList
    else comp
  else if comp = "slow".toList then
    if "zstd".toList.isPrefixOf dcomp then "zstd:19".toList
    else if "deflate".toList.isPrefixOf dcomp then "deflate:9".toList
    else comp
  else if comp = "zstd:fast".toList then "zstd:3".toList
  else if comp = "zstd:slow".toList then "zstd:19".toList
  else if comp = "deflate:fast".toList then "deflate:3".toList
  else if comp = "deflate:slow".toList then "deflate:9".toList
  else comp

def compressionArg (pkg : Package) (dcomp : Str) : Str :=
  if (pkg.stage > 1 ∧ pkg.compression ≠ []) ∨ pkg.compression = "none".toList then
    compressionPreset pkg.compression dcomp
  else if pkg.stage < 2 then "deflate".toList
  else dcomp

/-- `_get_cmdline`; `dcomp` is `autil.get_compression()`. -/
def getCmdline (pkg : Package) (arch origin desc dcomp : Str) (new : NewDeps) :
    Except PkgError (List Str) := do
  let triggers ← triggerArgs pkg.triggers
  return info "name" pkg.pkgname ++
    info "version" (pkg.pkgver ++ "-r".toList ++ pyInt10 pkg.pkgrel) ++
    info "description" desc ++
    info "arch" arch ++
    info "license" pkg.license ++
    info "origin" origin ++
    info "maintainer" pkg.maintainer ++
    info "url" pkg.url ++
    info "build-time" (pyInt10 pkg.sourceDateEpoch) ++
    (if pkg.gitRevision ≠ [] ∧ pkg.gitDirty = false then info "repo-commit" pkg.gitRevision
      else []) ++
    infoList "depends" new.deps ++
    infoList "provides" new.provides ++
    infoPositive "provider-priority" pkg.providerPriority ++
    infoList "replaces" new.replaces ++
    infoPositive "replaces-priority" pkg.replacesPriority ++
    infoList "install-if" new.installIf ++
    scriptArgs pkg ++ triggers ++ signArgs pkg ++
    ["--compression".toList, compressionArg pkg dcomp]

/-- The rest of what `gen_mkpkg` is given or reads from its surroundings. -/
structure MkpkgJob where
  pkg : Package
  arch : Str
  new : NewDeps
  /-- Of an automatic package, else empty. -/
  adesc : Str
  dcomp : Str
  /-- `paths.apk()`. -/
  apk : Str
  /-- The package file as the container sees it. -/
  cbpath : Str

def withNote (desc note : Str) : Str :=
  if note ≠ [] then desc ++ " (".toList ++ note ++ [')'] else desc

def MkpkgJob.origin (j : MkpkgJob) : Str :=
  if j.pkg.alternative ≠ [] then "alt:".toList ++ j.pkg.alternative else j.pkg.origin

def MkpkgJob.desc (j : MkpkgJob) : Str :=
  withNote (withNote j.pkg.pkgdesc j.pkg.subdesc) j.adesc

/-- The program the recipe runs. -/
def MkpkgJob.program (j : MkpkgJob) : Str := if j.pkg.stage > 0 then "apk".toList else j.apk

/-- The arguments of the program. -/
def MkpkgJob.args (j : MkpkgJob) : Except PkgError (List Str) := do
  let pargs ← getCmdline j.pkg j.arch j.origin j.desc j.dcomp j.new
  return "mkpkg".toList :: "--files".toList :: j.pkg.chrootDestdir :: "--output".toList ::
    j.cbpath :: pargs

/-- The last recipe line of `gen_mkpkg`. -/
def genMkpkg (j : MkpkgJob) : Except PkgError Str := do
  let args ← j.args
  return shellJoin (('@' :: j.program) :: args)

/-! ## Stripping -/

structure StripJob where
  stage : Nat
  /-- Debug packages are split off. -/
  doSplit : Bool
  noSplit : List Str
  stripList : List Str
  chrootDestdir : Str
  /-- `get_tool("STRIP")`. -/
  stripTool : Str

/-- `[\s/.]`, over the whitespace of Python's `str`. -/
def isRulePunctuation (c : Char) : Bool :=
  c = '/' || c = '.' || (0x9 ≤ c.toNat && c.toNat ≤ 0xD) || (0x1C ≤ c.toNat && c.toNat ≤ 0x20) ||
    (0x2000 ≤ c.toNat && c.toNat ≤ 0x200A) ||
    [0x85, 0xA0, 0x1680, 0x2028, 0x2029, 0x202F, 0x205F, 0x3000].contains c.toNat

/-- The name of the rule for a file. -/
def stripRule (mkp : Str) : Str := mkp.map fun c => if isRulePunctuation c then '_' else c

/-- `cmdl`, the strip command of a file. -/
def StripJob.command (j : StripJob) (mkp : Str) : Str × List Str :=
  if j.stage > 0 then
    ("strip-split".toList, (if j.doSplit && !j.noSplit.contains mkp then ["-d".toList] else []) ++
      [j.chrootDestdir, mkp])
  else ("/usr/bin/".toList ++ j.stripTool, ["--strip-debug".toList, pathDiv j.chrootDestdir mkp])

/-- `strip_attach`: the rules of the makefile, each with its recipe line, in order. -/
def stripAttach (j : StripJob) : List (Str × Str) :=
  (j.stripList.mergeSort fun a b => decide (a ≤ b)).map fun mkp =>
    (stripRule mkp, shellJoin ((j.command mkp).1 :: (j.command mkp).2))

end Cbuild.Apk
