import Cbuild.Build.Source
import Cbuild.Lib.Interrupt
import Mathlib.Logic.Function.Basic

/-! # Builds that are resumed

What a build of a template leaves on the disk and finds there: the stamps of its state directory,
its source directory and its destination directories. A build may be interrupted, or fail, before
any of its steps; a dirty one goes on from there. The builds of dependencies, which have
directories of their own, are left out.
-/

namespace Cbuild.Resume

open Lib Build

/-! ## The disk -/

abbrev Ver : Type := Str

/-- `crossb`: the architecture of a cross build, nothing for a native one. -/
abbrev Target : Type := Option Arch

inductive Stamp
  /-- `{pkgname}_{crossb}_{phase}_done` of the template -/
  | phase (p : Phase) (crossb : Target)
  /-- `{pkgname}_{crossb}_prepkg_done` of one of its packages -/
  | prepkg (pkgname : Str) (crossb : Target)
  deriving DecidableEq

/-- A source directory. -/
structure Tree where
  /-- The phases that have worked in it, and for which targets. -/
  works : List (Phase × Target)
  /-- It is not empty. -/
  files : Bool

structure Disk where
  /-- `statedir`, whose name has no version -/
  stamps : Stamp → Bool
  /-- `srcdir`, whose name has no target -/
  src : Ver → Option Tree
  /-- `destdir_base` is a directory. -/
  base : Ver → Target → Bool
  /-- `destdir` of a package, if it is a directory, and whether it has been filled -/
  dest : Ver → Target → Str → Option Bool
  /-- The files in `destdir` of a package, if it is a directory -/
  files : Ver → Target → Str → List Str

namespace Disk

def empty : Disk :=
  ⟨fun _ => false, fun _ => none, fun _ _ => false, fun _ _ _ => none, fun _ _ _ => []⟩

def setStamp (d : Disk) (s : Stamp) (done : Bool) : Disk :=
  { d with stamps := Function.update d.stamps s done }

@[simp] theorem setStamp_self (d : Disk) (s : Stamp) (done : Bool) :
    (d.setStamp s done).stamps s = done := Function.update_self ..

theorem setStamp_of_ne (d : Disk) {s s' : Stamp} (h : s' ≠ s) (done : Bool) :
    (d.setStamp s done).stamps s' = d.stamps s' := Function.update_of_ne h ..

@[simp] theorem setStamp_prepkg (d : Disk) (p : Phase) (c c' : Target) (q : Str) (done : Bool) :
    (d.setStamp (.phase p c) done).stamps (.prepkg q c') = d.stamps (.prepkg q c') :=
  d.setStamp_of_ne (by simp) done

@[simp] theorem setStamp_phase (d : Disk) (p : Phase) (c c' : Target) (q : Str) (done : Bool) :
    (d.setStamp (.prepkg q c) done).stamps (.phase p c') = d.stamps (.phase p c') :=
  d.setStamp_of_ne (by simp) done

def clearStamps (d : Disk) : Disk := { d with stamps := fun _ => false }

def setSrc (d : Disk) (ver : Ver) (t : Option Tree) : Disk :=
  { d with src := Function.update d.src ver t }

/-- A phase works in the source directory. -/
def work (d : Disk) (ver : Ver) (p : Phase) (crossb : Target) (leaves : Bool) : Disk :=
  let t := (d.src ver).getD ⟨[], false⟩
  d.setSrc ver (some ⟨t.works ++ [(p, crossb)], t.files || leaves⟩)

def setDest (d : Disk) (ver : Ver) (crossb : Target) (pkgname : Str) (x : Option Bool) : Disk :=
  { d with
    base := fun v c =>
      if x.isSome && decide (v = ver ∧ (c = crossb ∨ c = none)) then true else d.base v c
    dest := fun v c p => if v = ver ∧ c = crossb ∧ p = pkgname then x else d.dest v c p }

/-- The files that a package has. -/
def held (d : Disk) (ver : Ver) (crossb : Target) (pkgname : Str) : List Str :=
  if (d.dest ver crossb pkgname).isSome then d.files ver crossb pkgname else []

def hold (d : Disk) (ver : Ver) (crossb : Target) (pkgname : Str) (fs : List Str) : Disk :=
  { d with
    files := fun v c p => if v = ver ∧ c = crossb ∧ p = pkgname then fs else d.files v c p }

def fill (d : Disk) (ver : Ver) (crossb : Target) (pkgname : Str) (filled : Bool)
    (fs : List Str) : Disk :=
  (d.setDest ver crossb pkgname (some filled)).hold ver crossb pkgname fs

@[simp] theorem fill_stamps (d : Disk) (ver : Ver) (c : Target) (p : Str) (x : Bool)
    (fs : List Str) : (d.fill ver c p x fs).stamps = d.stamps := rfl

theorem fill_dest (d : Disk) (ver : Ver) (c : Target) (p q : Str) (x : Bool) (fs : List Str) :
    (d.fill ver c p x fs).dest ver c q = if q = p then some x else d.dest ver c q := by
  simp [fill, hold, setDest]

theorem held_fill (d : Disk) (ver : Ver) (c : Target) (p q : Str) (x : Bool) (fs : List Str) :
    (d.fill ver c p x fs).held ver c q = if q = p then fs else d.held ver c q := by
  by_cases hq : q = p
  · simp [held, fill, hold, setDest, hq]
  · simp [held, fill, hold, setDest, hq]

theorem held_hold (d : Disk) {ver : Ver} {c : Target} {p : Str} (h : (d.dest ver c p).isSome = true)
    (q : Str) (fs : List Str) :
    (d.hold ver c p fs).held ver c q = if q = p then fs else d.held ver c q := by
  by_cases hq : q = p
  · subst hq
    simp [held, hold, h]
  · simp [held, hold, hq]

/-- `destdir_base` is being removed: what is still there is not what an install has made. -/
def breakBase (d : Disk) (ver : Ver) (crossb : Target) : Disk :=
  { d with
    dest := fun v c p =>
      if v = ver ∧ (c = crossb ∨ crossb = none) then (d.dest v c p).map fun _ => false
      else d.dest v c p }

/-- `destdir_base` is removed. That of native builds has those of cross builds in it. -/
def removeBase (d : Disk) (ver : Ver) (crossb : Target) : Disk :=
  { d with
    base := fun v c => if v = ver ∧ (c = crossb ∨ crossb = none) then false else d.base v c
    dest := fun v c p => if v = ver ∧ (c = crossb ∨ crossb = none) then none else d.dest v c p }

def removeDests (d : Disk) : Disk := { d with base := fun _ _ => false, dest := fun _ _ _ => none }

end Disk

/-! ## Cleaning up -/

/-- Where a build is. -/
inductive Place
  /-- About to remove what an earlier build has left. -/
  | start
  /-- It has removed some of that. -/
  | wiping
  | setup
  | phase (p : Phase)
  /-- It has returned, having run the phase it was asked for. -/
  | stopped (p : Phase)
  /-- About to remove the destination directory. -/
  | cleaning
  /-- It has removed some of it, but not the stamp of the install. -/
  | cleaned
  | install
  | prepkg
  | gen
  /-- About to remove what the build has left. -/
  | cleanup
  /-- It has removed some of that. -/
  | leaving
  deriving DecidableEq

abbrev Job (α : Type) : Type := Proc Place Disk α

/-- A build of the template, with what the template makes of it. -/
structure Cfg where
  crossb : Target
  /-- `stage == 0` -/
  bootstrap : Bool
  dirty : Bool
  keepTemp : Bool
  /-- `force_mode` -/
  force : Bool
  step : Phase
  /-- `builddir()` is `bldroot()`. -/
  inRoot : Bool
  ownFetch : Bool
  ownExtract : Bool
  prepareAfterPatch : Bool
  /-- The checks are enabled and not skipped. -/
  runCheck : Bool
  /-- Whether a phase leaves files in the source directory. -/
  leaves : Phase → Bool
  subpkgList : List Str
  /-- The automatic packages that `_split_auto` makes for a package. -/
  autopkgs : Str → List Str
  /-- The files that an install gives to a package. -/
  files : Str → List Str
  /-- The directories that `file_modes` asks for, each with whether its parents are made. -/
  emptyDirs : Str → List Bool

/-- The automatic package is given files. -/
def Cfg.taken (cfg : Cfg) (a : Str) : Bool := cfg.files a ≠ []

section

variable (pkgname : Str) (ver : Ver) (cfg : Cfg)

/-- `remove_pkg_wrksrc`; while it is at work the tree is not what any phase has made. -/
def removePkgWrksrc (before during : Place) : Job Unit := do
  let d ← Proc.look
  Proc.when (d.src ver).isSome do
    Proc.step before fun d => d.setSrc ver (some ⟨[], true⟩)
    Proc.step during fun d => d.setSrc ver none

/-- `remove_pkg` -/
def removePkg (before after : Place) : Job Unit := do
  let d ← Proc.look
  Proc.when (d.dest ver cfg.crossb pkgname).isSome do
    (pkgname :: cfg.subpkgList).forM fun p =>
      Proc.step before fun d => d.setStamp (.prepkg p cfg.crossb) false
    Proc.step before fun d => d.breakBase ver cfg.crossb
    Proc.step after fun d => d.removeBase ver cfg.crossb
    Proc.step after fun d => d.setStamp (.phase .install cfg.crossb) false

/-- `remove_pkg_statedir` -/
def removePkgStatedir (during : Place) : Job Unit := Proc.step during Disk.clearStamps

/-- `cleanup_world`; at stage 0 it removes all of the build root but `builddir`. -/
def cleanupWorld (during : Place) : Job Unit :=
  Proc.when (cfg.bootstrap && cfg.inRoot) (Proc.step during Disk.removeDests)

/-! ## The phases -/

/-- `_step_sentinel` -/
def sentinel (p : Phase) : Job Unit := Proc.when (cfg.step = p) (throw (.stopped p))

/-- `invoke_configure` and the like. Only some phases are run again when they are asked for. -/
def invokePhase (p : Phase) : Job Unit := do
  let again := cfg.force && decide (cfg.step = p ∧ p ∈ [Phase.configure, .build, .check])
  let d ← Proc.look
  Proc.when (!d.stamps (.phase p cfg.crossb) || again) do
    Proc.step (.phase p) fun d => d.work ver p cfg.crossb (cfg.leaves p)
    Proc.step (.phase p) fun d => d.setStamp (.phase p cfg.crossb) true

def invokeExtract : Job Unit := do
  let d ← Proc.look
  Proc.when (!d.stamps (.phase .extract cfg.crossb)) do
    -- cannot populate wrksrc (it exists and is dirty)
    Proc.when (!cfg.ownExtract && (d.src ver).any Tree.files) (throw (.phase .extract))
    Proc.step (.phase .extract) fun d => d.work ver .extract cfg.crossb (cfg.leaves .extract)
    Proc.step (.phase .extract) fun d => d.setStamp (.phase .extract cfg.crossb) true

def invokeCheck : Job Unit :=
  Proc.when (!cfg.crossb.isSome && cfg.runCheck) (invokePhase ver cfg .check)

/-- The directories of `file_modes` when an install is not repeated. -/
def createDirs (p : Str) : Job Unit :=
  (cfg.emptyDirs p).forM fun parents => do
    let d ← Proc.look
    Proc.when (d.dest ver cfg.crossb p).isNone
      (if parents then Proc.step .install fun d => d.fill ver cfg.crossb p false []
      else throw .install)

/-- `subpkg_all` after the splitting: every package, with the automatic ones of which there is a
directory. -/
def subpkgAll (d : Disk) : List Str :=
  (cfg.subpkgList ++ [pkgname]).flatMap fun p =>
    p :: (cfg.autopkgs p).filter fun a => (d.dest ver cfg.crossb a).isSome

/-- An install that is not repeated. -/
def keepInstall : Job Unit := (cfg.subpkgList ++ [pkgname]).forM (createDirs ver cfg)

/-- A file is moved to the directory of a package, unless there is one in its place. -/
def moveFile (a file : Str) : Job Unit := do
  let d ← Proc.look
  Proc.when ((d.held ver cfg.crossb a).contains file) (throw .install)
  Proc.step .install fun d => d.hold ver cfg.crossb a (d.held ver cfg.crossb a ++ [file])

/-- `takef`, into a directory that may be there already. -/
def takeAuto (a : Str) : Job Unit :=
  Proc.when (cfg.taken a) do
    Proc.step .install fun d => d.fill ver cfg.crossb a true (d.held ver cfg.crossb a)
    (cfg.files a).forM (moveFile ver cfg a)

def runInstall : Job Unit := do
  Proc.step .install fun d => d.setDest ver cfg.crossb pkgname none
  Proc.step .install fun d => d.fill ver cfg.crossb pkgname false []
  Proc.step .install fun d => d.fill ver cfg.crossb pkgname true (cfg.files pkgname)
  cfg.subpkgList.forM fun p =>
    Proc.step .install fun d => d.fill ver cfg.crossb p true (cfg.files p)
  ((cfg.subpkgList ++ [pkgname]).flatMap cfg.autopkgs).forM (takeAuto ver cfg)
  Proc.step .install fun d => d.setStamp (.phase .install cfg.crossb) true

def invokeInstall : Job (List Str) := do
  let d ← Proc.look
  (if d.stamps (.phase .install cfg.crossb) && !(cfg.force && cfg.step = .install) then
    keepInstall pkgname ver cfg
  else runInstall pkgname ver cfg)
  let d ← Proc.look
  return subpkgAll pkgname ver cfg d

/-- `invoke_prepkg`, with the packages whose hooks it has called. -/
def invokePrepkg : List Str → Job (List Str)
  | [] => return []
  | p :: ps => do
      let d ← Proc.look
      if d.stamps (.prepkg p cfg.crossb) && !cfg.force then invokePrepkg ps
      else
        -- a hook may fail
        Proc.step .prepkg id
        Proc.step .prepkg fun d => d.setStamp (.prepkg p cfg.crossb) true
        return p :: (← invokePrepkg ps)

/-! ## The build -/

/-- What the metadata of a package is made from, besides the template. -/
structure Metadata where
  /-- Its hooks have run in the process that writes it. -/
  hooked : Bool
  files : List Str
  deriving DecidableEq

/-- The packages that have been generated, those whose `pkg` hooks have run before, and the
metadata. -/
structure Built where
  generated : List Str
  hooked : List Str
  written : List (Str × Metadata)

/-- Unless it is dirty a build cleans up before it starts, but not while bootstrapping stage 0. -/
def wipe : Job Unit :=
  Proc.when (!cfg.dirty && !cfg.bootstrap) do
    removePkgWrksrc ver .start .wiping
    removePkg pkgname ver cfg .wiping .wiping
    removePkgStatedir .wiping

/-- `_build` and `_build_locked` from there to the checks. -/
def buildUpToCheck : Job Unit := do
  Proc.step .setup fun d => if (d.src ver).isSome then d else d.setSrc ver (some ⟨[], false⟩)
  Proc.when (!cfg.ownFetch) (sentinel cfg .fetch)
  Proc.when (!cfg.dirty || cfg.step = .deps) (cleanupWorld cfg .setup)
  sentinel cfg .deps
  Proc.when cfg.ownFetch (sentinel cfg .fetch)
  invokeExtract ver cfg
  sentinel cfg .extract
  Proc.when (!cfg.prepareAfterPatch) do
    invokePhase ver cfg .prepare
    sentinel cfg .prepare
  invokePhase ver cfg .patch
  sentinel cfg .patch
  Proc.when cfg.prepareAfterPatch do
    invokePhase ver cfg .prepare
    sentinel cfg .prepare
  invokePhase ver cfg .configure
  sentinel cfg .configure
  invokePhase ver cfg .build
  sentinel cfg .build
  invokeCheck ver cfg
  sentinel cfg .check

/-- The packages are made from a file in the base directory. -/
def generate (generated hooked : List Str) : Job (List (Str × Metadata)) := do
  let d ← Proc.look
  if d.base ver cfg.crossb then
    Proc.step .gen id
    return generated.map fun p => (p, ⟨hooked.contains p, d.held ver cfg.crossb p⟩)
  else throw .gen

def cleanup : Job Unit :=
  Proc.when (!cfg.keepTemp) do
    cleanupWorld cfg .cleanup
    removePkgWrksrc ver .leaving .leaving
    removePkg pkgname ver cfg .leaving .leaving
    removePkgStatedir .leaving

def build : Job Built := do
  wipe pkgname ver cfg
  buildUpToCheck ver cfg
  Proc.when (!cfg.bootstrap) (removePkg pkgname ver cfg .cleaning .cleaned)
  let generated ← invokeInstall pkgname ver cfg
  sentinel cfg .install
  let hooked ← invokePrepkg cfg generated
  let written ← generate ver cfg generated hooked
  cleanup pkgname ver cfg
  return ⟨generated, hooked, written⟩

end

end Cbuild.Resume
