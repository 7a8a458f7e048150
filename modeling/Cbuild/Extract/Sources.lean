import Cbuild.Fetch.Sources
import Cbuild.Lib.Trees

/-! # Extracting the sources of a template

`invoke` of `hooks/extract/000_sources.py`: it extracts the sources into temporary directories and
moves these into place, on a failure as well. The temporary directories are trees of their own, as
no path leads to a name that is made up; what an extractor makes of one is a parameter.
-/

namespace Cbuild.Extract

open Lib

variable {C : Type}

/-! ## Errors -/

/-- What is passed to `pkg.error`. -/
inductive Error
  /-- "cannot populate wrksrc (it exists and is dirty)" -/
  | dirty
  /-- "source_paths length must match sources" -/
  | lengths
  /-- "source '…' has an invalid format" -/
  | format (d : Str)
  /-- "unknown source suffix for '…'" -/
  | suffix (fname : Str)
  /-- "source not supported for bootstrap: …" -/
  | bootstrap (fname : Str)
  /-- "cannot guess '…' extract suffix" -/
  | guess (fname : Str)
  /-- "extracting '…' failed" -/
  | failed (fname : Str)
  /-- "source path '…' already exists" -/
  | taken (wpath : List (Comp Str))
  deriving DecidableEq

inductive Exc
  /-- `PackageException` -/
  | package (e : Error)
  /-- `TypeError` -/
  | type
  /-- `OSError` -/
  | os (e : Errno)
  /-- An exception of an extractor. -/
  | raised
  deriving DecidableEq

/-! ## Names -/

inductive Suffix
  | tzst | txz | tlz | tbz | tgz | zst | gz | xz | bz2 | tar | zip | rpm | deb | txt | sevenz | crate
  deriving DecidableEq

/-- `suffixes`; the patterns are these after an asterisk. -/
def suffixes : List (Str × Suffix) :=
  [(".tar.zst".toList, .tzst), (".tar.lzma".toList, .txz), (".tar.lz".toList, .tlz),
    (".tlz".toList, .tlz), (".tar.xz".toList, .txz), (".txz".toList, .txz),
    (".tar.bz2".toList, .tbz), (".tbz".toList, .tbz), (".tar.gz".toList, .tgz),
    (".tgz".toList, .tgz), (".zst".toList, .zst), (".gz".toList, .gz), (".xz".toList, .xz),
    (".bz2".toList, .bz2), (".tar".toList, .tar), (".zip".toList, .zip), (".rpm".toList, .rpm),
    (".deb".toList, .deb), (".patch".toList, .txt), (".diff".toList, .txt), (".txt".toList, .txt),
    (".sh".toList, .txt), (".7z".toList, .sevenz), (".crate".toList, .crate)]

/-- The extractors. -/
inductive Exf
  | tar | notar | alsotar | deb | txt
  deriving DecidableEq

def Suffix.exf : Suffix → Option Exf
  | tar | txz | tbz | tlz | tzst | tgz | crate => some .tar
  | gz | bz2 | xz => some .notar
  | zip | sevenz | rpm => some .alsotar
  | deb => some .deb
  | txt => some .txt
  | zst => none

/-- How a source is extracted, or why it is not. -/
def choose (stage : Nat) (d : Str) : Except Error (Str × Suffix × Exf) :=
  let bkt := Fetch.rfind '>' d
  let bsl := Fetch.rfind '/' d
  if bkt < 0 ∧ bsl < 0 then .error (.format d)
  else
    let fname := if bkt > bsl then d.drop (bkt.toNat + 1) else d.drop (bsl + 1).toNat
    match suffixes.find? fun key => key.1 <:+ fname with
    | none => .error (.suffix fname)
    | some (_, suffix) =>
        if stage = 0 ∧ suffix ≠ .tgz ∧ suffix ≠ .tbz ∧ suffix ≠ .txz then .error (.bootstrap fname)
        else
          match suffix.exf with
          | none => .error (.guess fname)
          | some exf => .ok (fname, suffix, exf)

/-! ## Paths -/

/-- The parts of a path. -/
def parts (s : Str) : List (Comp Str) :=
  ((s.splitOn '/').filter fun c => c ≠ [] ∧ c ≠ ['.']).map fun c =>
    if c = ['.', '.'] then .up else .down c

/-- `wpath / sp` -/
def join (wpath : List (Comp Str)) (sp : Str) : List (Comp Str) :=
  if sp.head? = some '/' then parts sp else wpath ++ parts sp

/-! ## The extraction -/

/-- What an extractor does to the directory: it returns that it has worked or not, or it raises. -/
inductive Outcome
  | done | failed | raised
  deriving DecidableEq

structure Pkg where
  source : List Str
  sourcePaths : List Str
  stage : Nat
  builddir : List Str
  /-- `pkgname-pkgver` -/
  wrksrc : Str

/-- `pkg.srcdir` -/
def Pkg.srcdir (pkg : Pkg) : List Str := pkg.builddir ++ [pkg.wrksrc]

def Pkg.wpath (pkg : Pkg) : List (Comp Str) := pkg.srcdir.map .down

/-- An entry of `edirs` with a directory of its own. -/
structure EDir (C : Type) where
  sp : Str
  tree : Tree Str C

def emptyTree : Tree Str C where
  fs := []
  closed := by
    intro q n h
    rw [Fs.node_of_ne_nil (List.append_ne_nil_of_right_ne_nil q (List.cons_ne_nil n []))] at h
    cases h

/-- The source paths of the sources, `none` for the directory that they share; nothing if there are
not as many. -/
def makeEdirs (pkg : Pkg) : Option (List (Option Str)) :=
  if pkg.sourcePaths = [] then some (pkg.source.map fun _ => none)
  else if pkg.sourcePaths.length ≠ pkg.source.length then none
  else some (pkg.sourcePaths.map fun sp => if sp = [] ∨ sp = ['.'] then none else some sp)

/-- What is done to the directories. -/
abbrev Run (C : Type) : Type := Exf → Str → Suffix → Tree Str C → Outcome × Tree Str C

/-- The directories that are still empty. -/
def unfilled (sources : List (Str × Option Str)) : List (EDir C) :=
  sources.filterMap fun d => d.2.map fun sp => ⟨sp, emptyTree⟩

/-- The loop over the sources; what is left is how it ended, the shared directory and the others. -/
def extractSources (run : Run C) (stage : Nat) : List (Str × Option Str) → Tree Str C →
    Except Exc Unit × Tree Str C × List (EDir C)
  | [], extractdir => (.ok (), extractdir, [])
  | (d, sp) :: rest, extractdir =>
      if d.head? = some '!' then
        let (r, extractdir, edirs) := extractSources run stage rest extractdir
        (r, extractdir, unfilled [(d, sp)] ++ edirs)
      else
        match choose stage d with
        | .error e => (.error (.package e), extractdir, unfilled ((d, sp) :: rest))
        | .ok (fname, suffix, exf) =>
            let (outcome, tree) := run exf fname suffix (if sp.isSome then emptyTree else extractdir)
            let extractdir := if sp.isSome then extractdir else tree
            let edir := (sp.map fun sp => EDir.mk sp tree).toList
            match outcome with
            | .raised => (.error .raised, extractdir, edir ++ unfilled rest)
            | .failed => (.error (.package (.failed fname)), extractdir, edir ++ unfilled rest)
            | .done =>
                let (r, extractdir, edirs) := extractSources run stage rest extractdir
                (r, extractdir, edir ++ edirs)

/-! ## Moving into place -/

/-- Nothing is in the directory. -/
def Blank (tree : Tree Str C) : Prop := tree.fs.names [] = []

instance (tree : Tree Str C) : Decidable (Blank tree) := inferInstanceAs (Decidable (_ = _))

/-- What is to be the contents: those of a single directory, if there is nothing else. -/
def flattened (tree : Tree Str C) : Fs Str C :=
  match tree.fs.names [] with
  | [entry] => if tree.fs.dirAt [entry] then tree.fs.subtree [entry] else tree.fs
  | _ => tree.fs

/-- `rename_edir` -/
def renameEdir (tree : Tree Str C) (wpath : List (Comp Str)) (replace : Bool) (fs : Fs Str C) :
    Except Exc Unit × Fs Str C :=
  if Blank tree then (.ok (), fs)
  else if fs.pathExists wpath = true ∧ replace = false then (.error (.package (.taken wpath)), fs)
  else
    match if fs.pathExists wpath then fs.rm wpath else .ok fs with
    | .error e => (.error (.os e), fs)
    | .ok fs =>
        match fs.mkdirs wpath.dropLast with
        | .error e => (.error (.os e), fs)
        | .ok fs =>
            match fs.moveIn (flattened tree) wpath with
            | .error e => (.error (.os e), fs)
            | .ok fs => (.ok (), fs)

/-- `sp.startswith("+")` -/
def replaces (sp : Str) : Bool := sp.head? = some '+'

def target (wpath : List (Comp Str)) (sp : Str) : List (Comp Str) :=
  join wpath (if replaces sp then sp.drop 1 else sp)

/-- `close_edirs`, after what is done in it. -/
def closeEdirs (wpath : List (Comp Str)) : List (EDir C) → Fs Str C → Except Exc Unit × Fs Str C
  | [], fs => (.ok (), fs)
  | ed :: edirs, fs =>
      match renameEdir ed.tree (target wpath ed.sp) (replaces ed.sp) fs with
      | (.error e, fs) => (.error e, fs)
      | (.ok (), fs) => closeEdirs wpath edirs fs

/-! ## The hook -/

/-- The source directory is not there, or it is removed as it is empty. -/
def startClean (pkg : Pkg) (fs : Fs Str C) : Except Exc (Fs Str C) :=
  if fs.pathExists pkg.wpath then (fs.rmdir pkg.wpath).mapError fun _ => .package .dirty else .ok fs

/-- `wpath.mkdir(parents=True)` in case nothing was extracted. -/
def recreate (pkg : Pkg) (fs : Fs Str C) : Except Exc (Fs Str C) :=
  if fs.pathExists pkg.wpath then .ok fs
  else
    match fs.mkdir pkg.wpath with
    | .error .noent => ((fs.mkdirs pkg.wpath.dropLast).bind fun fs => fs.mkdir pkg.wpath).mapError .os
    | r => r.mapError .os

/-- The shared directory is moved into place if all sources have been extracted. -/
def handleExtractdir (pkg : Pkg) (body : Except Exc Unit) (extractdir : Tree Str C)
    (fs : Fs Str C) : Except Exc Unit × Fs Str C :=
  match body with
  | .error e => (.error e, fs)
  | .ok () => renameEdir extractdir pkg.wpath false fs

/-- `invoke` -/
def invoke (run : Run C) (pkg : Pkg) (fs : Fs Str C) : Except Exc Unit × Fs Str C :=
  match startClean pkg fs with
  | .error e => (.error e, fs)
  | .ok fs =>
      match makeEdirs pkg with
      -- `edirs` is still `None` when it is iterated over
      | none => (.error .type, fs)
      | some edirs =>
          let (body, extractdir, edirs) :=
            extractSources run pkg.stage (pkg.source.zip edirs) emptyTree
          let (body, fs) := handleExtractdir pkg body extractdir fs
          match closeEdirs pkg.wpath edirs fs with
          -- it is raised in place of what was raised before
          | (.error e, fs) => (.error e, fs)
          | (.ok (), fs) =>
              match body with
              | .error e => (.error e, fs)
              | .ok () =>
                  match recreate pkg fs with
                  | .error e => (.error e, fs)
                  | .ok fs => (.ok (), fs)

/-- The first exception that is raised in a run. -/
def detected (run : Run C) (pkg : Pkg) (fs : Fs Str C) : Option Exc :=
  match startClean pkg fs with
  | .error e => some e
  | .ok fs =>
      match makeEdirs pkg with
      | none => some (.package .lengths)
      | some edirs =>
          let (body, extractdir, edirs) :=
            extractSources run pkg.stage (pkg.source.zip edirs) emptyTree
          match body with
          | .error e => some e
          | .ok () =>
              match renameEdir extractdir pkg.wpath false fs with
              | (.error e, _) => some e
              | (.ok (), fs) =>
                  match closeEdirs pkg.wpath edirs fs with
                  | (.error e, _) => some e
                  | (.ok (), fs) =>
                      match recreate pkg fs with
                      | .error e => some e
                      | .ok _ => none

end Cbuild.Extract
