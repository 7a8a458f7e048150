import Cbuild.Apk.Token
import Cbuild.Lib.Dict
import Cbuild.Lib.Fueled

/-! # The templates that are not built

`_get_unbuilt` of `runner.py`: it compares the templates of the allowed categories with
the indexes of the repositories, and drops the candidates that are broken or that the
search of `_check_tmpls` finds to depend on something broken. The search recurses
through `tmpls`, which holds a template, `True` for a broken one, or `False` for one
that is unreadable or done with; its depth is cut off by fuel.
-/

namespace Cbuild.Unbuilt

open Lib

inductive Exn
  | attributeError
  | other
  deriving DecidableEq

/-- The attributes of a template's module; the inner value is missing for `None`. -/
structure RawMod where
  pkgname : Option Str
  pkgver : Option (Option Str)
  pkgrel : Option (Option Str)

/-- A template after `init_from_mod`. -/
structure Tmpl where
  pkgname : Str
  pkgver : Str
  pkgrel : Str
  broken : Bool
  /-- `get_build_deps`, which raises for a virtual dependency without a provider. -/
  buildDeps : Except Exn (List Str)

/-- One package of an index. -/
structure Row where
  name : Str
  origin : Option Str
  version : Str

structure World where
  /-- `_collect_tmpls` over the allowed categories. -/
  tmpls : List Str
  /-- The staged indexes and then the regular ones; an index that is missing or that `apk`
  does not read has no rows. -/
  indexes : List (List Row)
  rawMod : Str → Except Exn RawMod
  initFromMod : Str → Except Exn Tmpl

/-! ## Versions in the repository -/

/-- `_collect_vers`. -/
def collectVers (repovers : Dict Str Str) (rows : List Row) : Dict Str Str :=
  rows.foldl (fun repovers ver =>
    let pn := ver.origin.getD ver.name
    if (repovers.get pn).isSome then repovers else repovers.set pn ver.version) repovers

def World.repovers (w : World) : Dict Str Str := w.indexes.foldl collectVers []

/-! ## Candidates -/

def getattr {α : Type} : Option α → Except Exn α
  | some a => .ok a
  | none => .error .attributeError

/-- The version of the module, as it would be in the repository. -/
def prv : Option Str → Option Str → Str
  | some apv, some apr => apv ++ "-r".toList ++ apr
  | _, _ => []

def modStep (w : World) (outdated : Bool) (vers : List Str) (pn : Str) :
    Except Exn (List Str) := do
  let modv ← w.rawMod pn
  -- if something is wrong, mark it unbuilt
  let vers := if modv.pkgname.isNone ∨ modv.pkgver.isNone ∨ modv.pkgrel.isNone then vers ++ [pn]
    else vers
  let apn ← getattr modv.pkgname
  let apv ← getattr modv.pkgver
  let apr ← getattr modv.pkgrel
  if outdated = true ∧ (w.repovers.get apn).isNone then return vers
  if w.repovers.get apn = some (prv apv apr) then return vers
  return vers ++ [pn]

def World.vers (w : World) (outdated : Bool) : Except Exn (List Str) :=
  w.tmpls.foldlM (modStep w outdated) []

/-! ## The search for broken templates -/

inductive Entry
  | tmpl (t : Tmpl)
  /-- `True` -/
  | broken
  /-- `False` -/
  | done

structure Memo where
  tmpls : Dict Str Entry
  tvers : Dict Str Str

def Memo.enter (s : Memo) (pn : Str) (e : Entry) : Memo := { s with tmpls := s.tmpls.set pn e }

/-- `_get_tmpl`; only the templates of the listing can be found in `mods`. -/
def getTmpl (w : World) (pn : Str) (s : Memo) : Bool × Memo :=
  if w.tmpls.contains pn then
    match w.initFromMod pn with
    | .error _ => (false, s.enter pn .done)
    | .ok tmpl =>
        let s := { s with tvers := s.tvers.set pn (tmpl.pkgver ++ "-r".toList ++ tmpl.pkgrel) }
        if tmpl.broken = true then (true, s.enter pn .broken) else (false, s.enter pn (.tmpl tmpl))
  else (false, s.enter pn .done)

/-- The loop body for one dependency. -/
def checkDep (w : World) (checkTmpls : Str → Memo → Fueled Exn (Bool × Memo)) (dpn : Str)
    (s : Memo) : Fueled Exn (Bool × Memo) :=
  match s.tmpls.get dpn with
  | some .broken => pure (true, s)
  | some _ => checkTmpls dpn s
  | none =>
      match getTmpl w dpn s with
      | (true, s) => pure (true, s)
      | (false, s) => checkTmpls dpn s

/-- Whether one of the dependencies leads to something broken. -/
def anyBroken (check : Str → Memo → Fueled Exn (Bool × Memo)) :
    List Str → Memo → Fueled Exn (Bool × Memo)
  | [], s => pure (false, s)
  | dpn :: deps, s => do
      let (broken, s) ← check dpn s
      if broken = true then return (true, s)
      anyBroken check deps s

/-- `_check_tmpls`. -/
def checkTmpls (w : World) : Nat → Str → Memo → Fueled Exn (Bool × Memo)
  | 0, _, _ => Fueled.outOfFuel
  | fuel + 1, pn, s =>
      match s.tmpls.get pn with
      | some .done => pure (false, s)
      | some (.tmpl tmpl) =>
          -- if it's in repo, take the fast path
          if (w.repovers.get tmpl.pkgname).isSome then pure (false, s)
          else do
            let deps ← tmpl.buildDeps
            let (broken, s) ← anyBroken (checkDep w (checkTmpls w fuel)) deps s
            if broken = true then return (true, s)
            -- mark it, don't need to go over it again
            return (false, s.enter pn .done)
      -- not called for what has not been read or is broken
      | some .broken | none => throw .other

/-! ## The listing -/

/-- The first filter. -/
def getTmpls (w : World) (vers : List Str) : List Str × Memo :=
  vers.foldl (fun acc pn =>
    match getTmpl w pn acc.2 with
    | (true, s) => (acc.1, s)
    | (false, s) => (acc.1 ++ [pn], s)) ([], ⟨[], []⟩)

/-- The second filter. -/
def listBuildable (w : World) (fuel : Nat) :
    List Str → Memo → Fueled Exn (List (Str × Option Str))
  | [], _ => pure []
  | pn :: vers, s => do
      let (broken, s) ← checkTmpls w fuel pn s
      let fvers ← listBuildable w fuel vers s
      return if broken = true then fvers else (pn, s.tvers.get pn) :: fvers

/-- `_get_unbuilt`. -/
def getUnbuilt (w : World) (outdated : Bool) (fuel : Nat) :
    Fueled Exn (List (Str × Option Str)) := do
  let vers ← w.vers outdated
  let (fvers, s) := getTmpls w vers
  listBuildable w fuel fvers s

end Cbuild.Unbuilt
