import Cbuild.Bulk.Untold
import Mathlib

/-! # A bulk run

`_bulkpkg` of `runner.py`: resolve the requested names, walk the dependencies of
`base-cbuild`, parse every requested template and enter it into the sorter, list
what is left to do in sorter order, and build the list. Everything a run reads
from outside is a field of `World`; everything it writes to the status file is
kept in order.
-/

namespace Cbuild.Bulk

/-- The exceptions a run tells apart. -/
inductive Exn
  | cbuildException
  | other
  deriving DecidableEq

/-- What `sanitize_pkgname(pn, False)` makes of a name. -/
inductive Sanitized
  | missing
  | invalid
  | found (repository pkgname : Str)
  deriving DecidableEq

/-- `f"{repository}/{pkgname}"`. -/
def fullPkgname (repository pkgname : Str) : Str := repository ++ '/' :: pkgname

/-- What a bulk run finds outside itself. -/
structure World where
  sanitizePkgname : Str → Sanitized
  /-- The template as bulk mode reads it to build it. -/
  bulkTemplate : Str → Except Exn Tmpl
  /-- The template as bulk mode reads it to follow dependencies. -/
  depTemplate : Str → Except Exn Tmpl
  /-- The templates on disk. -/
  tree : Finset Str
  depTemplate_mem : ∀ d t, depTemplate d = .ok t → d ∈ tree
  isBuilt : Str → Bool
  /-- `build.build`, after the builds already attempted. -/
  build : List Str → Str → Except Exn Unit

/-- The `do_build` argument: build, print the list, or append to a given list. -/
inductive DoBuild
  | build
  | print (version : Bool)
  | collect
  deriving DecidableEq

/-- The arguments of `_bulkpkg` and the options it looks at. -/
structure Opts where
  bulkcont : Bool
  force : Bool
  stage : Bool
  doRaw : Bool
  doBuild : DoBuild
  deriving DecidableEq

/-- The words of the status file. -/
inductive Status
  | missing
  | invalid
  | skipped
  | parse
  | broken
  | done
  | ok
  | failed
  deriving DecidableEq

/-- `pkg_run_exc`: the value, and whether the call raised. -/
def pkgRunExc {α : Type} : Except Exn α → Option α × Bool
  | .ok retv => (some retv, false)
  | .error _ => (none, true)

/-- `_do_with_exc`. -/
def doWithExc {α : Type} (call : Except Exn α) (failed : Bool) : Option α × Bool :=
  match pkgRunExc call with
  | (retv, fail) => (retv, if fail then true else failed)

@[simp] theorem doWithExc_ok {α : Type} (a : α) (failed : Bool) :
    doWithExc (.ok a) failed = (some a, failed) := rfl

@[simp] theorem doWithExc_error {α : Type} (e : Exn) (failed : Bool) :
    doWithExc (.error e : Except Exn α) failed = (none, true) := rfl

/-! ## Resolving the requested names -/

/-- The first loop's state. -/
structure Resolve where
  rpkgs : Finset Str
  badpkgs : Finset Str
  status : List (Str × Status)
  failed : Bool

namespace Resolve

def start : Resolve := ⟨∅, ∅, [], false⟩

/-- A name that does not resolve. -/
def bad (s : Resolve) (pn : Str) (st : Status) : Resolve :=
  ⟨s.rpkgs, insert pn s.badpkgs, s.status ++ [(pn, st)], true⟩

end Resolve

def resolveStep (o : Opts) (w : World) (s : Resolve) (pn : Str) : Resolve :=
  if pn ∈ s.rpkgs ∨ pn ∈ s.badpkgs then s
  else
    match w.sanitizePkgname pn with
    | .missing => s.bad pn .missing
    | .invalid => s.bad pn .invalid
    | .found repository pkgname =>
        let npn := fullPkgname repository pkgname
        if npn ≠ pn ∧ (npn ∈ s.rpkgs ∨ npn ∈ s.badpkgs) then s
        else if s.failed = true ∧ o.bulkcont = false then
          { s with status := s.status ++ [(npn, .skipped)] }
        else { s with rpkgs := insert npn s.rpkgs }

def resolve (o : Opts) (w : World) (pkgs : List Str) : Resolve :=
  pkgs.foldl (resolveStep o w) Resolve.start

/-! ## Parsing the requested templates -/

def baseCbuild : Str := "main/base-cbuild".toList

/-- Reading a dependency, with the flag of the run as the state of the caller. -/
def World.rpkg (w : World) (d : Str) (failed : Bool) : Option Tmpl × Bool :=
  doWithExc (w.depTemplate d) failed

/-- What a dependency parses to. -/
def World.readDep (w : World) (d : Str) : Option Tmpl := (w.depTemplate d).toOption

theorem World.rpkg_fst (w : World) (d : Str) (failed : Bool) :
    (w.rpkg d failed).1 = w.readDep d := by
  unfold World.rpkg World.readDep
  cases w.depTemplate d with
  | ok t => rfl
  | error e => rfl

theorem World.readDep_mem (w : World) (d : Str) (t : Tmpl) (h : w.readDep d = some t) :
    d ∈ w.tree := by
  unfold World.readDep at h
  cases hd : w.depTemplate d with
  | ok u => exact w.depTemplate_mem d u hd
  | error e =>
      rw [hd] at h
      contradiction

theorem World.rpkg_notes (w : World) : Notes w.readDep w.rpkg := by
  intro d b
  unfold World.rpkg World.readDep
  cases w.depTemplate d with
  | ok t => simp [Except.toOption]
  | error e => simp [Except.toOption]

theorem World.addDepsGraph_ends (w : World) (pn : Str) (tp : Tmpl) (s : Walk Bool) :
    ((addDepsGraph w.rpkg (w.tree.card + 1) pn tp s).run).isSome = true :=
  Option.isSome_iff_ne_none.mpr (addDepsGraph_not_stops w.rpkg_fst w.readDep_mem _ pn tp s
    (Nat.lt_succ_of_le (Finset.card_le_card Finset.sdiff_subset)))

/-- The walk of one template's dependencies, with fuel for the whole tree. -/
def World.addDeps (w : World) (pn : Str) (tp : Tmpl) (s : Walk Bool) :
    Except Bool (Bool × Walk Bool) :=
  (addDepsGraph w.rpkg (w.tree.card + 1) pn tp s).run.get (w.addDepsGraph_ends pn tp s)

theorem World.addDeps_returns {w : World} {pn : Str} {tp : Tmpl} {s s' : Walk Bool} {b : Bool}
    (h : w.addDeps pn tp s = .ok (b, s')) : tp.buildDeps ≠ none ∧
      Walked w.readDep w.rpkg { s with depg := s.depg.add pn tp.deps } tp.deps true b s' := by
  refine addDepsGraph_walked w.rpkg_fst (w.tree.card + 1) pn tp s b s' ?_
  show (addDepsGraph w.rpkg (w.tree.card + 1) pn tp s).run = some (.ok (b, s'))
  rw [← h]
  exact (Option.some_get _).symm

theorem World.addDeps_raises {w : World} {pn : Str} {tp : Tmpl} {s : Walk Bool} {failed : Bool}
    (h : w.addDeps pn tp s = .error failed) :
    (addDepsGraph w.rpkg (w.tree.card + 1) pn tp s).Raises failed := by
  show (addDepsGraph w.rpkg (w.tree.card + 1) pn tp s).run = some (.error failed)
  rw [← h]
  exact (Option.some_get _).symm

/-- The shared sets before anything is walked. -/
def Walk.start (failed : Bool) : Walk Bool := ⟨∅, some ∅, .empty, failed⟩

/-- The dependency on `base-cbuild` of what has not been seen as a dependency. -/
def Walk.addBase (s : Walk Bool) (pn : Str) (cbinit : Bool) : Walk Bool :=
  if cbinit = false ∧ pn ∉ s.cbvisit.getD ∅ ∧ pn ≠ baseCbuild then
    { s with depg := s.depg.add pn [baseCbuild] }
  else s

/-- `handle_recdeps`. An exception leaves the flag of the run behind. -/
def handleRecdeps (o : Opts) (w : World) (pn : Str) (tp : Tmpl) (cbinit : Bool) (s : Walk Bool) :
    Except Bool (Bool × Walk Bool) :=
  -- in raw mode the order is taken as it is
  if o.doRaw = true then .ok (true, s)
  else w.addDeps pn tp (s.addBase pn cbinit)

/-- The second loop's state; the flag of the run is the state its walks carry. -/
structure Parsing where
  status : List (Str × Status)
  walk : Walk Bool
  templates : List (Str × Tmpl)
  /-- An exception of `handle_recdeps` has left the loop; only the flag has been kept of its walk. -/
  escaped : Bool

namespace Parsing

def failed (s : Parsing) : Bool := s.walk.env

def setFailed (s : Parsing) (failed : Bool) : Parsing := { s with walk := { s.walk with env := failed } }

def emit (s : Parsing) (pn : Str) (st : Status) : Parsing := { s with status := s.status ++ [(pn, st)] }

@[simp] theorem failed_setFailed (s : Parsing) (b : Bool) : (s.setFailed b).failed = b := rfl

@[simp] theorem failed_emit (s : Parsing) (pn : Str) (st : Status) : (s.emit pn st).failed = s.failed :=
  rfl

/-- The loop is left, with the flag as it is. -/
def escape (s : Parsing) (failed : Bool) : Parsing := { s.setFailed failed with escaped := true }

end Parsing

def parseStep (o : Opts) (w : World) (s : Parsing) (pn : Str) : Parsing :=
  -- nothing is run once an exception has left the loop
  if s.escaped = true then s
  else if s.failed = true ∧ o.bulkcont = false then s.emit pn .skipped
  else
    let ofailed := s.failed
    match doWithExc (w.bulkTemplate pn) false with
    | (none, failed) =>
        let s := s.setFailed failed
        if s.failed = true then s.emit pn .parse else s.setFailed ofailed
    | (some tp, failed) =>
        let s := s.setFailed failed
        if tp.broken = true then s.emit pn .broken
        else
          match handleRecdeps o w pn tp false (s.setFailed false).walk with
          | .error failed => s.escape failed
          | .ok (false, walk) =>
              let s := { s with walk := walk }
              if s.failed = true then s.emit pn .parse else s.setFailed ofailed
          | .ok (true, walk) =>
              let s := { s with walk := walk }.setFailed ofailed
              { s with templates := s.templates ++ [(pn, tp)] }

/-- Before the second loop: `base-cbuild` is walked, and then the requested templates count as
visited. -/
def parseStart (o : Opts) (w : World) (r : Resolve) (base : Tmpl) : Parsing :=
  match handleRecdeps o w baseCbuild base true (Walk.start r.failed) with
  | .error failed => Parsing.escape ⟨r.status, Walk.start r.failed, [], false⟩ failed
  | .ok (_, walk) => ⟨r.status, { walk with pvisit := walk.pvisit ∪ r.rpkgs }, [], false⟩

/-- `sorted(rpkgs)`. -/
def Resolve.sorted (r : Resolve) : List Str := r.rpkgs.sort (· ≤ ·)

/-- The second loop, once `base-cbuild` has been parsed. -/
def parseAll (o : Opts) (w : World) (r : Resolve) (base : Tmpl) : Parsing :=
  r.sorted.foldl (parseStep o w) (parseStart o w r base)

/-! ## Listing and building -/

/-- The third loop's state. -/
structure Listing where
  status : List (Str × Status)
  flist : List Str

/-- What the list shows for a template. -/
def Opts.display (o : Opts) (pn : Str) (tp : Tmpl) : Str :=
  match o.doBuild, tp.pkgver, tp.pkgrel with
  | .print true, some ver, some rel => pn ++ "=".toList ++ ver ++ "-r".toList ++ rel
  | _, _, _ => pn

def listStep (o : Opts) (w : World) (templates : List (Str × Tmpl)) (s : Listing) (pn : Str) :
    Listing :=
  match templates.lookup pn with
  | none => s
  | some tp =>
      if o.force = false ∧ w.isBuilt pn = true then
        { s with status := s.status ++ [(pn, .done)] }
      else { s with flist := s.flist ++ [o.display pn tp] }

/-- The build loop's state. -/
structure Building where
  status : List (Str × Status)
  failed : Bool
  attempts : List Str

def buildStep (o : Opts) (w : World) (s : Building) (pn : Str) : Building :=
  if s.failed = true ∧ o.bulkcont = false then { s with status := s.status ++ [(pn, .skipped)] }
  else
    match doWithExc (w.build s.attempts pn) s.failed with
    | (some _, failed) => ⟨s.status ++ [(pn, .ok)], failed, s.attempts ++ [pn]⟩
    | (none, failed) => ⟨s.status ++ [(pn, .failed)], failed, s.attempts ++ [pn]⟩

/-- How a run ends. -/
inductive Ending
  /-- It returns, having called `do_unstage` or not. -/
  | returned (unstaged : Bool)
  /-- `CbuildException("at least one bulk package failed")`. -/
  | bulkFailed
  /-- The exception parsing `base-cbuild` raised. -/
  | baseError (e : Exn)
  /-- The exception of `get_build_deps`, with the flag as it was then. -/
  | depsError (failed : Bool)
  /-- `graphlib.CycleError`. -/
  | cycleError
  deriving DecidableEq

/-- What a run leaves behind. -/
structure Run where
  status : List (Str × Status)
  templates : List (Str × Tmpl)
  flist : List Str
  /-- What is printed or appended to the caller's list, if anything. -/
  output : List Str
  attempts : List Str
  ending : Ending
  deriving DecidableEq

/-- The third loop, taken over `ordl`. -/
def listing (o : Opts) (w : World) (b : Parsing) (ordl : List Str) : Listing :=
  if b.failed = false ∨ o.bulkcont = true then
    ordl.foldl (listStep o w b.templates) ⟨b.status, []⟩
  else ⟨b.status, []⟩

/-- The build loop, over what has been listed. -/
def building (o : Opts) (w : World) (b : Parsing) (l : Listing) : Building :=
  if (b.failed = false ∨ o.bulkcont = true) ∧ o.doBuild = .build then
    l.flist.foldl (buildStep o w) ⟨l.status, b.failed, []⟩
  else ⟨l.status, b.failed, []⟩

/-- `_bulkpkg` from the third loop on. -/
def finish (o : Opts) (w : World) (b : Parsing) (ordl : List Str) : Run :=
  let l := listing o w b ordl
  let c := building o w b l
  { status := c.status
    templates := b.templates
    flist := l.flist
    output := if o.doBuild = .build then [] else l.flist
    attempts := c.attempts
    ending := if c.failed = true then .bulkFailed
      else .returned (decide (o.stage = false ∧ o.doBuild = .build)) }

/-- `_bulkpkg`; `ordl` is what `static_order` yields in this run, `none` for a
`CycleError`. -/
def bulkpkg (o : Opts) (w : World) (pkgs : List Str) (ordl : Option (List Str)) : Run :=
  let r := resolve o w pkgs
  match w.depTemplate baseCbuild with
  | .error e => ⟨r.status, [], [], [], [], .baseError e⟩
  | .ok base =>
      let b := parseAll o w r base
      if b.escaped = true then ⟨b.status, b.templates, [], [], [], .depsError b.failed⟩
      else if o.doRaw = true then finish o w b pkgs
      else if b.failed = true ∧ o.bulkcont = false then finish o w b []
      else
        match ordl with
        | none => ⟨b.status, b.templates, [], [], [], .cycleError⟩
        | some ordl => finish o w b ordl

end Cbuild.Bulk
