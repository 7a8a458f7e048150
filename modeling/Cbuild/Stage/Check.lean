import Cbuild.Stage.Dependency
import Mathlib

/-! # `check_stage`

The function of `cbuild/core/stage.py` after it has found the indexes. What `apk`
answers is a parameter: the providers of the packages in the paired repositories,
the reverse dependencies of names, the dependencies of packages and the providers
of a name. No value stands for an exception.
-/

namespace Cbuild.Stage

open Lib

/-- One row of an answer of `apk query`, with the list that was asked for. -/
structure Row where
  name : Str
  values : List Str
  repositories : List Str

structure ApkAnswers where
  /-- `query --fields=name,provides,repositories`, over the pairs of repositories. -/
  providers : List (Str × Str) → List Row
  /-- `search --rdepends`, the names in its output. -/
  rdepends : List Str → List Str
  /-- `query --fields=name,depends,repositories`. -/
  depends : List Str → List Row
  /-- `search --exact`, the names in its output. -/
  search : Str → List Str

structure Repos where
  /-- Staged indexes, sorted. -/
  rs : List Str
  /-- Regular indexes, sorted. -/
  rr : List Str
  /-- `rrm.get(reld)`, the regular index that a staged one is for. -/
  regular : Str → Option Str

/-- The pairs of a staged and its regular index. -/
def Repos.srs (r : Repos) : List (Str × Str) :=
  r.rs.filterMap fun d => (r.regular d).map fun ad => (d, ad)

def pySorted (l : List Str) : List Str := l.mergeSort fun a b => decide (a ≤ b)

/-- `{ name => { repo => values } }` -/
abbrev ByRepo : Type := Dict Str (Dict Str (List Str))

def addRow (m : ByRepo) (row : Row) : ByRepo :=
  m.set row.name (row.repositories.foldl (fun repos repo => repos.set repo (pySorted row.values))
    ((m.get row.name).getD []))

def byRepo (rows : List Row) : ByRepo := rows.foldl addRow []

/-! ## What is added and dropped -/

structure Sets where
  added : Providers
  dropped : Providers
  replaced : List Str

/-- One side of a package goes into a map, by the names of what it provides. -/
def noteProviders (m : Providers) (prs : List Str) : Providers :=
  prs.foldl (fun m pr => m.set (parseProvider pr).1 (parseProvider pr).2) m

/-- One package of a pair: staged, with other providers than the regular one. -/
def comparePackage (pair : Str × Str) (s : Sets) (p : Str × Dict Str (List Str)) : Sets :=
  match p.2.get pair.1 with
  | none => s
  | some staged =>
      if p.2.get pair.2 = some staged then s
      else
        { added := noteProviders s.added staged
          dropped := noteProviders s.dropped ((p.2.get pair.2).getD [])
          replaced := s.replaced ++ [p.1] }

def accumulate (srs : List (Str × Str)) (provm : ByRepo) : Sets :=
  srs.foldl (fun s pair => provm.foldl (comparePackage pair) s) ⟨[], [], []⟩

def cancelStep (s : Providers × Providers) (pk : Str) : Providers × Providers :=
  if (s.2.get pk).isSome ∧ s.2.get pk = s.1.get pk then (s.1.erase pk, s.2.erase pk) else s

/-- The added and the dropped providers without the common ones. -/
def cancel (added dropped : Providers) : Providers × Providers :=
  (Dict.keys added).foldl cancelStep (added, dropped)

/-! ## Reverse dependencies -/

def revdeps (q : ApkAnswers) (dropped : Providers) : List Str :=
  if dropped ≠ [] then (q.rdepends (Dict.keys dropped)).dedup else []

/-- The dependencies of a reverse dependency, in the first repository that has it. -/
def dependsOf (repos : List Str) (depm : ByRepo) (d : Str) : Option (List Str) :=
  (depm.get d).map fun m =>
    match repos.find? fun r => (m.get r).isSome with
    | some r => (m.get r).getD []
    | none => Dict.keys m

/-- `checkdeps[ad].append(d)` -/
def record (checkdeps : Dict Str (List Str)) (ad d : Str) : Dict Str (List Str) :=
  checkdeps.set ad ((checkdeps.get ad).getD [] ++ [d])

/-- The dependencies of `d`. -/
def checkDeps (added dropped : Providers) (d : Str) (checkdeps : Dict Str (List Str)) :
    List Str → Option (Dict Str (List Str))
  | [] => some checkdeps
  | ad :: rest =>
      match checkDep dropped added ad with
      | none => none
      | some true => checkDeps added dropped d (record checkdeps (parseDep ad).1 d) rest
      | some false => checkDeps added dropped d checkdeps rest

def checkRevdeps (added dropped : Providers) (depends : Str → Option (List Str))
    (checkdeps : Dict Str (List Str)) : List Str → Option (Dict Str (List Str))
  | [] => some checkdeps
  | d :: rest =>
      match depends d with
      | none => none
      | some deps =>
          match checkDeps added dropped d checkdeps deps with
          | none => none
          | some checkdeps => checkRevdeps added dropped depends checkdeps rest

/-- A finding goes if the name has a provider that was not replaced. -/
def narrow (q : ApkAnswers) (replaced : List Str) (checkdeps : Dict Str (List Str)) :
    Dict Str (List Str) :=
  checkdeps.filter fun e => (q.search e.1).all fun pd => replaced.contains pd

/-! ## The function -/

/-- The providers that are compared, by package and repository. -/
def Repos.provm (r : Repos) (q : ApkAnswers) : ByRepo := byRepo (q.providers r.srs)

def Repos.sets (r : Repos) (q : ApkAnswers) : Sets := accumulate r.srs (r.provm q)

/-- What is added and what is dropped, once the common entries are gone. -/
def Repos.changes (r : Repos) (q : ApkAnswers) : Providers × Providers :=
  cancel (r.sets q).added (r.sets q).dropped

/-- The dependencies that a reverse dependency is checked for. -/
def Repos.dependsOf (r : Repos) (q : ApkAnswers) : Str → Option (List Str) :=
  Stage.dependsOf (r.rs ++ r.rr) (byRepo (q.depends (revdeps q (r.changes q).2)))

/-- `check_stage`: the staged repositories, if nothing keeps them staged. -/
def checkStage (r : Repos) (q : ApkAnswers) (force : Bool) : Option (Option (List Str)) :=
  if force then some (some r.rs)
  else
    match checkRevdeps (r.changes q).1 (r.changes q).2 (r.dependsOf q) []
        (revdeps q (r.changes q).2) with
    | none => none
    | some checkdeps =>
        if narrow q (r.sets q).replaced checkdeps = [] then some (some r.rs) else some none

end Cbuild.Stage
