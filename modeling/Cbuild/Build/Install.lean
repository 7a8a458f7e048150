import Cbuild.Build.Depends
import Cbuild.Lib.Fueled

/-! # Building a template and what it needs

`build.build` calls `dependencies.install`, which calls `build.build` for every
template that is missing. `depmap` holds the builds that are under way. Builds
are not dirty and dependencies are checked.
-/

namespace Cbuild.Build

open Lib

/-- The start of the extract phase of a build. -/
structure Extract where
  arch : Arch
  tmpl : Template
  /-- The repositories when its dependencies were checked. -/
  checked : Repo
  /-- The cache of names at that time. -/
  tcache : TCache
  /-- The repositories now. -/
  repo : Repo

structure State where
  tcache : TCache
  depmap : List Str
  repo : Repo
  /-- The extract phases that have started, in order. -/
  extracts : List Extract
  /-- The builds that are finished, in order. -/
  finished : List (Arch × Template)

/-- The arguments of `build.build`; `origin` is the name of `pkg.origin_pkg`. -/
structure Call where
  step : Step
  arch : Arch
  chost : Bool
  origin : Str
  tmpl : Template

/-- The key of a build in `depmap`. -/
def depn (chost : Bool) (pkgname : Str) : Str :=
  if chost then "host-".toList ++ pkgname else pkgname

abbrev Call.depn (c : Call) : Str := Build.depn c.chost c.tmpl.pkgname

variable (env : Env)

/-- `Template(fulln, ..)` with everything initialized; no template stands for `SkipPackage`. -/
def newTemplate (repo : Repo) (arch : Arch) (fulln : FullName) :
    Except Error (Option Template) :=
  if env.src.isFile fulln then
    let full := env.src.resolve fulln
    match env.src.module arch full with
    | some ⟨some ver, true⟩ =>
        if env.apk.isBuilt repo arch full ver then .ok none
        else
          match env.src.fields arch full with
          | some fields => .ok (some ⟨fields, full, ver⟩)
          | none => .error (.badTemplate full)
    | _ => .error (.badTemplate full)
  else .error (.badTemplate fulln)

/-- Builds the missing templates one by one. `build` is `build.build`. -/
def buildMissing (build : Call → State → Fueled Error State) (arch : Arch) (chost : Bool)
    (origin : Str) : List FullName → State → Fueled Error State
  | [], st => pure st
  | fulln :: missing, st => do
      match ← newTemplate env st.repo arch fulln with
      | none => buildMissing build arch chost origin missing st
      | some t => do
          let st ← build ⟨.target .pkg, arch, chost, origin, t⟩ st
          buildMissing build arch chost origin missing st

/-- The two transactions at the end of `install`. -/
def installFromRepo (repo : Repo) (arch : Arch) (t : Template) (plan : Plan) :
    Except Error Unit :=
  let cross := env.src.cross arch
  let host := plan.hostBinpkgs ++ if cross then [] else plan.binpkgs
  if !env.apk.installs repo env.src.hostCpu (env.repos t) host then .error .installFailed
  else if cross && plan.binpkgs ≠ [] &&
      !env.apk.installs repo arch (env.repos t) plan.binpkgs then .error .installFailed
  else .ok ()

/-- `dependencies.install` -/
def install (build : Call → State → Fueled Error State) (c : Call) (st : State) :
    Fueled Error State := do
  let (plan, tcache) ← checkDepends env st.repo c.arch c.tmpl c.origin st.tcache
  let hostChost := c.chost || env.src.cross c.arch
  let st ← buildMissing env build env.src.hostCpu hostChost c.tmpl.pkgname plan.hostMissing
    { st with tcache }
  let st ← buildMissing env build c.arch c.chost c.tmpl.pkgname plan.missing st
  installFromRepo env st.repo c.arch c.tmpl plan
  return st

def runPhase (c : Call) (p : Phase) : Except Error Unit :=
  if env.runs p c.arch c.tmpl then .ok () else .error (.phaseFailed p c.tmpl.fullPkgname)

/-- `cdep`: the phase after which a custom target runs. -/
def customDep (c : Call) : Except Error (Option Step) :=
  match c.step with
  | .target _ => .ok none
  | .custom name =>
      match c.tmpl.customTargets.lookup name with
      | none => .error (.noTarget name)
      | some cdep => .ok (some cdep)

/-- `_step_sentinel`: the build stops after this phase. -/
def stepSentinel (c : Call) (cdep : Option Step) (p : Phase) : Except Error Bool :=
  if c.step = .target p then .ok true
  else if cdep = some (.target p) then do
    runPhase env c .custom
    return true
  else .ok false

/-- Runs phases, each with its sentinel, and tells whether one of them was the last. -/
def runPhases (c : Call) (cdep : Option Step) : List Phase → Except Error Bool
  | [] => .ok false
  | p :: ps => do
      runPhase env c p
      if ← stepSentinel env c cdep p then return true else runPhases c cdep ps

/-- The phases from `extract` on. -/
def Template.phases (t : Template) : List Phase :=
  .extract :: (if t.prepareAfterPatch then [.patch, .prepare] else [.prepare, .patch]) ++
    [.configure, .build, .check, .install]

namespace State

variable (st : State) (c : Call)

def enter : State := { st with depmap := c.depn :: st.depmap }

/-- The extract phase starts; the dependencies were checked in the state `checked`. -/
def extract (checked : State) : State :=
  { st with
    extracts := st.extracts ++ [⟨c.arch, c.tmpl, checked.repo, checked.tcache, st.repo⟩] }

/-- The packages are staged and indexed, and the build leaves `depmap`. -/
def finish : State :=
  { st with
    repo := env.lay.publish env.outputs st.repo c.arch c.tmpl
    finished := st.finished ++ [(c.arch, c.tmpl)]
    depmap := st.depmap.erase c.depn }

end State

/-- `_build_locked` from the extract phase on. -/
def buildExtracted (c : Call) (cdep : Option Step) (st : State) : Except Error State := do
  if ← runPhases env c cdep c.tmpl.phases then return st
  runPhase env c .pkg
  return st.finish env c

/-- `_build_locked` -/
def buildLocked (build : Call → State → Fueled Error State) (c : Call) (cdep : Option Step)
    (st : State) : Fueled Error State := do
  let st' ← install env build c st
  -- the chroot is brought up to date
  runPhase env c .deps
  if ← stepSentinel env c cdep .deps then return st'
  if ← runPhases env c cdep (if c.tmpl.ownFetch then [.fetch] else []) then return st'
  buildExtracted env c cdep (st'.extract c st)

/-- `_build`; the calls of `build.build` it leads to are given. -/
def buildWith (build : Call → State → Fueled Error State) (c : Call) (st : State) :
    Fueled Error State :=
  if st.depmap.contains c.depn then throw (.cycle c.tmpl.pkgname c.origin)
  else do
    let cdep ← customDep c
    runPhase env c .setup
    if ← runPhases env c cdep (if c.tmpl.ownFetch then [] else [.fetch]) then
      return st.enter c
    buildLocked env build c cdep (st.enter c)

/-- `build.build`, nested at most `fuel` deep. -/
def build : Nat → Call → State → Fueled Error State
  | 0, _, _ => Fueled.outOfFuel
  | fuel + 1, c, st => buildWith env (build fuel) c st

end Cbuild.Build
