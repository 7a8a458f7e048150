import Mathlib.Data.List.Basic

/-! # A mount namespace

A directory is named by the file system it is in and the path inside it. A lookup
starts at the root or the working directory of the process as they stand and
enters a mounted file system at each further component, so that what is mounted
over the root of the process is not seen by it.
-/

namespace Cbuild.Lib

structure Dir (F N : Type) where
  fs : F
  path : List N
  deriving DecidableEq

structure Namespace (F N : Type) where
  /-- Which file system is mounted on which directory. -/
  mounts : List (Dir F N × F)
  root : Dir F N
  cwd : Dir F N

namespace Namespace

variable {F N : Type} [DecidableEq F] [DecidableEq N]

def mountedOn (ns : Namespace F N) (d : Dir F N) : Option F :=
  (ns.mounts.find? fun m => m.1 = d).map (·.2)

/-- The root of the topmost file system mounted on a directory, or the directory itself. -/
def enter (ns : Namespace F N) : Nat → Dir F N → Dir F N
  | 0, d => d
  | n + 1, d =>
      match ns.mountedOn d with
      | some f => ns.enter n ⟨f, []⟩
      | none => d

def top (ns : Namespace F N) (d : Dir F N) : Dir F N := ns.enter ns.mounts.length d

def child (ns : Namespace F N) (d : Dir F N) (c : N) : Dir F N := ns.top ⟨d.fs, d.path ++ [c]⟩

def walk (ns : Namespace F N) (d : Dir F N) (cs : List N) : Dir F N := cs.foldl ns.child d

/-- `mount(2)` of a file system. -/
def mount (ns : Namespace F N) (f : F) (target : Dir F N) : Namespace F N :=
  { ns with mounts := (ns.top target, f) :: ns.mounts }

/-- `mount(2)` with `MS_MOVE`; nothing but a mount can be moved. -/
def move (ns : Namespace F N) (source target : Dir F N) : Namespace F N :=
  if source.path = [] then
    { ns with mounts := (ns.top target, source.fs) :: ns.mounts.filter (·.2 ≠ source.fs) }
  else ns

def chdir (ns : Namespace F N) (d : Dir F N) : Namespace F N := { ns with cwd := d }

def chroot (ns : Namespace F N) (d : Dir F N) : Namespace F N := { ns with root := d }

end Namespace

end Cbuild.Lib
