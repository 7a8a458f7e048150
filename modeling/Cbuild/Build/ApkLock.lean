import Cbuild.Build.Repo
import Cbuild.Lib.FileLocks

/-! # The locks of apk

What the resolution of dependencies asks of apk, and what it installs with it, happens inside
`with flock.lock(flock.apklock(arch))`. The lock files are in the cache directory that the
processes share, and each call names its file from the architecture it has at hand.
-/

namespace Cbuild.Build.ApkLock

open Lib FileLocks

/-- `apklock`, the name of the file; `None` is formatted like any other architecture. -/
def apklock (arch : Option Arch) : Str :=
  "apk-".toList ++ (arch.getD "None".toList ++ ".lock".toList)

/-- `arch if arch else chroot.host_cpu()` -/
def archOrHost (host : Arch) : Option Arch → Arch
  | none => host
  | some [] => host
  | some arch => arch

/-- `_is_available` does not return before it asks the repositories one by one. -/
def asksRepos (pkgn pkgop : Str) (pkgv : Option Str) (pvers : List Str) : Bool :=
  match pkgv with
  | none => false
  | some [] => false
  | some pkgv =>
      match anyMatch pkgn (pkgn ++ pkgop ++ pkgv) pvers.reverse with
      | .ok true => pvers.length != 1
      | _ => false

inductive ApkCall
  /-- `_get_vers` -/
  | getVers (plist : List Str) (arch : Option Arch)
  /-- `_is_available`, with the versions that `vers` has of the package -/
  | isAvailable (pkgn pkgop : Str) (pkgv : Option Str) (pvers : List Str) (arch : Option Arch)
  /-- `_install_from_repo`, as `install` calls it -/
  | installFromRepo (cross : Bool) (tarch : Arch)
  /-- `Template.is_built` -/
  | isBuilt (archn : Arch)
  /-- The hook that scans for runtime dependencies. -/
  | scanRuntimeDeps (scanrundeps : Bool) (arch : Arch)

namespace ApkCall

variable (host : Arch)

/-- The file that is locked while apk runs; none if the call ends without it. -/
def lockFile : ApkCall → Option Str
  | getVers plist arch =>
      if plist.isEmpty then none else some (apklock (some (archOrHost host arch)))
  | isAvailable pkgn pkgop pkgv pvers arch =>
      if asksRepos pkgn pkgop pkgv pvers then some (apklock arch) else none
  | installFromRepo cross tarch => some (apklock (some (if cross then tarch else host)))
  | isBuilt archn => some (apklock (some archn))
  | scanRuntimeDeps scanrundeps arch => if scanrundeps then some (apklock (some arch)) else none

/-- The architecture that apk works on, which without an `arch` is that of the host. -/
def arch : ApkCall → Arch
  | getVers _ arch => archOrHost host arch
  | isAvailable _ _ _ _ arch => archOrHost host arch
  | installFromRepo cross tarch => if cross then tarch else host
  | isBuilt archn => archn
  | scanRuntimeDeps _ arch => arch

/-- A lookup of `_is_available` that is given no architecture: that of a host dependency. -/
def hostLookup : ApkCall → Bool
  | isAvailable _ _ _ _ none => true
  | isAvailable _ _ _ _ (some []) => true
  | _ => false

end ApkCall

/-- As long as the repositories are not asked, what `_is_available` returns does not depend on
them. -/
theorem isAvailable_of_not_asksRepos {pkgn pkgop : Str} {pkgv : Option Str} {pvers : List Str}
    (h : asksRepos pkgn pkgop pkgv pvers = false) (hpkgv : pkgv ≠ some [])
    (crepos crepos' : List (List Str)) :
    isAvailable pkgn pkgop pkgv pvers crepos = isAvailable pkgn pkgop pkgv pvers crepos' := by
  unfold isAvailable
  cases pvers.getLast? with
  | none => rfl
  | some latest =>
      cases pkgv with
      | none => rfl
      | some pkgv =>
          have hasks : ∀ good, anyMatch pkgn (pkgn ++ pkgop ++ pkgv) pvers.reverse = .ok good →
              good = false ∨ pvers.length = 1 := by
            intro good hgood
            cases good with
            | false => exact Or.inl rfl
            | true =>
                right
                unfold asksRepos at h
                cases pkgv with
                | nil => exact absurd rfl hpkgv
                | cons c cs =>
                    dsimp only at h
                    rw [hgood] at h
                    simpa using h
          dsimp only
          cases hany : anyMatch pkgn (pkgn ++ pkgop ++ pkgv) pvers.reverse with
          | error e => rfl
          | ok good =>
              rcases hasks good hany with hfalse | hone
              · rw [hfalse]
                rfl
              · simp [hone]

/-- Every call but those lookups locks the file of its architecture. -/
theorem ApkCall.lockFile_eq {host : Arch} {call : ApkCall} {file : Str}
    (hlocks : call.lockFile host = some file) (h : call.hostLookup = false) :
    file = apklock (some (call.arch host)) := by
  cases call with
  | getVers plist arch =>
      simp only [lockFile] at hlocks
      split at hlocks
      · cases hlocks
      · exact (Option.some.inj hlocks).symm
  | isAvailable pkgn pkgop pkgv pvers arch =>
      simp only [lockFile] at hlocks
      split at hlocks
      · rw [← Option.some.inj hlocks]
        cases arch with
        | none => cases h
        | some a =>
            cases a with
            | nil => cases h
            | cons c cs => rfl
      · cases hlocks
  | installFromRepo cross tarch => exact (Option.some.inj hlocks).symm
  | isBuilt archn => exact (Option.some.inj hlocks).symm
  | scanRuntimeDeps scanrundeps arch =>
      simp only [lockFile] at hlocks
      split at hlocks
      · exact (Option.some.inj hlocks).symm
      · cases hlocks

/-- A call that gets to apk. -/
structure Section (host : Arch) where
  call : ApkCall
  file : Str
  locks : call.lockFile host = some file

variable {host : Arch}

def Section.arch (x : Section host) : Arch := x.call.arch host

variable {P : Type} [DecidableEq P]

/-- Two processes do not run apk for one architecture. -/
def Exclusive (s : System P Str (Section host)) : Prop :=
  ∀ p q x y, s.Inside p x → s.Inside q y → x.arch = y.arch → p = q

/-- Whatever runs apk for an architecture has locked the file of that architecture. -/
def UnderItsLock (s : System P Str (Section host)) : Prop :=
  ∀ p x, s.Inside p x → x.file = apklock (some x.arch)

/-- No lookup of a host dependency asks the repositories one by one. -/
def NoHostLookup : Act P (Section host) → Prop
  | .enter _ x => x.call.hostLookup = false
  | _ => True

/-- In a run without such lookups, apk runs for an architecture under one lock file, and in one
process at a time. -/
theorem apkLock_exclusive {noLock : P → Bool} {s : System P Str (Section host)}
    (h : Reaches (step Section.file noLock)
      (fun s a => Keeps Section.file noLock s a ∧ NoHostLookup a) System.init s) :
    Exclusive s ∧ UnderItsLock s := by
  have howned := owned_of_reaches (fun _ _ hC => hC.1) h
  have hlookup : ∀ p, ∀ e ∈ s.entries p, e.sec.call.hostLookup = false :=
    secs_of_reaches (Q := fun x => x.call.hostLookup = false) (fun _ _ _ hC => hC.2) h
  have hfile : UnderItsLock s := by
    intro p x hp
    exact ApkCall.lockFile_eq x.locks (hlookup p _ hp)
  refine ⟨fun p q x y hp hq harch => howned.exclusive hp hq ?_, hfile⟩
  rw [hfile p x hp, hfile q y hq, harch]

/-! ## Two processes -/

/-- `_get_vers` of a host dependency. -/
def sectionVers : Section "x86_64".toList where
  call := .getVers ["foo".toList] none
  file := "apk-x86_64.lock".toList
  locks := by decide

/-- `_is_available` of it, two versions being available. -/
def sectionLookup : Section "x86_64".toList where
  call := .isAvailable "foo".toList "=".toList (some "1-r0".toList)
    ["1-r0".toList, "2-r0".toList] none
  file := "apk-None.lock".toList
  locks := by decide +kernel

/-- `is_built` of a template for the same architecture. -/
def sectionBuilt : Section "x86_64".toList where
  call := .isBuilt "x86_64".toList
  file := "apk-x86_64.lock".toList
  locks := by decide

theorem apkLock_exclusive_handOver :
    ∃ s : System Bool Str (Section "x86_64".toList), s.Inside true sectionBuilt ∧
      Exclusive s ∧ UnderItsLock s := by
  have h : Reaches (step Section.file fun _ : Bool => false)
      (fun s a => Keeps Section.file (fun _ => false) s a ∧ NoHostLookup a) System.init _ :=
    Reaches.start
    |>.next (Act.enter false sectionVers) ⟨rfl, rfl⟩ rfl
    |>.next (Act.lockf false) ⟨trivial, trivial⟩ rfl
    |>.next (Act.leave false) ⟨⟨rfl, fun x es hes y hy => by cases hes; cases hy⟩, trivial⟩ rfl
    |>.next (Act.enter true sectionBuilt) ⟨rfl, rfl⟩ rfl
    |>.next (Act.lockf true) ⟨trivial, trivial⟩ rfl
  exact ⟨_, List.mem_cons_self, apkLock_exclusive h⟩

/-- While one process looks a host dependency up, the other one asks for a package of the same
architecture. -/
theorem hostLookup_not_exclusive : ¬ ∀ s : System Bool Str (Section "x86_64".toList),
    Reaches (step Section.file fun _ => false)
      (fun s a => Keeps Section.file (fun _ => false) s a) System.init s → Exclusive s := by
  intro hall
  have hkeeps (s : System Bool Str (Section "x86_64".toList)) (p x) :
      Keeps Section.file (fun _ => false) s (.enter p x) := rfl
  have h : Reaches (step Section.file fun _ : Bool => false)
      (fun s a => Keeps Section.file (fun _ => false) s a) System.init _ :=
    Reaches.start
    |>.next (Act.enter false sectionLookup) (hkeeps _ _ _) rfl
    |>.next (Act.lockf false) trivial rfl
    |>.next (Act.enter true sectionBuilt) rfl rfl
    |>.next (Act.lockf true) trivial rfl
  have hsame := hall _ h false true sectionLookup sectionBuilt List.mem_cons_self
    List.mem_cons_self rfl
  cases hsame

end Cbuild.Build.ApkLock
