import Cbuild.Initrd.Cmdline
import Cbuild.Lib.Namespace
import Cbuild.Lib.Wp
import Mathlib.Data.List.DropRight

/-! # The boot sequence of `myos-initrd`

The functions of `user/myos-initrd/files/src/main.rs` from `mount_fs` to `main`,
over the mount namespace of the process. `Machine` is what the program finds and
what the kernel answers: each operation that can fail is asked for at most once
in a run, so whether it fails is a function of the operation. The image is the
one `scripts/mkinitrd.sh` packs; the mount points of the target are directories.
-/

namespace Cbuild.Initrd

open Lib

inductive Fs
  | initramfs | devtmpfs | devpts | proc | sysfs | tmpfs | target
  deriving DecidableEq

/-- The text of a `std::io::Error`. -/
abbrev OsError := Str

/-- The operations the kernel may refuse. -/
inductive Op
  | createDirAll (path : Str)
  | mount (source : Option Str) (target : Str) (fsType : Option Str)
  /-- The second reading of a file is told from the first. -/
  | readToString (path : Str) (again : Bool)
  /-- `insmod` for a line of the module list does not start. -/
  | startInsmod (line : Nat)
  /-- It starts and reports a failure. -/
  | insmod (line : Nat)
  | chdir (path : Str)
  | chroot (path : Str)
  | exec (path : Str)
  deriving DecidableEq

structure Machine where
  args : List Str
  pid : Nat
  /-- The command line the machine was booted with. -/
  cmdline : Str
  /-- `/etc/modules.load` of the image. -/
  modulesLoad : Option Str
  fails : Op → Option OsError
  /-- Whether the root device exists at each look of `wait_for_root`. -/
  found : Nat → Bool
  /-- The whole seconds passed before each look. -/
  elapsed : Nat → Nat

/-- The errors of the source, with the values their texts name. -/
inductive BootError
  | nul (value : Str)
  | mkdir (path : Str) (e : OsError)
  | mount (target : Str) (e : OsError)
  /-- No error of the system: the file does not exist. -/
  | read (path : Str) (e : Option OsError)
  | startInsmod (module : Str) (e : OsError)
  | insmod (module : Str) (status : OsError)
  | noRoot
  | rootMissing (path : Str)
  | cannotMount (device : Str) (errors : List (Str × BootError))
  | chdir (path : Str) (e : OsError)
  | chroot (e : OsError)
  | exec (init : Str) (e : OsError)

inductive Event
  | message (e : BootError)
  | loaded (module : Str)
  /-- `Command::status` of a program, and where its path leads. -/
  | command (program : Dir Fs Str) (args : List Str)
  | parked
  | selfTest
  | notInit

structure World where
  ns : Namespace Fs Str
  log : List Event

namespace World

def start : World := ⟨⟨[], ⟨.initramfs, []⟩, ⟨.initramfs, []⟩⟩, []⟩

def push (w : World) (e : Event) : World := { w with log := w.log ++ [e] }

end World

def components (path : Str) : List Str :=
  (path.splitOn '/').filter fun c => c ≠ [] ∧ c ≠ ['.']

/-- Where a path leads. -/
def lookup (ns : Namespace Fs Str) (path : Str) : Dir Fs Str :=
  ns.walk (if path.head? = some '/' then ns.root else ns.cwd) (components path)

/-- How a call of `boot` ends other than with `Ok`. -/
inductive Halt
  | failed (e : BootError)
  /-- `exec` succeeded, the program is no longer running. -/
  | replaced
  /-- Still in the loop of `wait_for_root`. -/
  | waiting

abbrev Boot (α : Type) : Type := EStateM Halt World α

def fail {α : Type} (e : BootError) : Boot α := throw (.failed e)

/-! ## Files and mounts -/

def armybox : Str := "/bin/armybox".toList

/-- The arguments that make it the recovery shell. -/
def recoveryArgs : List Str := ["sh".toList]

def selfTestFlag : Str := "--self-test".toList

def procCmdline : Str := "/proc/cmdline".toList

def modulesList : Str := "/etc/modules.load".toList

def msRdonly : Nat := 1
def msNosuid : Nat := 2
def msNodev : Nat := 4
def msNoexec : Nat := 8
def msMove : Nat := 8192
def msRec : Nat := 16384
def msPrivate : Nat := 2 ^ 18

section

variable (m : Machine)

/-- The text files there are: the one of procfs and the list of the image. -/
def fileText (d : Dir Fs Str) : Option Str :=
  if d = ⟨.proc, ["cmdline".toList]⟩ then some (m.cmdline ++ ['\n'])
  else if d = ⟨.initramfs, ["etc".toList, "modules.load".toList]⟩ then m.modulesLoad
  else none

/-- `fs::read_to_string`; the error `none` is `NotFound`. -/
def readToString (w : World) (path : Str) (again : Bool) : Except (Option OsError) Str :=
  match m.fails (.readToString path again) with
  | some e => .error (some e)
  | none =>
      match fileText m (lookup w.ns path) with
      | some text => .ok text
      | none => .error none

/-- An operation that the kernel refuses or carries out. -/
def call (op : Op) (err : OsError → BootError) : Boot Unit :=
  match m.fails op with
  | some e => fail (err e)
  | none => pure ()

def cstring (value : Str) : Boot Unit :=
  if '\x00' ∈ value then fail (.nul value) else pure ()

def cstringOption : Option Str → Boot Unit
  | some value => cstring value
  | none => pure ()

/-- A mount of this program is named by where it is put, whatever its type. -/
def Fs.mountedAt (target : Str) : Fs :=
  if target = "/dev".toList then .devtmpfs
  else if target = "/dev/pts".toList then .devpts
  else if target = "/proc".toList then .proc
  else if target = "/sys".toList then .sysfs
  else if target = "/run".toList then .tmpfs
  else .target

/-- What a `mount(2)` that succeeds does to the namespace. -/
def mounted (ns : Namespace Fs Str) (source : Option Str) (target : Str) (flags : Nat) :
    Namespace Fs Str :=
  if flags &&& msMove ≠ 0 then ns.move (lookup ns (source.getD [])) (lookup ns target)
  else if flags &&& msPrivate ≠ 0 then ns
  else ns.mount (Fs.mountedAt target) (lookup ns target)

def mountFs (source : Option Str) (target : Str) (fsType : Option Str) (flags : Nat)
    (data : Option Str) : Boot Unit := do
  cstringOption source
  cstring target
  cstringOption fsType
  cstringOption data
  call m (.mount source target fsType) (.mount target)
  modify fun w => { w with ns := mounted w.ns source target flags }

def createDirAll (path : Str) : Boot Unit := call m (.createDirAll path) (.mkdir path)

/-- A mount whose source and type have one name. -/
def mountKernelFs (name target : String) (flags : Nat) (data : Option Str) : Boot Unit :=
  mountFs m (some name.toList) target.toList (some name.toList) flags data

def prepareKernelFilesystems : Boot Unit := do
  createDirAll m "/dev".toList
  createDirAll m "/proc".toList
  createDirAll m "/sys".toList
  createDirAll m "/run".toList
  createDirAll m "/newroot".toList
  mountFs m none "/".toList none (msRec ||| msPrivate) none
  mountKernelFs m "devtmpfs" "/dev" msNosuid (some "mode=0755".toList)
  createDirAll m "/dev/pts".toList
  mountKernelFs m "devpts" "/dev/pts" (msNosuid ||| msNoexec) none
  mountKernelFs m "proc" "/proc" (msNosuid ||| msNodev ||| msNoexec) none
  mountKernelFs m "sysfs" "/sys" (msNosuid ||| msNodev ||| msNoexec) none
  mountKernelFs m "tmpfs" "/run" (msNosuid ||| msNodev) (some "mode=0755".toList)

/-! ## Modules -/

/-- `char::is_whitespace`, the Unicode property White_Space. -/
def isWhitespace (c : Char) : Bool :=
  (0x9 ≤ c.toNat && c.toNat ≤ 0xD) || (0x2000 ≤ c.toNat && c.toNat ≤ 0x200A) ||
    [0x20, 0x85, 0xA0, 0x1680, 0x2028, 0x2029, 0x202F, 0x205F, 0x3000].contains c.toNat

def trim (s : Str) : Str := (s.dropWhile isWhitespace).rdropWhile isWhitespace

/-- `str::lines`: no empty line at the end, and no carriage return before a line feed. -/
def lines (s : Str) : List Str :=
  let parts := s.splitOn '\n'
  let parts := if parts.getLast? = some [] then parts.dropLast else parts
  parts.map fun l => if l.getLast? = some '\r' then l.dropLast else l

def insmod (n : Nat) (module : Str) : Boot Unit := do
  call m (.startInsmod n) (.startInsmod module)
  modify fun w => w.push (.command (lookup w.ns armybox) ["insmod".toList, module])
  call m (.insmod n) (.insmod module)
  modify fun w => w.push (.loaded module)

/-- The loop over the module list, from its line number `n` on. -/
def loadLines (n : Nat) : List Str → Boot Unit
  | [] => pure ()
  | line :: rest => do
      if trim line ≠ [] ∧ (trim line).head? ≠ some '#' then
        insmod m n (trim line)
      loadLines (n + 1) rest

def loadModules : Boot Unit := do
  match readToString m (← get) modulesList false with
  | .ok moduleList => loadLines m 0 (lines moduleList)
  | .error none => pure ()
  | .error (some e) => fail (.read modulesList (some e))

/-! ## The root device -/

/-- `Path::join`: an absolute path takes the place of the directory. -/
def pathJoin (directory value : Str) : Str :=
  if value.head? = some '/' then value else directory ++ '/' :: value

def rootPath (spec : Str) : Str :=
  if let some value := stripPrefix "UUID=".toList spec then
    pathJoin "/dev/disk/by-uuid".toList value
  else if let some value := stripPrefix "PARTUUID=".toList spec then
    pathJoin "/dev/disk/by-partuuid".toList value
  else if let some value := stripPrefix "LABEL=".toList spec then
    pathJoin "/dev/disk/by-label".toList value
  else if let some value := stripPrefix "PARTLABEL=".toList spec then
    pathJoin "/dev/disk/by-partlabel".toList value
  else spec

/-- The looks of `wait_for_root` from the `k`-th on; `none` after `polls` of them. -/
def pollRoot (cfg : BootConfig) (k : Nat) : Nat → Option Bool
  | 0 => none
  | polls + 1 =>
      if m.found k then some true
      else if cfg.waitForever = false ∧ cfg.timeout ≤ m.elapsed k then some false
      else pollRoot cfg (k + 1) polls

def waitForRoot (cfg : BootConfig) (polls : Nat) : Boot Str :=
  if cfg.root = [] then fail .noRoot
  else
    match pollRoot m cfg 0 polls with
    | some true => pure (rootPath cfg.root)
    | some false => fail (.rootMissing (rootPath cfg.root))
    | none => throw .waiting

def candidates (cfg : BootConfig) : List Str :=
  match cfg.rootType with
  | some kind => [kind]
  | none => ["ext4".toList, "xfs".toList, "btrfs".toList, "f2fs".toList, "squashfs".toList]

def newroot : Str := "/newroot".toList

/-- The loop over the types, with the errors so far. -/
def mountKinds (device : Str) (cfg : BootConfig) (errors : List (Str × BootError)) :
    List Str → Boot Unit
  | [] => fail (.cannotMount device errors)
  | kind :: rest =>
      tryCatch
        (mountFs m (some device) newroot (some kind) (if cfg.readonly then msRdonly else 0)
          (if cfg.rootFlags = [] then none else some cfg.rootFlags))
        fun
          | .failed e => mountKinds device cfg (errors ++ [(kind, e)]) rest
          | h => throw h

def mountRoot (device : Str) (cfg : BootConfig) : Boot Unit :=
  mountKinds m device cfg [] (candidates cfg)

/-! ## Leaving the image -/

def moveMount (old new : Str) : Boot Unit := do
  createDirAll m new
  mountFs m (some old) new none msMove none

def chdir (path : Str) : Boot Unit := do
  call m (.chdir path) (.chdir path)
  modify fun w => { w with ns := w.ns.chdir (lookup w.ns path) }

def chroot (path : Str) : Boot Unit := do
  call m (.chroot path) .chroot
  modify fun w => { w with ns := w.ns.chroot (lookup w.ns path) }

/-- `Command::exec`, which only returns to report an error. -/
def exec (init : Str) : Boot Unit :=
  if '\x00' ∈ init then fail (.exec init "nul byte found in provided data".toList)
  else
    match m.fails (.exec init) with
    | some e => fail (.exec init e)
    | none => throw .replaced

def switchRoot (init : Str) : Boot Unit := do
  moveMount m "/dev".toList "/newroot/dev".toList
  moveMount m "/proc".toList "/newroot/proc".toList
  moveMount m "/sys".toList "/newroot/sys".toList
  moveMount m "/run".toList "/newroot/run".toList
  chdir m newroot
  mountFs m (some ".".toList) "/".toList none msMove none
  chroot m ".".toList
  chdir m "/".toList
  exec m init

/-! ## The program -/

def boot (polls : Nat) : Boot Unit := do
  prepareKernelFilesystems m
  loadModules m
  match readToString m (← get) procCmdline false with
  | .error e => fail (.read procCmdline e)
  | .ok cmdline =>
      let cfg := parseCmdline cmdline
      let root ← waitForRoot m cfg polls
      mountRoot m root cfg
      switchRoot m cfg.init

/-- The rounds of the recovery loop that have begun. -/
def recoveryShell (w : World) : Nat → World
  | 0 => w
  | rounds + 1 => recoveryShell (w.push (.command (lookup w.ns armybox) recoveryArgs)) rounds

def emergencyShell (message : BootError) (enabled : Bool) (rounds : Nat) (w : World) : World :=
  let w := w.push (.message message)
  if enabled then recoveryShell w rounds else w.push .parked

/-- What `main` reads again once `boot` has failed. -/
def shellEnabled (w : World) : Bool :=
  match readToString m w procCmdline true with
  | .ok cmdline => (parseCmdline cmdline).shellOnError
  | .error _ => (parseCmdline []).shellOnError

def Machine.selfTest : Bool := m.args.any fun arg => arg = selfTestFlag

/-- `main`, observed for some looks at the root device and some rounds of the shell. -/
def main (polls rounds : Nat) : World :=
  if m.selfTest then World.start.push .selfTest
  else if m.pid ≠ 1 then World.start.push .notInit
  else
    match (boot m polls).run World.start with
    | .error (.failed error) w => emergencyShell error (shellEnabled m w) rounds w
    | .error _ w => w
    | .ok _ w => w

end

end Cbuild.Initrd
