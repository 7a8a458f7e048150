import Cbuild.Initrd.Boot

/-! # What the parts of the boot sequence do to the namespace

A `Segment` is a stretch of the sequence together with the condition on the
machine under which it goes through, the namespaces it starts and ends in, and
those it can fail in. The parts of `boot` are segments one after another.
-/

namespace Cbuild.Initrd

open Lib

abbrev Mounts : Type := Namespace Fs Str

/-- The recovery shell has not been run. -/
def World.NoShell (w : World) : Prop := ∀ d, .command d recoveryArgs ∉ w.log

theorem World.NoShell.push {w : World} (hw : w.NoShell) {e : Event}
    (he : ∀ d, e ≠ .command d recoveryArgs) : (w.push e).NoShell := by
  intro d hd
  rcases List.mem_append.mp hd with hd | hd
  · exact hw d hd
  · exact he d (List.mem_singleton.mp hd).symm

def Halt.Failed (h : Halt) : Prop := ∃ e, h = .failed e

/-- From `ns` the program ends in `ns'` if `c` holds, and else fails in one of `fs`. -/
def Segment (x : Boot Unit) (c : Prop) (ns ns' : Mounts) (fs : List Mounts) : Prop :=
  ∀ w : World, w.ns = ns → w.NoShell →
    wp x (fun _ w' => c ∧ w'.ns = ns' ∧ w'.NoShell)
      (fun h w' => h.Failed ∧ ¬ c ∧ w'.ns ∈ fs ∧ w'.NoShell) w

namespace Segment

variable {x y : Boot Unit} {c d : Prop} {ns ns₁ ns₂ : Mounts} {fs gs : List Mounts}

theorem pure : Segment (pure ()) True ns ns [] :=
  fun _ hns hw => ⟨trivial, hns, hw⟩

theorem bind (hx : Segment x c ns ns₁ fs) (hy : Segment y d ns₁ ns₂ gs) :
    Segment (x >>= fun _ => y) (c ∧ d) ns ns₂ (fs ++ gs) := by
  intro w hns hw
  rw [wp_bind]
  apply wp_mono (hx w hns hw)
  · intro _ w₁ h₁
    obtain ⟨hc, hns₁, hw₁⟩ := h₁
    apply wp_mono (hy w₁ hns₁ hw₁)
    · intro _ w₂ h₂
      exact ⟨⟨hc, h₂.1⟩, h₂.2⟩
    · intro h w₂ h₂
      exact ⟨h₂.1, fun hcd => h₂.2.1 hcd.2, by simp [h₂.2.2.1], h₂.2.2.2⟩
  · intro h w₁ h₁
    exact ⟨h₁.1, fun hcd => h₁.2.1 hcd.1, by simp [h₁.2.2.1], h₁.2.2.2⟩

theorem mono (h : Segment x c ns ns₁ fs) (hc : c ↔ d) (hsub : ∀ n ∈ fs, n ∈ gs) :
    Segment x d ns ns₁ gs := by
  intro w hns hw
  apply wp_mono (h w hns hw)
  · intro _ w' h'
    exact ⟨hc.mp h'.1, h'.2⟩
  · intro e w' h'
    exact ⟨h'.1, fun hd => h'.2.1 (hc.mpr hd), hsub _ h'.2.2.1, h'.2.2.2⟩

end Segment

/-! ## Single operations -/

section

variable {m : Machine} {ns : Mounts}

theorem segment_call (op : Op) (err : OsError → BootError) :
    Segment (call m op err) (m.fails op = none) ns ns [ns] := by
  intro w hns hw
  unfold call
  cases hop : m.fails op with
  | some e => exact ⟨⟨_, rfl⟩, nofun, by simp [hns], hw⟩
  | none => exact ⟨rfl, hns, hw⟩

/-- An operation that changes the namespace once it has succeeded. -/
theorem segment_change (f : Mounts → Mounts) :
    Segment (modify fun w => { w with ns := f w.ns }) True ns (f ns) [] := by
  intro w hns hw
  rw [wp_modify]
  exact ⟨trivial, by rw [hns], hw⟩

theorem segment_cstring (value : Str) :
    Segment (cstring value) ('\x00' ∉ value) ns ns [ns] := by
  intro w hns hw
  unfold cstring
  split
  · rename_i h
    exact ⟨⟨_, rfl⟩, fun hn => hn h, by simp [hns], hw⟩
  · rename_i h
    exact ⟨h, hns, hw⟩

theorem segment_cstringOption (value : Option Str) :
    Segment (cstringOption value) (∀ v, value = some v → '\x00' ∉ v) ns ns [ns] := by
  cases value with
  | none => exact Segment.pure.mono (by simp) (by simp)
  | some v => exact (segment_cstring v).mono (by simp) (fun _ h => h)

theorem segment_createDirAll (path : Str) :
    Segment (createDirAll m path) (m.fails (.createDirAll path) = none) ns ns [ns] :=
  segment_call _ _

/-- No argument of the call has a NUL in it, and the kernel carries it out. -/
def Mounting (m : Machine) (source : Option Str) (target : Str) (fsType : Option Str)
    (data : Option Str) : Prop :=
  (∀ v, source = some v → '\x00' ∉ v) ∧ '\x00' ∉ target ∧ (∀ v, fsType = some v → '\x00' ∉ v) ∧
    (∀ v, data = some v → '\x00' ∉ v) ∧ m.fails (.mount source target fsType) = none

theorem segment_mountFs (source : Option Str) (target : Str) (fsType : Option Str) (flags : Nat)
    (data : Option Str) :
    Segment (mountFs m source target fsType flags data) (Mounting m source target fsType data)
      ns (mounted ns source target flags) [ns] := by
  have h := (segment_cstringOption source).bind <| (segment_cstring target).bind <|
    (segment_cstringOption fsType).bind <| (segment_cstringOption data).bind <|
    (@segment_call m ns (.mount source target fsType) (.mount target)).bind <|
    segment_change fun ns => mounted ns source target flags
  exact h.mono (by simp [Mounting]) (by simp)

theorem segment_chdir (path : Str) :
    Segment (chdir m path) (m.fails (.chdir path) = none) ns (ns.chdir (lookup ns path)) [ns] :=
  ((segment_call _ _).bind (segment_change fun ns => ns.chdir (lookup ns path))).mono
    (by simp) (by simp)

theorem segment_chroot (path : Str) :
    Segment (chroot m path) (m.fails (.chroot path) = none) ns (ns.chroot (lookup ns path)) [ns] :=
  ((segment_call _ _).bind (segment_change fun ns => ns.chroot (lookup ns path))).mono
    (by simp) (by simp)

end

/-! ## The operations of each part -/

/-- The kernel refuses none of the operations. -/
def Machine.Passes (m : Machine) (ops : List Op) : Prop := ∀ op ∈ ops, m.fails op = none

def kernelMount (name target : String) : Op :=
  .mount (some name.toList) target.toList (some name.toList)

def moving (old new : String) : List Op :=
  [.createDirAll new.toList, .mount (some old.toList) new.toList none]

def untilProc : List Op :=
  [.createDirAll "/dev".toList, .createDirAll "/proc".toList, .createDirAll "/sys".toList,
    .createDirAll "/run".toList, .createDirAll newroot, .mount none "/".toList none,
    kernelMount "devtmpfs" "/dev", .createDirAll "/dev/pts".toList,
    kernelMount "devpts" "/dev/pts", kernelMount "proc" "/proc"]

def sysAndRun : List Op := [kernelMount "sysfs" "/sys", kernelMount "tmpfs" "/run"]

def devAndProc : List Op := moving "/dev" "/newroot/dev" ++ moving "/proc" "/newroot/proc"

def untilChroot : List Op :=
  moving "/sys" "/newroot/sys" ++ moving "/run" "/newroot/run" ++
    [.chdir newroot, .mount (some ".".toList) "/".toList none, .chroot ".".toList]

/-- `insmod` of the lines of the list, from the number `n` on. -/
def LoadsLines (m : Machine) (n : Nat) : List Str → Prop
  | [] => True
  | line :: rest =>
      (trim line ≠ [] ∧ (trim line).head? ≠ some '#' →
        m.Passes [.startInsmod n, .insmod n]) ∧ LoadsLines m (n + 1) rest

def LoadsModules (m : Machine) : Prop :=
  m.Passes [.readToString modulesList false] ∧
    ∀ moduleList, m.modulesLoad = some moduleList → LoadsLines m 0 (lines moduleList)

def MountsKind (m : Machine) (cfg : BootConfig) (kind : Str) : Prop :=
  Mounting m (some (rootPath cfg.root)) newroot (some kind)
    (if cfg.rootFlags = [] then none else some cfg.rootFlags)

/-- One of the types mounts. -/
def MountsRoot (m : Machine) (cfg : BootConfig) : Prop :=
  ∃ kind ∈ candidates cfg, MountsKind m cfg kind

/-- The program to start is started. -/
def Starts (m : Machine) (init : Str) : Prop := '\x00' ∉ init ∧ m.Passes [.exec init]

/-! ## The namespaces on the way -/

def dirAt (fs : Fs) (path : List String) : Dir Fs Str := ⟨fs, path.map String.toList⟩

def bare : Mounts := World.start.ns

def devMounted : Mounts := { bare with mounts := [(dirAt .initramfs ["dev"], .devtmpfs)] }

def ptsMounted : Mounts :=
  { bare with mounts := (dirAt .devtmpfs ["pts"], .devpts) :: devMounted.mounts }

def procMounted : Mounts :=
  { bare with mounts := (dirAt .initramfs ["proc"], .proc) :: ptsMounted.mounts }

def sysMounted : Mounts :=
  { bare with mounts := (dirAt .initramfs ["sys"], .sysfs) :: procMounted.mounts }

def prepared : Mounts :=
  { bare with mounts := (dirAt .initramfs ["run"], .tmpfs) :: sysMounted.mounts }

def rootMounted : Mounts :=
  { bare with mounts := (dirAt .initramfs ["newroot"], .target) :: prepared.mounts }

def devMoved : Mounts :=
  { bare with mounts :=
      [(dirAt .target ["dev"], .devtmpfs), (dirAt .initramfs ["newroot"], .target),
        (dirAt .initramfs ["run"], .tmpfs), (dirAt .initramfs ["sys"], .sysfs),
        (dirAt .initramfs ["proc"], .proc), (dirAt .devtmpfs ["pts"], .devpts)] }

def procMoved : Mounts :=
  { bare with mounts :=
      [(dirAt .target ["proc"], .proc), (dirAt .target ["dev"], .devtmpfs),
        (dirAt .initramfs ["newroot"], .target), (dirAt .initramfs ["run"], .tmpfs),
        (dirAt .initramfs ["sys"], .sysfs), (dirAt .devtmpfs ["pts"], .devpts)] }

def sysMoved : Mounts :=
  { bare with mounts :=
      [(dirAt .target ["sys"], .sysfs), (dirAt .target ["proc"], .proc),
        (dirAt .target ["dev"], .devtmpfs), (dirAt .initramfs ["newroot"], .target),
        (dirAt .initramfs ["run"], .tmpfs), (dirAt .devtmpfs ["pts"], .devpts)] }

def runMoved : Mounts :=
  { bare with mounts :=
      [(dirAt .target ["run"], .tmpfs), (dirAt .target ["sys"], .sysfs),
        (dirAt .target ["proc"], .proc), (dirAt .target ["dev"], .devtmpfs),
        (dirAt .initramfs ["newroot"], .target), (dirAt .devtmpfs ["pts"], .devpts)] }

def entered : Mounts := { runMoved with cwd := dirAt .target [] }

/-- The target is mounted over the root, which the process does not see. -/
def covered : Mounts :=
  { entered with mounts :=
      [(dirAt .initramfs [], .target), (dirAt .target ["run"], .tmpfs), (dirAt .target ["sys"], .sysfs),
        (dirAt .target ["proc"], .proc), (dirAt .target ["dev"], .devtmpfs),
        (dirAt .devtmpfs ["pts"], .devpts)] }

def switched : Mounts := { covered with root := dirAt .target [] }

/-! ## The parts -/

section

variable {m : Machine}

/-- `prepare_kernel_filesystems` as far as the mount of procfs. -/
def mountUntilProc (m : Machine) : Boot Unit := do
  createDirAll m "/dev".toList
  createDirAll m "/proc".toList
  createDirAll m "/sys".toList
  createDirAll m "/run".toList
  createDirAll m newroot
  mountFs m none "/".toList none (msRec ||| msPrivate) none
  mountKernelFs m "devtmpfs" "/dev" msNosuid (some "mode=0755".toList)
  createDirAll m "/dev/pts".toList
  mountKernelFs m "devpts" "/dev/pts" (msNosuid ||| msNoexec) none
  mountKernelFs m "proc" "/proc" (msNosuid ||| msNodev ||| msNoexec) none

/-- The rest of it. -/
def mountSysAndRun (m : Machine) : Boot Unit := do
  mountKernelFs m "sysfs" "/sys" (msNosuid ||| msNodev ||| msNoexec) none
  mountKernelFs m "tmpfs" "/run" (msNosuid ||| msNodev) (some "mode=0755".toList)

theorem prepareKernelFilesystems_eq :
    prepareKernelFilesystems m = mountUntilProc m >>= fun _ => mountSysAndRun m := by
  simp only [mountUntilProc, bind_assoc]
  rfl

theorem segment_mountKernelFs {name target : String} {flags : Nat} {data : Option Str}
    {ns ns' : Mounts} (hns : mounted ns (some name.toList) target.toList flags = ns')
    (hname : '\x00' ∉ name.toList) (htarget : '\x00' ∉ target.toList)
    (hdata : ∀ v, data = some v → '\x00' ∉ v) :
    Segment (mountKernelFs m name target flags data) (m.Passes [kernelMount name target])
      ns ns' [ns] := by
  rw [← hns]
  apply (segment_mountFs (some name.toList) target.toList (some name.toList) flags data).mono
  · simp only [Mounting, Machine.Passes, kernelMount, Option.some.injEq, forall_eq',
      List.mem_singleton, forall_eq]
    exact ⟨fun h => h.2.2.2.2, fun h => ⟨hname, htarget, hname, hdata, h⟩⟩
  · exact fun _ h => h

theorem segment_moveMount {old new : String} {ns ns' : Mounts}
    (hns : mounted ns (some old.toList) new.toList msMove = ns') (hold : '\x00' ∉ old.toList)
    (hnew : '\x00' ∉ new.toList) :
    Segment (moveMount m old.toList new.toList) (m.Passes (moving old new)) ns ns' [ns] := by
  rw [← hns]
  apply ((segment_createDirAll new.toList).bind
    (segment_mountFs (some old.toList) new.toList none msMove none)).mono
  · simp [Mounting, Machine.Passes, moving, hold, hnew]
  · simp

theorem segment_untilProc :
    Segment (mountUntilProc m) (m.Passes untilProc) bare procMounted
      [bare, devMounted, ptsMounted] := by
  have hprivate : Segment (mountFs m none "/".toList none (msRec ||| msPrivate) none)
      (m.Passes [.mount none "/".toList none]) bare bare [bare] :=
    (segment_mountFs none "/".toList none (msRec ||| msPrivate) none).mono
      (by simp [Mounting, Machine.Passes]) (fun _ h => h)
  have hdev : Segment (mountKernelFs m "devtmpfs" "/dev" msNosuid (some "mode=0755".toList))
      (m.Passes [kernelMount "devtmpfs" "/dev"]) bare devMounted [bare] :=
    segment_mountKernelFs rfl (by decide) (by decide) (by simp)
  have hpts : Segment (mountKernelFs m "devpts" "/dev/pts" (msNosuid ||| msNoexec) none)
      (m.Passes [kernelMount "devpts" "/dev/pts"]) devMounted ptsMounted [devMounted] :=
    segment_mountKernelFs rfl (by decide) (by decide) nofun
  have hproc : Segment (mountKernelFs m "proc" "/proc" (msNosuid ||| msNodev ||| msNoexec) none)
      (m.Passes [kernelMount "proc" "/proc"]) ptsMounted procMounted [ptsMounted] :=
    segment_mountKernelFs rfl (by decide) (by decide) nofun
  have hdirs : ∀ (path : Str) (ns : Mounts), Segment (createDirAll m path)
      (m.fails (.createDirAll path) = none) ns ns [ns] :=
    fun path _ => segment_createDirAll path
  have h := (hdirs "/dev".toList bare).bind <| (hdirs "/proc".toList bare).bind <|
    (hdirs "/sys".toList bare).bind <| (hdirs "/run".toList bare).bind <|
    (hdirs newroot bare).bind <| hprivate.bind <| hdev.bind <|
    (hdirs "/dev/pts".toList devMounted).bind <| hpts.bind hproc
  apply Segment.mono h
  · simp [Machine.Passes, untilProc]
  · simp

theorem segment_sysAndRun :
    Segment (mountSysAndRun m) (m.Passes sysAndRun) procMounted prepared
      [procMounted, sysMounted] := by
  have hsys : Segment (mountKernelFs m "sysfs" "/sys" (msNosuid ||| msNodev ||| msNoexec) none)
      (m.Passes [kernelMount "sysfs" "/sys"]) procMounted sysMounted [procMounted] :=
    segment_mountKernelFs rfl (by decide) (by decide) nofun
  have hrun : Segment
      (mountKernelFs m "tmpfs" "/run" (msNosuid ||| msNodev) (some "mode=0755".toList))
      (m.Passes [kernelMount "tmpfs" "/run"]) sysMounted prepared [sysMounted] :=
    segment_mountKernelFs rfl (by decide) (by decide) (by simp)
  apply (hsys.bind hrun).mono
  · simp [Machine.Passes, sysAndRun]
  · simp

theorem segment_insmod (n : Nat) (module : Str) (ns : Mounts) :
    Segment (insmod m n module) (m.Passes [.startInsmod n, .insmod n]) ns ns [ns] := by
  have hcommand : Segment
      (modify fun w => w.push (.command (lookup w.ns armybox) ["insmod".toList, module]))
      True ns ns [] := by
    intro w hns hw
    refine ⟨trivial, hns, hw.push ?_⟩
    intro d hd
    injection hd with _ hargs
    injection hargs with _ hrest
    cases hrest
  have hloaded : Segment (modify fun w => w.push (.loaded module)) True ns ns [] := by
    intro w hns hw
    exact ⟨trivial, hns, hw.push nofun⟩
  have h := (@segment_call m ns (.startInsmod n) (.startInsmod module)).bind <|
    hcommand.bind <| (segment_call (m := m) (.insmod n) (.insmod module)).bind hloaded
  apply Segment.mono h
  · simp [Machine.Passes]
  · simp

theorem segment_loadLines (ns : Mounts) (n : Nat) (ls : List Str) :
    Segment (loadLines m n ls) (LoadsLines m n ls) ns ns [ns] := by
  induction ls generalizing n with
  | nil => exact Segment.pure.mono Iff.rfl (by simp)
  | cons line rest ih =>
      by_cases hline : trim line ≠ [] ∧ (trim line).head? ≠ some '#'
      · have h := (segment_insmod (m := m) n (trim line) ns).bind (ih (n + 1))
        simp only [loadLines, if_pos hline]
        apply h.mono
        · simp [LoadsLines, hline]
        · simp
      · have h := (@Segment.pure ns).bind (ih (n + 1))
        simp only [loadLines, if_neg hline]
        apply h.mono
        · simp only [LoadsLines, hline, false_implies]
        · simp

/-- The list of the image is read while the process is in the image. -/
theorem segment_loadModules :
    Segment (loadModules m) (LoadsModules m) prepared prepared [prepared] := by
  intro w hns hw
  have hlookup : fileText m (lookup w.ns modulesList) = m.modulesLoad := by
    rw [hns]
    rfl
  unfold loadModules
  rw [wp_bind, wp_get]
  unfold readToString LoadsModules
  rw [hlookup]
  cases hfails : m.fails (.readToString modulesList false) with
  | some e => exact ⟨⟨_, rfl⟩, by simp [Machine.Passes, hfails], by simp [hns], hw⟩
  | none =>
      cases m.modulesLoad with
      | none => exact ⟨⟨by simp [Machine.Passes, hfails], nofun⟩, hns, hw⟩
      | some moduleList =>
          apply ((segment_loadLines prepared 0 (lines moduleList)).mono _ (fun _ h => h)) w hns hw
          simp [Machine.Passes, hfails]

/-- A type that fails leaves the namespace as it was for the next one. -/
theorem segment_mountKinds (cfg : BootConfig) (errors : List (Str × BootError))
    (kinds : List Str) :
    Segment (mountKinds m (rootPath cfg.root) cfg errors kinds)
      (∃ kind ∈ kinds, MountsKind m cfg kind) prepared rootMounted [prepared] := by
  induction kinds generalizing errors with
  | nil =>
      intro w hns hw
      exact ⟨⟨_, rfl⟩, by simp, by simp [hns], hw⟩
  | cons kind rest ih =>
      intro w hns hw
      rw [mountKinds, wp_tryCatch]
      have hkind := @segment_mountFs m prepared (some (rootPath cfg.root)) newroot
        (some kind) (if cfg.readonly then msRdonly else 0)
        (if cfg.rootFlags = [] then none else some cfg.rootFlags) w hns hw
      apply wp_mono hkind
      · intro _ w' h'
        refine ⟨⟨kind, by simp, h'.1⟩, ?_, h'.2.2⟩
        rw [h'.2.1]
        cases cfg.readonly <;> rfl
      · intro h w' h'
        obtain ⟨⟨e, he⟩, hnot, hns', hw'⟩ := h'
        subst he
        apply wp_mono (ih _ w' (by simpa using hns') hw')
        · intro _ w₂ h₂
          obtain ⟨⟨k, hk, hm⟩, hrest⟩ := h₂
          exact ⟨⟨k, List.mem_cons_of_mem _ hk, hm⟩, hrest⟩
        · intro h w₂ h₂
          refine ⟨h₂.1, ?_, h₂.2.2⟩
          intro hex
          obtain ⟨k, hk, hm⟩ := hex
          rcases List.mem_cons.mp hk with hkind | hk
          · exact hnot (hkind ▸ hm)
          · exact h₂.2.1 ⟨k, hk, hm⟩

theorem segment_mountRoot (cfg : BootConfig) :
    Segment (mountRoot m (rootPath cfg.root) cfg) (MountsRoot m cfg) prepared rootMounted
      [prepared] :=
  segment_mountKinds cfg [] (candidates cfg)

/-- `switch_root` as far as the move of procfs. -/
def moveDevAndProc (m : Machine) : Boot Unit := do
  moveMount m "/dev".toList "/newroot/dev".toList
  moveMount m "/proc".toList "/newroot/proc".toList

/-- From there to the new root. -/
def moveUntilChroot (m : Machine) : Boot Unit := do
  moveMount m "/sys".toList "/newroot/sys".toList
  moveMount m "/run".toList "/newroot/run".toList
  chdir m newroot
  mountFs m (some ".".toList) "/".toList none msMove none
  chroot m ".".toList

theorem switchRoot_eq (init : Str) :
    switchRoot m init = moveDevAndProc m >>= fun _ => moveUntilChroot m >>= fun _ =>
      chdir m "/".toList >>= fun _ => exec m init := by
  simp only [moveDevAndProc, moveUntilChroot, bind_assoc]
  rfl

theorem segment_devAndProc :
    Segment (moveDevAndProc m) (m.Passes devAndProc) rootMounted procMoved
      [rootMounted, devMoved] := by
  have hdev : Segment (moveMount m "/dev".toList "/newroot/dev".toList)
      (m.Passes (moving "/dev" "/newroot/dev")) rootMounted devMoved [rootMounted] :=
    segment_moveMount rfl (by decide) (by decide)
  have hproc : Segment (moveMount m "/proc".toList "/newroot/proc".toList)
      (m.Passes (moving "/proc" "/newroot/proc")) devMoved procMoved [devMoved] :=
    segment_moveMount rfl (by decide) (by decide)
  apply (hdev.bind hproc).mono
  · simp only [Machine.Passes, devAndProc, List.forall_mem_append]
  · simp

theorem segment_untilChroot :
    Segment (moveUntilChroot m) (m.Passes untilChroot) procMoved switched
      [procMoved, sysMoved, runMoved, entered, covered] := by
  have hsys : Segment (moveMount m "/sys".toList "/newroot/sys".toList)
      (m.Passes (moving "/sys" "/newroot/sys")) procMoved sysMoved [procMoved] :=
    segment_moveMount rfl (by decide) (by decide)
  have hrun : Segment (moveMount m "/run".toList "/newroot/run".toList)
      (m.Passes (moving "/run" "/newroot/run")) sysMoved runMoved [sysMoved] :=
    segment_moveMount rfl (by decide) (by decide)
  have hchdir : Segment (chdir m newroot) (m.fails (.chdir newroot) = none)
      runMoved entered [runMoved] := segment_chdir newroot
  have hmove : Segment (mountFs m (some ".".toList) "/".toList none msMove none)
      (m.fails (.mount (some ".".toList) "/".toList none) = none) entered covered [entered] :=
    (segment_mountFs (some ".".toList) "/".toList none msMove none).mono
      (by simp [Mounting]) (fun _ h => h)
  have hchroot : Segment (chroot m ".".toList) (m.fails (.chroot ".".toList) = none)
      covered switched [covered] := segment_chroot ".".toList
  apply Segment.mono (hsys.bind <| hrun.bind <| hchdir.bind <| hmove.bind hchroot)
  · simp [Machine.Passes, untilChroot, moving, and_assoc]
  · simp

theorem segment_leave :
    Segment (chdir m "/".toList) (m.Passes [.chdir "/".toList]) switched switched [switched] :=
  (segment_chdir "/".toList).mono (by simp [Machine.Passes]) (fun _ h => h)

end

end Cbuild.Initrd
