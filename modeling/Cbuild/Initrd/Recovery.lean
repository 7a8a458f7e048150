import Cbuild.Initrd.Sequence

/-! # The recovery shell

`main` reads the command line again when `boot` has failed, and runs the shell
from `/bin/armybox`: both depend on where these paths lead in the namespace the
failure leaves behind. `boot_ends` computes what holds of that namespace from
the operations the kernel refuses.
-/

namespace Cbuild.Initrd

open Lib

/-- If the program fails, it does so in a namespace that meets `P`; it does not run the shell. -/
def Ends (P : Mounts → Prop) (x : Boot Unit) (w : World) : Prop :=
  wp x (fun _ w' => w'.NoShell) (fun h w' => w'.NoShell ∧ (h.Failed → P w'.ns)) w

/-- Two stretches that fail alike are one. -/
theorem fails_and {b c d g : Prop} :
    ((¬ c → b) ∧ (c → (¬ d → b) ∧ (d → g))) ↔ (¬ (c ∧ d) → b) ∧ (c ∧ d → g) := by
  by_cases hc : c <;> by_cases hd : d <;> simp [hc, hd]

theorem fails_and_last {b c d : Prop} : ((¬ c → b) ∧ (c → ¬ d → b)) ↔ (¬ (c ∧ d) → b) := by
  by_cases hc : c <;> by_cases hd : d <;> simp [hc, hd]

theorem replaced_not_failed (e : BootError) : Halt.replaced ≠ .failed e := by
  intro h
  contradiction

theorem waiting_not_failed (e : BootError) : Halt.waiting ≠ .failed e := by
  intro h
  contradiction

section

variable {P : Mounts → Prop} {m : Machine} {w : World}

theorem Segment.ends_bind {x y : Boot Unit} {c p g : Prop} {ns ns' : Mounts} {fs : List Mounts}
    (hx : Segment x c ns ns' fs) (hP : ∀ n ∈ fs, (P n ↔ p))
    (hy : ∀ w, w.ns = ns' → w.NoShell → (Ends P y w ↔ g)) (hns : w.ns = ns) (hw : w.NoShell) :
    Ends P (x >>= fun _ => y) w ↔ (¬ c → p) ∧ (c → g) := by
  have h := hx w hns hw
  unfold Ends
  rw [wp_bind]
  cases hrun : x.run w with
  | ok a w' =>
      rw [wp_of_ok hrun] at h ⊢
      rw [show wp y _ _ w' ↔ g from hy w' h.2.1 h.2.2]
      exact ⟨fun hg => ⟨fun hc => absurd h.1 hc, fun _ => hg⟩, fun hg => hg.2 h.1⟩
  | error e w' =>
      rw [wp_of_error hrun] at h ⊢
      obtain ⟨hfailed, hc, hmem, hw'⟩ := h
      constructor
      · intro hP'
        exact ⟨fun _ => (hP _ hmem).mp (hP'.2 hfailed), fun hc' => absurd hc' hc⟩
      · intro hp
        exact ⟨hw', fun _ => (hP _ hmem).mpr (hp.1 hc)⟩

theorem exec_ends (init : Str) (hw : w.NoShell) :
    Ends P (exec m init) w ↔ (¬ Starts m init → P w.ns) := by
  have hfail : ∀ e, Ends P (fail (.exec init e)) w ↔ P w.ns := by
    intro e
    constructor
    · intro h
      exact h.2 ⟨_, rfl⟩
    · intro h
      exact ⟨hw, fun _ => h⟩
  unfold exec Starts
  by_cases hnul : '\x00' ∈ init
  · rw [if_pos hnul, hfail]
    simp [hnul]
  · rw [if_neg hnul]
    cases hex : m.fails (.exec init) with
    | some e =>
        rw [hfail]
        simp [hnul, Machine.Passes, hex]
    | none =>
        simp only [hnul, Machine.Passes, hex, List.mem_singleton, forall_eq, not_false_eq_true,
          and_self, not_true_eq_false, false_implies, iff_true]
        exact ⟨hw, fun h => absurd h.choose_spec (replaced_not_failed _)⟩

/-- The root device has been seen or given up before the boot goes on. -/
theorem waitForRoot_ends {f : Str → Boot Unit} {b g : Prop} (cfg : BootConfig) (polls : Nat)
    (hf : Ends P (f (rootPath cfg.root)) w ↔ g) (hb : P w.ns ↔ b) (hw : w.NoShell) :
    Ends P (waitForRoot m cfg polls >>= f) w ↔
      (cfg.root = [] ∨ pollRoot m cfg 0 polls = some false → b) ∧
        (cfg.root ≠ [] → pollRoot m cfg 0 polls = some true → g) := by
  have hfail : ∀ e, Ends P ((fail e : Boot Str) >>= f) w ↔ b := by
    intro e
    constructor
    · intro h
      exact hb.mp (h.2 ⟨_, rfl⟩)
    · intro h
      exact ⟨hw, fun _ => hb.mpr h⟩
  unfold waitForRoot
  by_cases hroot : cfg.root = []
  · rw [if_pos hroot, hfail]
    simp [hroot]
  · rw [if_neg hroot]
    cases hpoll : pollRoot m cfg 0 polls with
    | none =>
        simp only [hroot, reduceCtorEq, or_self, false_implies, implies_true, and_self, iff_true]
        exact ⟨hw, fun h => absurd h.choose_spec (waiting_not_failed _)⟩
    | some seen =>
        cases seen with
        | false =>
            rw [hfail]
            simp
        | true =>
            rw [show Ends P (pure (rootPath cfg.root) >>= f) w ↔ g from hf]
            simp [hroot]

end

/-! ## The whole sequence -/

/-- The configuration the machine was booted with. -/
def Machine.config (m : Machine) : BootConfig := parseCmdline m.cmdline

/-- What comes between the mount of procfs and the wait for the root device. -/
def Reads (m : Machine) : Prop :=
  m.Passes sysAndRun ∧ LoadsModules m ∧ m.Passes [.readToString procCmdline false]

/-- The root is mounted, and `/dev` and `/proc` are moved into it. -/
def MovesProc (m : Machine) : Prop := MountsRoot m m.config ∧ m.Passes devAndProc

/-- The end of `switch_root`, in the new root. -/
def Leaves (m : Machine) : Prop := m.Passes [.chdir "/".toList] ∧ Starts m m.config.init

/-- The namespaces in which procfs is mounted on `/proc` of the image. -/
def whileProc : List Mounts := [procMounted, sysMounted, prepared, rootMounted, devMoved]

/-- Those between the move of procfs and `chroot`. -/
def whileMoved : List Mounts := [procMoved, sysMoved, runMoved, entered, covered]

theorem start_noShell : World.start.NoShell := by
  intro d hd
  nomatch hd

section

variable {P : Mounts → Prop} {m : Machine} {a b d e : Prop}

theorem switchRoot_ends {w : World} (hb : ∀ n ∈ whileProc, (P n ↔ b))
    (hd : ∀ n ∈ whileMoved, (P n ↔ d)) (he : P switched ↔ e) (init : Str)
    (hns : w.ns = rootMounted) (hw : w.NoShell) :
    Ends P (switchRoot m init) w ↔
      (¬ m.Passes devAndProc → b) ∧ (m.Passes devAndProc →
        (¬ m.Passes untilChroot → d) ∧ (m.Passes untilChroot →
          (¬ m.Passes [.chdir "/".toList] → e) ∧ (m.Passes [.chdir "/".toList] →
            ¬ Starts m init → e))) := by
  rw [switchRoot_eq]
  apply segment_devAndProc.ends_bind
    (fun n hn => hb n (List.mem_append_right [procMounted, sysMounted, prepared] hn)) _ hns hw
  intro w₁ hns₁ hw₁
  apply segment_untilChroot.ends_bind hd _ hns₁ hw₁
  intro w₂ hns₂ hw₂
  apply segment_leave.ends_bind (fun n hn => by rw [List.mem_singleton.mp hn, he]) _ hns₂ hw₂
  intro w₃ hns₃ hw₃
  rw [exec_ends init hw₃, hns₃, he]

/-- The reading of the command line, of which procfs has a copy. -/
theorem readCmdline_ends {w : World} {f : Str → Boot Unit} {g : Prop}
    (hf : Ends P (f (m.cmdline ++ ['\n'])) w ↔ g) (hb : P prepared ↔ b) (hns : w.ns = prepared)
    (hw : w.NoShell) :
    Ends P (do
        match readToString m (← get) procCmdline false with
        | .error e => fail (.read procCmdline e)
        | .ok cmdline => f cmdline) w ↔
      (¬ m.Passes [.readToString procCmdline false] → b) ∧
        (m.Passes [.readToString procCmdline false] → g) := by
  have hfile : fileText m (lookup w.ns procCmdline) = some (m.cmdline ++ ['\n']) := by
    rw [hns]
    rfl
  unfold Ends
  rw [wp_bind, wp_get]
  unfold readToString
  rw [hfile]
  cases hread : m.fails (.readToString procCmdline false) with
  | some e =>
      have hfails : ¬ m.Passes [.readToString procCmdline false] := by
        simp [Machine.Passes, hread]
      simp only [hfails, not_false_eq_true, forall_const, false_implies, and_true]
      constructor
      · intro h
        exact hb.mp (hns ▸ h.2 ⟨_, rfl⟩)
      · intro h
        exact ⟨hw, fun _ => hns ▸ hb.mpr h⟩
  | none =>
      have hpasses : m.Passes [.readToString procCmdline false] := by
        simp [Machine.Passes, hread]
      simp only [hpasses, not_true_eq_false, false_implies, forall_const, true_and]
      exact hf

/-- Where `boot` fails, by what the kernel refuses: before procfs is mounted `P` holds as
`a` does, while it is mounted as `b`, once it is moved as `d`, and in the new root as `e`. -/
theorem boot_ends (ha : ∀ n ∈ [bare, devMounted, ptsMounted], (P n ↔ a))
    (hb : ∀ n ∈ whileProc, (P n ↔ b)) (hd : ∀ n ∈ whileMoved, (P n ↔ d)) (he : P switched ↔ e)
    (polls : Nat) :
    Ends P (boot m polls) World.start ↔
      (¬ m.Passes untilProc → a) ∧ (m.Passes untilProc →
        (¬ Reads m → b) ∧ (Reads m →
          (m.config.root = [] ∨ pollRoot m m.config 0 polls = some false → b) ∧
          (m.config.root ≠ [] → pollRoot m m.config 0 polls = some true →
            (¬ MovesProc m → b) ∧ (MovesProc m →
              (¬ m.Passes untilChroot → d) ∧ (m.Passes untilChroot →
                ¬ Leaves m → e))))) := by
  have hprepared : P prepared ↔ b := hb prepared (by simp [whileProc])
  have hroot : ∀ w : World, w.ns = prepared → w.NoShell →
      (Ends P (mountRoot m (rootPath m.config.root) m.config >>= fun _ =>
          switchRoot m m.config.init) w ↔
        (¬ MovesProc m → b) ∧ (MovesProc m → (¬ m.Passes untilChroot → d) ∧
          (m.Passes untilChroot → ¬ Leaves m → e))) := by
    intro w hns hw
    rw [(segment_mountRoot m.config).ends_bind
      (fun n hn => by rw [List.mem_singleton.mp hn, hprepared])
      (fun w' hns' hw' => switchRoot_ends hb hd he m.config.init hns' hw') hns hw]
    rw [fails_and_last, fails_and]
    rfl
  have hread : ∀ w : World, w.ns = prepared → w.NoShell →
      (Ends P (do
          match readToString m (← get) procCmdline false with
          | .error e => fail (.read procCmdline e)
          | .ok cmdline =>
              let cfg := parseCmdline cmdline
              let root ← waitForRoot m cfg polls
              mountRoot m root cfg
              switchRoot m cfg.init) w ↔
        (¬ m.Passes [.readToString procCmdline false] → b) ∧
          (m.Passes [.readToString procCmdline false] →
            (m.config.root = [] ∨ pollRoot m m.config 0 polls = some false → b) ∧
            (m.config.root ≠ [] → pollRoot m m.config 0 polls = some true →
              (¬ MovesProc m → b) ∧ (MovesProc m → (¬ m.Passes untilChroot → d) ∧
                (m.Passes untilChroot → ¬ Leaves m → e))))) := by
    intro w hns hw
    apply readCmdline_ends _ hprepared hns hw
    rw [parseCmdline_lineFeed]
    exact waitForRoot_ends m.config polls (hroot w hns hw) (by rw [hns, hprepared]) hw
  have hmodules := fun (w : World) (hns : w.ns = prepared) (hw : w.NoShell) =>
    (segment_loadModules (m := m)).ends_bind
      (fun n hn => by rw [List.mem_singleton.mp hn, hprepared]) hread hns hw
  have hsys := fun (w : World) (hns : w.ns = procMounted) (hw : w.NoShell) =>
    (segment_sysAndRun (m := m)).ends_bind
      (fun n hn => hb n (List.mem_append_left [prepared, rootMounted, devMoved] hn)) hmodules hns
      hw
  have h := (segment_untilProc (m := m)).ends_bind ha hsys rfl start_noShell
  unfold boot
  rw [prepareKernelFilesystems_eq, bind_assoc]
  apply h.trans
  rw [fails_and, fails_and, and_assoc]
  rfl

end

/-! ## What `main` does with a failure -/

section

variable {m : Machine} {polls rounds : Nat} {d : Dir Fs Str}

/-- `boot` has failed and left the world `w`. -/
def Fails (m : Machine) (polls : Nat) (w : World) : Prop :=
  ∃ e, (boot m polls).run World.start = .error (.failed e) w

theorem boot_noShell (m : Machine) (polls : Nat) :
    Ends (fun _ => True) (boot m polls) World.start := by
  have hall : ∀ ns : List Mounts, ∀ n ∈ ns, (True ↔ True) := fun _ _ _ => Iff.rfl
  rw [boot_ends (hall _) (hall _) (hall _) Iff.rfl]
  simp

theorem fails_forall_iff (P : Mounts → Prop) :
    (∀ w, Fails m polls w → P w.ns) ↔ Ends P (boot m polls) World.start := by
  have hquiet := boot_noShell m polls
  unfold Ends Fails at *
  cases hrun : (boot m polls).run World.start with
  | ok a w =>
      rw [wp_of_ok hrun] at hquiet ⊢
      simp [hquiet]
  | error h w =>
      rw [wp_of_error hrun] at hquiet ⊢
      constructor
      · intro hP
        apply And.intro hquiet.1
        intro hfailed
        obtain ⟨e, he⟩ := hfailed
        exact hP w ⟨e, by rw [he]⟩
      · intro hP w' hw'
        obtain ⟨e, he⟩ := hw'
        cases he
        exact hP.2 ⟨e, rfl⟩

theorem recoveryShell_mem (w : World) (n : Nat) :
    .command d recoveryArgs ∈ (recoveryShell w n).log ↔
      .command d recoveryArgs ∈ w.log ∨ 0 < n ∧ d = lookup w.ns armybox := by
  induction n generalizing w with
  | zero => simp [recoveryShell]
  | succ n ih =>
      rw [recoveryShell, ih]
      simp only [World.push, List.mem_append, List.mem_singleton, Event.command.injEq, and_true]
      constructor
      · intro h
        rcases h with (hw | hd) | hn
        · exact Or.inl hw
        · exact Or.inr ⟨Nat.succ_pos n, hd⟩
        · exact Or.inr ⟨Nat.succ_pos n, hn.2⟩
      · intro h
        rcases h with hw | hn
        · exact Or.inl (Or.inl hw)
        · exact Or.inl (Or.inr hn.2)

/-- The shell is run exactly by a failure that finds it enabled, where its path then leads. -/
theorem main_mem :
    .command d recoveryArgs ∈ (main m polls rounds).log ↔
      ¬ m.selfTest ∧ m.pid = 1 ∧ ∃ w, Fails m polls w ∧
        shellEnabled m w = true ∧ 0 < rounds ∧ d = lookup w.ns armybox := by
  have hquiet := boot_noShell m polls
  unfold main
  by_cases hargs : m.selfTest
  · rw [if_pos hargs]
    simp [hargs, World.push, World.start]
  rw [if_neg hargs]
  by_cases hpid : m.pid = 1
  · rw [if_neg (not_not_intro hpid)]
    unfold Fails
    unfold Ends at hquiet
    cases hrun : (boot m polls).run World.start with
    | ok a w =>
        rw [wp_of_ok hrun] at hquiet
        simpa [hargs, hpid] using hquiet d
    | error h w =>
        rw [wp_of_error hrun] at hquiet
        have hw := hquiet.1 d
        cases h with
        | failed e =>
            simp only [EStateM.Result.error.injEq, Halt.failed.injEq, hargs, hpid, true_and,
              exists_and_right]
            unfold emergencyShell
            dsimp only
            split
            · rename_i hen
              rw [recoveryShell_mem]
              simp [World.push, hw, hen]
            · rename_i hen
              simp [World.push, hw, hen]
        | replaced => simpa [hargs, hpid] using hw
        | waiting => simpa [hargs, hpid] using hw
  · rw [if_pos hpid]
    simp [hpid, World.push, World.start]

theorem main_never_iff :
    (∀ polls rounds d, .command d recoveryArgs ∉ (main m polls rounds).log) ↔
      m.selfTest ∨ m.pid ≠ 1 ∨
        ∀ polls, Ends (fun ns => shellEnabled m ⟨ns, []⟩ = false) (boot m polls) World.start := by
  constructor
  · intro hnever
    by_cases hargs : m.selfTest
    · exact Or.inl hargs
    by_cases hpid : m.pid = 1
    · apply Or.inr ∘ Or.inr
      intro polls
      rw [← fails_forall_iff]
      intro w hw
      by_contra hen
      exact hnever polls 1 _ (main_mem.mpr
        ⟨hargs, hpid, w, hw, eq_true_of_ne_false hen, Nat.one_pos, rfl⟩)
    · exact Or.inr (Or.inl hpid)
  · intro h polls rounds d hd
    obtain ⟨hargs, hpid, w, hw, hen, -, -⟩ := main_mem.mp hd
    rcases h with hargs' | hpid' | hends
    · exact hargs hargs'
    · exact hpid' hpid
    · have hoff := (fails_forall_iff _).mpr (hends polls) w hw
      exact absurd hen (ne_true_of_eq_false hoff)

theorem main_always_iff (good : Dir Fs Str) :
    (∀ polls rounds d, .command d recoveryArgs ∈ (main m polls rounds).log → d = good) ↔
      m.selfTest ∨ m.pid ≠ 1 ∨
        ∀ polls, Ends (fun ns => shellEnabled m ⟨ns, []⟩ = true → lookup ns armybox = good)
          (boot m polls) World.start := by
  constructor
  · intro halways
    by_cases hargs : m.selfTest
    · exact Or.inl hargs
    by_cases hpid : m.pid = 1
    · apply Or.inr ∘ Or.inr
      intro polls
      rw [← fails_forall_iff]
      intro w hw hen
      exact halways polls 1 _ (main_mem.mpr ⟨hargs, hpid, w, hw, hen, Nat.one_pos, rfl⟩)
    · exact Or.inr (Or.inl hpid)
  · intro h polls rounds d hd
    obtain ⟨hargs, hpid, w, hw, hen, -, hlookup⟩ := main_mem.mp hd
    rcases h with hargs' | hpid' | hends
    · exact absurd hargs' hargs
    · exact absurd hpid hpid'
    · rw [hlookup]
      exact (fails_forall_iff _).mpr (hends polls) w hw hen

end

/-! ## Where the two paths lead -/

section

variable {m : Machine} {ns : Mounts}

/-- Without procfs at `/proc` the shell is on by default. -/
theorem shellEnabled_of_hidden (h : lookup ns procCmdline = dirAt .initramfs ["proc", "cmdline"]) :
    shellEnabled m ⟨ns, []⟩ = true := by
  unfold shellEnabled readToString
  rw [h]
  cases m.fails (.readToString procCmdline true) <;> rfl

theorem shellEnabled_of_proc (h : lookup ns procCmdline = dirAt .proc ["cmdline"]) :
    shellEnabled m ⟨ns, []⟩ = false ↔
      m.fails (.readToString procCmdline true) = none ∧ m.config.shellOnError = false := by
  have hfile : fileText m (lookup ns procCmdline) = some (m.cmdline ++ ['\n']) := by
    rw [h]
    rfl
  unfold shellEnabled readToString
  dsimp only
  rw [hfile]
  cases m.fails (.readToString procCmdline true) with
  | some e => exact ⟨nofun, fun h => nomatch h.1⟩
  | none =>
      show (parseCmdline (m.cmdline ++ ['\n'])).shellOnError = false ↔ _
      rw [parseCmdline_lineFeed]
      exact ⟨fun h => ⟨rfl, h⟩, fun h => h.2⟩

theorem early_lookup : ∀ n ∈ [bare, devMounted, ptsMounted],
    lookup n procCmdline = dirAt .initramfs ["proc", "cmdline"] ∧
      lookup n armybox = dirAt .initramfs ["bin", "armybox"] := by
  decide

theorem whileProc_lookup : ∀ n ∈ whileProc,
    lookup n procCmdline = dirAt .proc ["cmdline"] ∧
      lookup n armybox = dirAt .initramfs ["bin", "armybox"] := by
  decide

/-- The target over `/` is not seen before `chroot`. -/
theorem whileMoved_lookup : ∀ n ∈ whileMoved,
    lookup n procCmdline = dirAt .initramfs ["proc", "cmdline"] ∧
      lookup n armybox = dirAt .initramfs ["bin", "armybox"] := by
  decide

theorem switched_lookup :
    lookup switched procCmdline = dirAt .proc ["cmdline"] ∧
      lookup switched armybox = dirAt .target ["bin", "armybox"] := by
  decide

end

/-! ## The two laws -/

/-- The root device appears while the boot waits for it. -/
def FindsRoot (m : Machine) : Prop :=
  Reads m ∧ m.config.root ≠ [] ∧ ∃ polls, pollRoot m m.config 0 polls = some true

/-- No operation of `boot` is refused, though it may wait for the root device for ever. -/
def FailsNowhere (m : Machine) : Prop :=
  Reads m ∧ m.config.root ≠ [] ∧ (∀ polls, pollRoot m m.config 0 polls ≠ some false) ∧
    ((∃ polls, pollRoot m m.config 0 polls = some true) →
      MovesProc m ∧ m.Passes untilChroot ∧ Leaves m)

/-- A failure comes only while procfs is at `/proc` or in the new root, and the command line
can then be read. -/
def FailsInSight (m : Machine) : Prop :=
  m.Passes untilProc ∧ (FindsRoot m ∧ MovesProc m → m.Passes untilChroot) ∧
    (m.fails (.readToString procCmdline true) = none ∨ FailsNowhere m)

/-- The recovery shell is never run. -/
def NeverShell (m : Machine) : Prop :=
  ∀ polls rounds d, .command d recoveryArgs ∉ (main m polls rounds).log

/-- Whenever the recovery shell is run, it is the one of the image. -/
def ShellOfImage (m : Machine) : Prop :=
  ∀ polls rounds d, .command d recoveryArgs ∈ (main m polls rounds).log →
    d = dirAt .initramfs ["bin", "armybox"]

theorem ends_silent_iff {m : Machine} (hquiet : m.config.shellOnError = false) :
    (∀ polls, Ends (fun ns => shellEnabled m ⟨ns, []⟩ = false) (boot m polls) World.start) ↔
      FailsInSight m := by
  have hhidden : ∀ n, lookup n procCmdline = dirAt .initramfs ["proc", "cmdline"] →
      (shellEnabled m ⟨n, []⟩ = false ↔ False) := by
    intro n hn
    simp [shellEnabled_of_hidden hn]
  have hproc : ∀ n, lookup n procCmdline = dirAt .proc ["cmdline"] →
      (shellEnabled m ⟨n, []⟩ = false ↔ m.fails (.readToString procCmdline true) = none) := by
    intro n hn
    rw [shellEnabled_of_proc hn]
    exact and_iff_left hquiet
  simp only [boot_ends (fun n hn => hhidden n (early_lookup n hn).1)
    (fun n hn => hproc n (whileProc_lookup n hn).1)
    (fun n hn => hhidden n (whileMoved_lookup n hn).1) (hproc switched switched_lookup.1)]
  unfold FailsInSight FindsRoot FailsNowhere
  constructor
  · intro h
    have huntil : m.Passes untilProc := by
      by_contra hu
      exact (h 0).1 hu
    refine ⟨huntil, ?_, ?_⟩
    · intro hmoved
      obtain ⟨⟨hreads, hroot, polls, hpoll⟩, hmoves⟩ := hmoved
      by_contra hchroot
      exact ((((h polls).2 huntil).2 hreads).2 hroot hpoll).2 hmoves |>.1 hchroot
    · by_contra hno
      rw [not_or] at hno
      obtain ⟨hread, hfails⟩ := hno
      have hreads : Reads m := by
        by_contra hr
        exact hread (((h 0).2 huntil).1 hr)
      have hwait := fun polls => ((h polls).2 huntil).2 hreads
      refine hfails ⟨hreads, fun hroot => hread ((hwait 0).1 (Or.inl hroot)),
        fun polls hpoll => hread ((hwait polls).1 (Or.inr hpoll)), ?_⟩
      intro hfound
      obtain ⟨polls, hpoll⟩ := hfound
      have hroot : m.config.root ≠ [] := fun hroot => hread ((hwait 0).1 (Or.inl hroot))
      have hrest := (hwait polls).2 hroot hpoll
      have hmoves : MovesProc m := by
        by_contra hm
        exact hread (hrest.1 hm)
      have hchroot : m.Passes untilChroot := by
        by_contra hc
        exact (hrest.2 hmoves).1 hc
      refine ⟨hmoves, hchroot, ?_⟩
      by_contra hl
      exact hread ((hrest.2 hmoves).2 hchroot hl)
  · intro h polls
    obtain ⟨huntil, hmoved, hread | hfails⟩ := h
    · refine ⟨fun hu => hu huntil, fun _ => ⟨fun _ => hread, fun hreads =>
        ⟨fun _ => hread, fun hroot hpoll => ⟨fun _ => hread, fun hmoves =>
          ⟨fun hc => hc (hmoved ⟨⟨hreads, hroot, polls, hpoll⟩, hmoves⟩), fun _ _ => hread⟩⟩⟩⟩⟩
    · obtain ⟨hreads, hroot, hseen, hrest⟩ := hfails
      refine ⟨fun hu => hu huntil, fun _ => ⟨fun hr => absurd hreads hr, fun _ =>
        ⟨fun hw => ?_, fun _ hpoll => ?_⟩⟩⟩
      · rcases hw with hw | hw
        · exact absurd hw hroot
        · exact absurd hw (hseen polls)
      · obtain ⟨hmoves, hchroot, hleaves⟩ := hrest ⟨polls, hpoll⟩
        exact ⟨fun hm => absurd hmoves hm, fun _ => ⟨fun hc => hc hchroot, fun _ hl =>
          absurd hleaves hl⟩⟩

/-- With `rd.shell=0`, `main` never runs the recovery shell if and only if every failure finds
the command line in sight. -/
theorem neverShell_iff (m : Machine) (hquiet : m.config.shellOnError = false) :
    NeverShell m ↔ m.selfTest ∨ m.pid ≠ 1 ∨ FailsInSight m := by
  unfold NeverShell
  rw [main_never_iff, ends_silent_iff hquiet]

/-- The recovery shell was run from `d`, as a test. -/
def ranShell (d : Dir Fs Str) (log : List Event) : Bool :=
  log.any fun
    | .command program args => decide (program = d ∧ args = recoveryArgs)
    | _ => false

theorem mem_of_ranShell {d : Dir Fs Str} {log : List Event} (h : ranShell d log = true) :
    .command d recoveryArgs ∈ log := by
  obtain ⟨e, he, hcommand⟩ := List.any_eq_true.mp h
  cases e with
  | command program args =>
      obtain ⟨hprogram, hargs⟩ := of_decide_eq_true hcommand
      rw [← hprogram, ← hargs]
      exact he
  | _ => nomatch hcommand

/-- A machine whose root device is there at once and that refuses one operation. -/
def refusing (cmdline : String) (op : Op) (e : String) : Machine where
  args := ["/init".toList]
  pid := 1
  cmdline := cmdline.toList
  modulesLoad := none
  fails := fun o => if o = op then some e.toList else none
  found := fun _ => true
  elapsed := fun _ => 0

theorem neverShell_noSysfs :
    NeverShell (refusing "root=/dev/vda2 rd.shell=0" (kernelMount "sysfs" "/sys") "No such device") := by
  apply (neverShell_iff _ rfl).mpr
  apply Or.inr ∘ Or.inr
  refine ⟨fun op hop => ?_, fun h => absurd h.1.1.1 ?_, Or.inl rfl⟩
  · show (if op = kernelMount "sysfs" "/sys" then _ else none) = none
    rw [if_neg]
    intro h
    subst h
    revert hop
    decide
  · intro hpass
    exact nomatch hpass _ (List.mem_cons_self ..)

/-- The root file system is read-only and has no `/sys`: `/proc` is moved already. -/
theorem readOnlyRoot_shell :
    ¬ ∀ m : Machine, m.config.shellOnError = false → NeverShell m := by
  intro h
  have hlog : ranShell (dirAt .initramfs ["bin", "armybox"])
      (main (refusing "root=/dev/vda2 ro rd.shell=0" (.createDirAll "/newroot/sys".toList)
        "Read-only file system") 1 1).log = true := by decide +kernel
  exact h _ rfl 1 1 _ (mem_of_ranShell hlog)

/-- With the shell enabled, it is the one of the image if and only if nothing fails in the new
root. -/
theorem shellOfImage_iff (m : Machine) (hloud : m.config.shellOnError = true) :
    ShellOfImage m ↔ m.selfTest ∨ m.pid ≠ 1 ∨
      ¬ (m.Passes untilProc ∧ FindsRoot m ∧ MovesProc m ∧ m.Passes untilChroot ∧ ¬ Leaves m) := by
  have henabled : shellEnabled m ⟨switched, []⟩ = true := by
    apply eq_true_of_ne_false
    intro hoff
    rw [shellEnabled_of_proc switched_lookup.1, hloud] at hoff
    exact nomatch hoff.2
  have hswitched : (shellEnabled m ⟨switched, []⟩ = true →
      lookup switched armybox = dirAt .initramfs ["bin", "armybox"]) ↔ False := by
    rw [henabled, switched_lookup.2]
    simp [dirAt]
  have himage : ∀ n, lookup n armybox = dirAt .initramfs ["bin", "armybox"] →
      ((shellEnabled m ⟨n, []⟩ = true →
        lookup n armybox = dirAt .initramfs ["bin", "armybox"]) ↔ True) :=
    fun n hn => iff_true_intro fun _ => hn
  unfold ShellOfImage FindsRoot
  rw [main_always_iff]
  simp only [boot_ends (fun n hn => himage n (early_lookup n hn).2)
    (fun n hn => himage n (whileProc_lookup n hn).2)
    (fun n hn => himage n (whileMoved_lookup n hn).2) hswitched]
  apply or_congr_right ∘ or_congr_right
  constructor
  · intro h hbad
    obtain ⟨huntil, ⟨hreads, hroot, polls, hpoll⟩, hmoves, hchroot, hleaves⟩ := hbad
    exact (((((h polls).2 huntil).2 hreads).2 hroot hpoll).2 hmoves).2 hchroot hleaves
  · intro h polls
    refine ⟨fun _ => trivial, fun huntil => ⟨fun _ => trivial, fun hreads => ⟨fun _ => trivial,
      fun hroot hpoll => ⟨fun _ => trivial, fun hmoves => ⟨fun _ => trivial,
        fun hchroot hleaves => h ?_⟩⟩⟩⟩⟩
    exact ⟨huntil, ⟨hreads, hroot, polls, hpoll⟩, hmoves, hchroot, hleaves⟩

theorem shellOfImage_noSysfs :
    ShellOfImage (refusing "root=/dev/vda2" (kernelMount "sysfs" "/sys") "No such device") := by
  apply (shellOfImage_iff _ rfl).mpr
  apply Or.inr ∘ Or.inr
  intro h
  exact nomatch h.2.1.1.1 _ (List.mem_cons_self ..)

/-- The target has no such program: the shell is looked for in the target. -/
theorem missingInit_shell :
    ¬ ∀ m : Machine, m.config.shellOnError = true → ShellOfImage m := by
  intro h
  have hlog : ranShell (dirAt .target ["bin", "armybox"])
      (main (refusing "root=/dev/vda2 init=/sbin/init" (.exec "/sbin/init".toList)
        "No such file or directory") 1 1).log = true := by decide +kernel
  exact nomatch h _ rfl 1 1 _ (mem_of_ranShell hlog)

end Cbuild.Initrd
