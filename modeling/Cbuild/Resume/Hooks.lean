import Cbuild.Resume.Build

/-! # Whose hooks run

A package whose `pkg` hooks have run is stamped, and passed over by the next build that finds the
stamp, while what the hooks have computed is gone with the process. A build removes the stamps of
the template's own packages before it installs, those of the automatic packages it does not. Nor
does it always remove the directory of an automatic package, which is then filled again.
-/

namespace Cbuild.Resume

open Lib Build Proc

variable {pkgname : Str} {ver : Ver} {cfg : Cfg} {d s : Disk}

/-- A build that starts with the disk `d` finds the package stamped when it comes to the hooks. -/
def StampLeft (pkgname : Str) (ver : Ver) (cfg : Cfg) (d : Disk) (p : Str) : Prop :=
  d.stamps (.prepkg p cfg.crossb) = true ∧ (cfg.dirty = true ∨ cfg.bootstrap = true) ∧
    ¬ (cfg.bootstrap = false ∧ (d.dest ver cfg.crossb pkgname).isSome = true ∧
      p ∈ pkgname :: cfg.subpkgList)

/-- It finds the install stamped when it comes to it. -/
def InstallLeft (pkgname : Str) (ver : Ver) (cfg : Cfg) (d : Disk) : Prop :=
  d.stamps (.phase .install cfg.crossb) = true ∧ (cfg.dirty = true ∨ cfg.bootstrap = true) ∧
    ¬ (cfg.bootstrap = false ∧ (d.dest ver cfg.crossb pkgname).isSome = true)

/-- It finds a destination directory of the package when it comes to the install. -/
def DestLeft (pkgname : Str) (ver : Ver) (cfg : Cfg) (d : Disk) (p : Str) : Prop :=
  (d.dest ver cfg.crossb p).isSome = true ∧
    ¬ (cfg.bootstrap = false ∧ (d.dest ver cfg.crossb pkgname).isSome = true) ∧
    ¬ (cfg.bootstrap = true ∧ cfg.inRoot = true ∧ cfg.dirty = false)

instance (pkgname : Str) (ver : Ver) (cfg : Cfg) (d : Disk) :
    Decidable (InstallLeft pkgname ver cfg d) := inferInstanceAs (Decidable (_ ∧ _ ∧ ¬ _))

instance (pkgname : Str) (ver : Ver) (cfg : Cfg) (d : Disk) (p : Str) :
    Decidable (DestLeft pkgname ver cfg d p) := inferInstanceAs (Decidable (_ ∧ ¬ _ ∧ ¬ _))

/-- The files it finds in that directory. -/
def heldLeft (pkgname : Str) (ver : Ver) (cfg : Cfg) (d : Disk) (p : Str) : List Str :=
  if DestLeft pkgname ver cfg d p then d.files ver cfg.crossb p else []

/-- The template's own packages. -/
def own (pkgname : Str) (cfg : Cfg) : List Str := cfg.subpkgList ++ [pkgname]

/-- The automatic packages, whether there is anything for them or not. -/
def autos (pkgname : Str) (cfg : Cfg) : List Str := (own pkgname cfg).flatMap cfg.autopkgs

/-- The packages it generates: the template's own, and the automatic ones of which there is a
directory. -/
def Generates (pkgname : Str) (ver : Ver) (cfg : Cfg) (d : Disk) (p : Str) : Prop :=
  p ∈ own pkgname cfg ∨ (p ∈ autos pkgname cfg ∧ (DestLeft pkgname ver cfg d p ∨
    (¬ InstallLeft pkgname ver cfg d ∧ cfg.taken p = true)))

/-- The files it generates a package from. -/
def heldAfter (pkgname : Str) (ver : Ver) (cfg : Cfg) (d : Disk) (p : Str) : List Str :=
  if InstallLeft pkgname ver cfg d then heldLeft pkgname ver cfg d p
  else if p ∈ own pkgname cfg then cfg.files p
  else heldLeft pkgname ver cfg d p ++ cfg.files p

/-- What a clean build that is not interrupted writes. -/
def cleanWritten (pkgname : Str) (cfg : Cfg) : List (Str × Metadata) :=
  ((own pkgname cfg).flatMap fun p => p :: (cfg.autopkgs p).filter cfg.taken).map
    fun p => (p, ⟨true, cfg.files p⟩)

/-- The metadata is that of a clean build. -/
def SameMetadata (pkgname : Str) (cfg : Cfg) (b : Built) : Prop :=
  ∀ entry, entry ∈ b.written ↔ entry ∈ cleanWritten pkgname cfg

/-- The install comes to the directories it would find if there had been no other build: the
automatic packages have none with files in it, or, where it is not repeated, all have what it would
give them. -/
structure Undisturbed (pkgname : Str) (ver : Ver) (cfg : Cfg) (d : Disk) : Prop where
  run : ¬ InstallLeft pkgname ver cfg d → ∀ a ∈ autos pkgname cfg, a ∉ own pkgname cfg →
    DestLeft pkgname ver cfg d a → cfg.taken a = true ∧ d.files ver cfg.crossb a = []
  kept : InstallLeft pkgname ver cfg d →
    (∀ p ∈ own pkgname cfg, heldLeft pkgname ver cfg d p = cfg.files p) ∧
      ∀ a ∈ autos pkgname cfg, a ∉ own pkgname cfg →
        (DestLeft pkgname ver cfg d a ↔ cfg.taken a = true) ∧
          heldLeft pkgname ver cfg d a = cfg.files a

/-! ## Up to the install -/

/-- What decides which packages are generated and whose hooks run is as it was. -/
structure Frame (d s : Disk) : Prop where
  prepkg : ∀ p c, s.stamps (.prepkg p c) = d.stamps (.prepkg p c)
  install : ∀ c, s.stamps (.phase .install c) = d.stamps (.phase .install c)
  dest : s.dest = d.dest
  files : s.files = d.files

theorem Frame.refl (d : Disk) : Frame d d := ⟨fun _ _ => rfl, fun _ => rfl, rfl, rfl⟩

theorem Frame.stamp (h : Frame d s) {p : Phase} (hp : p ≠ .install) (c : Target) (done : Bool) :
    Frame d (s.setStamp (.phase p c) done) := by
  refine ⟨fun q c' => ?_, fun c' => ?_, h.dest, h.files⟩
  · rw [Disk.setStamp_prepkg]
    exact h.prepkg q c'
  · have hne : Stamp.phase .install c' ≠ .phase p c := by
      intro heq
      injection heq with hphase
      exact hp hphase.symm
    rw [Disk.setStamp_of_ne _ hne]
    exact h.install c'

theorem Frame.work (h : Frame d s) (p : Phase) (c : Target) (leaves : Bool) :
    Frame d (s.work ver p c leaves) := ⟨h.prepkg, h.install, h.dest, h.files⟩

/-- Wherever a build is ended. -/
def anywhere (_ : Place) (_ : Disk) : Prop := True

theorem sentinel_frame (p : Phase) : Keeps (Frame d) (sentinel cfg p) anywhere :=
  Keeps.when fun _ => Keeps.throw fun _ _ => trivial

theorem invokePhase_frame {p : Phase} (hp : p ≠ .install) :
    Keeps (Frame d) (invokePhase ver cfg p) anywhere := by
  apply Keeps.look
  intro s h
  apply ends_when
  · intro _
    apply ends_step_bind trivial
    exact ends_step trivial ((h.work p _ _).stamp hp _ _)
  · exact fun _ => h

theorem invokeExtract_frame : Keeps (Frame d) (invokeExtract ver cfg) anywhere := by
  apply Keeps.look
  intro s h
  apply ends_when
  · intro _
    apply Ends.bind
    apply ends_when
    · exact fun _ => ends_throw trivial
    · intro _
      apply ends_step_bind trivial
      exact ends_step trivial ((h.work _ _ _).stamp (by decide) _ _)
  · exact fun _ => h

/-- The disk when the phases begin. -/
def cleanedWorld (cfg : Cfg) (d : Disk) : Disk :=
  if cfg.dirty = false ∧ cfg.bootstrap = true ∧ cfg.inRoot = true then d.removeDests else d

/-- Before the phases the build root is cleaned up. A dirty build does that only to stop at its
dependencies. -/
theorem cleanup_frame (h : Frame d s) :
    Ends (Proc.when (!cfg.dirty || cfg.step = .deps) (cleanupWorld cfg .setup)) s
      (fun _ s' => cfg.step ≠ .deps → Frame (cleanedWorld cfg d) s') anywhere := by
  apply ends_when
  · intro hclean
    apply ends_when
    · intro hroot
      have hroot : cfg.bootstrap = true ∧ cfg.inRoot = true := by simpa using hroot
      apply ends_step trivial
      intro hstep
      have hdirty : cfg.dirty = false := by simpa [hstep] using hclean
      rw [cleanedWorld, if_pos ⟨hdirty, hroot⟩]
      exact ⟨h.prepkg, h.install, rfl, h.files⟩
    · intro hroot _
      have hnot : ¬ (cfg.dirty = false ∧ cfg.bootstrap = true ∧ cfg.inRoot = true) := by
        intro hall
        rw [hall.2.1, hall.2.2] at hroot
        cases hroot
      rw [cleanedWorld, if_neg hnot]
      exact h
  · intro hclean _
    have hdirty : ¬ cfg.dirty = false := by
      intro hdirty
      rw [hdirty] at hclean
      cases hclean
    rw [cleanedWorld, if_neg fun hall => hdirty hall.1]
    exact h

/-- The phases leave it. -/
theorem buildUpToCheck_frame (d : Disk) : Ends (buildUpToCheck ver cfg) d
    (fun _ s => Frame (cleanedWorld cfg d) s) anywhere := by
  have hphase : ∀ (d : Disk) {p : Phase}, p ≠ .install →
      Keeps (Frame d) (do invokePhase ver cfg p; sentinel cfg p) anywhere := by
    intro d p hp
    apply Keeps.bind (invokePhase_frame hp)
    exact fun _ => sentinel_frame p
  unfold buildUpToCheck
  apply ends_step_bind trivial
  apply Ends.bind
  have hsetup : Frame d (if (d.src ver).isSome then d else d.setSrc ver (some ⟨[], false⟩)) := by
    split
    · exact Frame.refl d
    · exact ⟨fun _ _ => rfl, fun _ => rfl, rfl, rfl⟩
  apply (Keeps.when (fun _ => sentinel_frame .fetch) _ hsetup).mono _ (fun _ _ h => h)
  intro _ s₁ h₁
  apply Ends.bind
  apply (cleanup_frame h₁).mono _ (fun _ _ h => h)
  intro _ s₂ h₂
  apply Ends.bind
  apply ends_when
  · exact fun _ => ends_throw trivial
  · intro hstep
    apply Keeps.ends _ (h₂ (by simpa using hstep))
    apply Keeps.bind (Keeps.when fun _ => sentinel_frame .fetch)
    intro _
    apply Keeps.bind invokeExtract_frame
    intro _
    apply Keeps.bind (sentinel_frame .extract)
    intro _
    apply Keeps.bind (Keeps.when fun _ => hphase _ (by decide))
    intro _
    apply Keeps.bind (invokePhase_frame (by decide))
    intro _
    apply Keeps.bind (sentinel_frame .patch)
    intro _
    apply Keeps.bind (Keeps.when fun _ => hphase _ (by decide))
    intro _
    apply Keeps.bind (invokePhase_frame (by decide))
    intro _
    apply Keeps.bind (sentinel_frame .configure)
    intro _
    apply Keeps.bind (invokePhase_frame (by decide))
    intro _
    apply Keeps.bind (sentinel_frame .build)
    intro _
    apply Keeps.bind (Keeps.when fun _ => invokePhase_frame (by decide))
    exact fun _ => sentinel_frame .check

/-! ## The stamps of the packages -/

/-- Nothing but the stamps of some packages is removed. -/
theorem unlink_spec (c : Target) (place : Place) (ps : List Str) (s : Disk) :
    Ends (ps.forM fun p => step place fun d => d.setStamp (.prepkg p c) false) s (fun _ s' =>
      (∀ p, s'.stamps (.prepkg p c) = true ↔ s.stamps (.prepkg p c) = true ∧ p ∉ ps) ∧
        (∀ q c', s'.stamps (.phase q c') = s.stamps (.phase q c')) ∧ s'.dest = s.dest ∧
          s'.files = s.files)
      anywhere := by
  induction ps generalizing s with
  | nil =>
      apply ends_pure
      simp
  | cons q ps ih =>
      apply ends_step_bind trivial
      apply (ih _).mono _ (fun _ _ h => h)
      intro _ s' h
      obtain ⟨hprepkg, hphase, hdest⟩ := h
      refine ⟨fun p => ?_, fun p c' => ?_, hdest⟩
      · rw [hprepkg p, List.mem_cons]
        by_cases hp : p = q
        · rw [hp, Disk.setStamp_self]
          simp
        · have hne : Stamp.prepkg p c ≠ .prepkg q c := by simp [hp]
          rw [Disk.setStamp_of_ne _ hne]
          simp [hp]
      · rw [hphase p c', Disk.setStamp_phase]

/-- `s'` is what `remove_pkg` makes of `s`. -/
structure Removed (pkgname : Str) (ver : Ver) (cfg : Cfg) (s s' : Disk) : Prop where
  prepkg : ∀ p, s'.stamps (.prepkg p cfg.crossb) = true ↔
    s.stamps (.prepkg p cfg.crossb) = true ∧
      ¬ ((s.dest ver cfg.crossb pkgname).isSome = true ∧ p ∈ pkgname :: cfg.subpkgList)
  install : s'.stamps (.phase .install cfg.crossb) = true ↔
    s.stamps (.phase .install cfg.crossb) = true ∧
      ¬ (s.dest ver cfg.crossb pkgname).isSome = true
  dest : ∀ p, (s'.dest ver cfg.crossb p).isSome = true ↔
    (s.dest ver cfg.crossb p).isSome = true ∧ ¬ (s.dest ver cfg.crossb pkgname).isSome = true
  files : s'.files = s.files

theorem removePkg_spec (before after : Place) (s : Disk) :
    Ends (removePkg pkgname ver cfg before after) s
      (fun _ s' => Removed pkgname ver cfg s s') anywhere := by
  unfold removePkg
  apply ends_look_bind
  apply ends_when
  · intro hsome
    apply Ends.bind
    apply (unlink_spec cfg.crossb before _ s).mono _ (fun _ _ h => h)
    intro _ s' h
    obtain ⟨hprepkg, -, -, hfiles⟩ := h
    apply ends_step_bind trivial
    apply ends_step_bind trivial
    apply ends_step trivial
    refine ⟨fun p => ?_, ?_, fun p => ?_, hfiles⟩
    · rw [Disk.setStamp_prepkg, and_iff_right hsome]
      exact hprepkg p
    · rw [Disk.setStamp_self]
      simp [hsome]
    · simp [hsome, Disk.setStamp, Disk.breakBase, Disk.removeBase]
  · intro hnone
    rw [Bool.eq_false_iff] at hnone
    refine ⟨fun p => ?_, ?_, fun p => ?_, rfl⟩
    · exact (and_iff_left fun h => hnone h.1).symm
    · exact (and_iff_left hnone).symm
    · exact (and_iff_left hnone).symm

/-- The hooks of a package run if it is not stamped, or if the build is forced. -/
theorem invokePrepkg_spec (ps : List Str) (s : Disk) :
    Ends (invokePrepkg cfg ps) s (fun hooked s' => (∀ p ∈ hooked, p ∈ ps) ∧
      (∀ p ∈ ps, p ∈ hooked ↔ cfg.force = true ∨ ¬ s.stamps (.prepkg p cfg.crossb) = true) ∧
        ∀ v c p, s'.held v c p = s.held v c p) anywhere := by
  induction ps generalizing s with
  | nil => exact ends_pure ⟨fun _ h => h, by simp, fun _ _ _ => rfl⟩
  | cons q ps ih =>
      unfold invokePrepkg
      apply ends_look_bind
      apply ends_ite
      · intro hskip
        obtain ⟨hstamp, hforce⟩ := Bool.and_eq_true_iff.mp hskip
        have hforce : cfg.force = false := by simpa using hforce
        apply (ih s).mono
        · intro hooked _ h
          obtain ⟨hsub, hiff, hheld⟩ := h
          refine ⟨fun p hp => List.mem_cons_of_mem _ (hsub p hp), fun p hp => ?_, hheld⟩
          by_cases hps : p ∈ ps
          · exact hiff p hps
          · rcases List.mem_cons.mp hp with heq | hp
            · rw [heq] at hps ⊢
              constructor
              · intro hin
                exact absurd (hsub q hin) hps
              · intro h
                rw [hforce, hstamp] at h
                simp at h
            · exact absurd hp hps
        · exact fun _ _ h => h
      · intro hrun
        have hq : cfg.force = true ∨ ¬ s.stamps (.prepkg q cfg.crossb) = true := by
          cases hforce : cfg.force with
          | true => exact Or.inl rfl
          | false =>
              right
              intro hstamp
              apply hrun
              rw [hstamp, hforce]
              rfl
        apply ends_step_bind trivial
        apply ends_step_bind trivial
        apply Ends.bind
        apply (ih _).mono
        · intro hooked _ h
          obtain ⟨hsub, hiff, hheld⟩ := h
          apply ends_pure
          refine ⟨fun p hp => ?_, fun p hp => ?_, hheld⟩
          · rcases List.mem_cons.mp hp with heq | hp
            · rw [heq]
              exact List.mem_cons_self
            · exact List.mem_cons_of_mem _ (hsub p hp)
          · by_cases heq : p = q
            · rw [heq]
              exact iff_of_true List.mem_cons_self hq
            · have hps : p ∈ ps := (List.mem_cons.mp hp).resolve_left heq
              have hne : Stamp.prepkg p cfg.crossb ≠ .prepkg q cfg.crossb := by simp [heq]
              have hiff := hiff p hps
              rw [Disk.setStamp_of_ne _ hne] at hiff
              rw [List.mem_cons, or_iff_right heq]
              exact hiff
        · exact fun _ _ h => h

/-! ## The packages -/

/-- What the steps of an install do not change. -/
def SameStamps (d s : Disk) : Prop := ∀ p c, s.stamps (.prepkg p c) = d.stamps (.prepkg p c)

/-- The directories of an install that is not repeated. -/
structure KeptDests (ver : Ver) (cfg : Cfg) (d s : Disk) (ps : List Str) : Prop where
  stamps : SameStamps d s
  held : ∀ p, s.held ver cfg.crossb p = d.held ver cfg.crossb p
  dest : ∀ p, p ∉ ps → s.dest ver cfg.crossb p = d.dest ver cfg.crossb p

theorem keepInstall_dest (d : Disk) : Ends (keepInstall pkgname ver cfg) d
    (fun _ s => KeptDests ver cfg d s (own pkgname cfg)) anywhere := by
  have hkeep : Keeps (fun s => KeptDests ver cfg d s (own pkgname cfg))
      (keepInstall pkgname ver cfg) anywhere := by
    apply Keeps.forM
    intro q hq
    apply Keeps.forM
    intro parents _
    apply Keeps.look
    intro s hs
    apply ends_when
    · intro hnone
      apply ends_ite
      · intro _
        refine ends_step trivial ⟨hs.stamps, fun p => ?_, fun p hp => ?_⟩
        · -- the directory that is made is empty
          rw [Disk.held_fill, ← hs.held p]
          split
          · rename_i heq
            rw [heq, Disk.held, if_neg]
            rw [Option.isNone_iff_eq_none] at hnone
            simp [hnone]
          · rfl
        · rw [Disk.fill_dest, if_neg, hs.dest p hp]
          rintro rfl
          exact hp hq
      · exact fun _ => ends_throw trivial
    · exact fun _ => hs
  exact hkeep.ends ⟨fun _ _ => rfl, fun _ => rfl, fun _ _ => rfl⟩

/-- Files are moved one by one, none to the place of another. -/
theorem moveFiles_spec (a : Str) (fs : List Str) (s : Disk)
    (hdir : (s.dest ver cfg.crossb a).isSome = true) :
    Ends (fs.forM (moveFile ver cfg a)) s (fun _ s' => SameStamps s s' ∧ s'.dest = s.dest ∧
      (∀ f ∈ fs, f ∉ s.held ver cfg.crossb a) ∧ ∀ p, s'.held ver cfg.crossb p =
        s.held ver cfg.crossb p ++ if p = a then fs else []) anywhere := by
  induction fs generalizing s with
  | nil =>
      apply ends_pure
      refine ⟨fun _ _ => rfl, rfl, by simp, by simp⟩
  | cons f fs ih =>
      apply Ends.bind
      apply ends_look_bind
      apply Ends.bind
      apply ends_when
      · exact fun _ => ends_throw trivial
      intro hfree
      apply ends_step trivial
      have hmoved := Disk.held_hold s hdir
      apply (ih (s.hold ver cfg.crossb a (s.held ver cfg.crossb a ++ [f])) hdir).mono _
        (fun _ _ h => h)
      intro _ s' h
      obtain ⟨hstamps, hdest, hnew, hheld⟩ := h
      have hfree : f ∉ s.held ver cfg.crossb a := by simpa using hfree
      refine ⟨hstamps, hdest, fun g hg => ?_, fun p => ?_⟩
      · rcases List.mem_cons.mp hg with rfl | hg
        · exact hfree
        · have hg := hnew g hg
          rw [hmoved, if_pos rfl, List.mem_append, not_or] at hg
          exact hg.1
      · rw [hheld p, hmoved]
        by_cases hp : p = a
        · simp [hp]
        · simp [hp]

/-- What splitting makes of the directories. -/
structure Taken (ver : Ver) (cfg : Cfg) (d s : Disk) (as : List Str) : Prop where
  stamps : SameStamps d s
  dest : ∀ p, (s.dest ver cfg.crossb p).isSome = true ↔
    (d.dest ver cfg.crossb p).isSome = true ∨ (p ∈ as ∧ cfg.taken p = true)
  held : ∀ p, s.held ver cfg.crossb p =
    d.held ver cfg.crossb p ++ if p ∈ as then cfg.files p else []
  /-- No file has been in the way. -/
  free : ∀ a ∈ as, ∀ f ∈ cfg.files a, f ∉ d.held ver cfg.crossb a

theorem takeAuto_spec (a : Str) (s : Disk) :
    Ends (takeAuto ver cfg a) s (fun _ s' => Taken ver cfg s s' [a]) anywhere := by
  apply ends_when
  · intro htaken
    apply ends_step_bind trivial
    have hdir : ((s.fill ver cfg.crossb a true (s.held ver cfg.crossb a)).dest ver cfg.crossb
        a).isSome = true := by
      rw [Disk.fill_dest, if_pos rfl]
      rfl
    have hheld : ∀ p, (s.fill ver cfg.crossb a true (s.held ver cfg.crossb a)).held ver cfg.crossb
        p = s.held ver cfg.crossb p := by
      intro p
      rw [Disk.held_fill]
      split
      · rename_i hp
        rw [hp]
      · rfl
    apply (moveFiles_spec a _ _ hdir).mono _ (fun _ _ h => h)
    intro _ s' h
    obtain ⟨hstamps, hdest, hfree, hmoved⟩ := h
    refine ⟨hstamps, fun p => ?_, fun p => ?_, fun b hb f hf => ?_⟩
    · rw [hdest, Disk.fill_dest]
      by_cases hp : p = a
      · simp [hp, htaken]
      · simp [hp]
    · rw [hmoved p, hheld p]
      by_cases hp : p = a
      · simp [hp]
      · simp [hp]
    · rw [List.mem_singleton.mp hb] at hf ⊢
      rw [← hheld a]
      exact hfree f hf
  · intro htaken
    have hnil : cfg.files a = [] := by simpa [Cfg.taken] using htaken
    refine ⟨fun _ _ => rfl, fun p => ?_, fun p => ?_, fun b hb f hf => ?_⟩
    · have hnot : ¬ (p ∈ [a] ∧ cfg.taken p = true) := by
        intro h
        rw [List.mem_singleton.mp h.1, htaken] at h
        cases h.2
      exact (or_iff_left hnot).symm
    · by_cases hp : p = a
      · simp [hp, hnil]
      · simp [hp]
    · rw [List.mem_singleton.mp hb, hnil] at hf
      cases hf

theorem takeAutos_spec (as : List Str) (s : Disk) :
    Ends (as.forM (takeAuto ver cfg)) s (fun _ s' => Taken ver cfg s s' as) anywhere := by
  induction as generalizing s with
  | nil =>
      apply ends_pure
      refine ⟨fun _ _ => rfl, by simp, by simp, by simp⟩
  | cons a as ih =>
      apply Ends.bind
      apply (takeAuto_spec a s).mono _ (fun _ _ h => h)
      intro _ s₁ h₁
      apply (ih s₁).mono _ (fun _ _ h => h)
      intro _ s₂ h₂
      refine ⟨fun p c => (h₂.stamps p c).trans (h₁.stamps p c), fun p => ?_, fun p => ?_,
        fun b hb f hf => ?_⟩
      · rw [h₂.dest p, h₁.dest p, List.mem_singleton, List.mem_cons]
        grind
      · rw [h₂.held p, h₁.held p, List.append_assoc]
        congr 1
        by_cases hp : p = a
        · subst hp
          by_cases hmem : p ∈ as
          · -- taken twice, so that there was nothing to take
            have hnil : cfg.files p = [] := by
              rw [List.eq_nil_iff_forall_not_mem]
              intro f hf
              apply h₂.free p hmem f hf
              rw [h₁.held p]
              simp [hf]
            simp [hnil]
          · simp [hmem]
        · simp [hp]
      · rcases List.mem_cons.mp hb with rfl | hb
        · exact h₁.free b (List.mem_singleton_self b) f hf
        · intro hheld
          apply h₂.free b hb f hf
          rw [h₁.held b]
          exact List.mem_append_left _ hheld

/-- An install that is run has put into the directories of the own packages what it gives them, and
into those of the automatic ones what it gives them besides what was there. -/
structure RunDests (pkgname : Str) (ver : Ver) (cfg : Cfg) (d s : Disk) : Prop where
  stamps : SameStamps d s
  dest : ∀ p, p ∉ own pkgname cfg → ((s.dest ver cfg.crossb p).isSome = true ↔
    (d.dest ver cfg.crossb p).isSome = true ∨ (p ∈ autos pkgname cfg ∧ cfg.taken p = true))
  held : ∀ p, s.held ver cfg.crossb p = if p ∈ own pkgname cfg then cfg.files p
    else d.held ver cfg.crossb p ++ if p ∈ autos pkgname cfg then cfg.files p else []

/-- The directories of some of the own packages are filled. -/
structure Filling (ver : Ver) (cfg : Cfg) (d s : Disk) (ps : List Str) : Prop where
  stamps : SameStamps d s
  dest : ∀ p, p ∉ ps → s.dest ver cfg.crossb p = d.dest ver cfg.crossb p
  held : ∀ p, s.held ver cfg.crossb p =
    if p ∈ ps then cfg.files p else d.held ver cfg.crossb p

theorem Filling.fill {ps : List Str} (h : Filling ver cfg d s ps) (p : Str) :
    Filling ver cfg d (s.fill ver cfg.crossb p true (cfg.files p)) (p :: ps) := by
  refine ⟨h.stamps, fun q hq => ?_, fun q => ?_⟩
  · rw [List.mem_cons, not_or] at hq
    rw [Disk.fill_dest, if_neg hq.1, h.dest q hq.2]
  · rw [Disk.held_fill, h.held q]
    by_cases hq : q = p
    · simp [hq]
    · simp [hq]

theorem fillSubpkgs_spec (qs : List Str) {ps : List Str} (h : Filling ver cfg d s ps) :
    Ends (qs.forM fun p => step Place.install fun d => d.fill ver cfg.crossb p true (cfg.files p))
      s (fun _ s' => Filling ver cfg d s' (qs.reverse ++ ps)) anywhere := by
  induction qs generalizing s ps with
  | nil => exact ends_pure h
  | cons q qs ih =>
      apply ends_step_bind trivial
      apply (ih (h.fill q)).mono _ (fun _ _ h => h)
      intro _ s' h'
      rw [List.reverse_cons, List.append_assoc]
      exact h'

theorem runInstall_dest (d : Disk) : Ends (runInstall pkgname ver cfg) d
    (fun _ s => RunDests pkgname ver cfg d s) anywhere := by
  have hmain : Filling ver cfg d
      (((d.setDest ver cfg.crossb pkgname none).fill ver cfg.crossb pkgname false []).fill ver
        cfg.crossb pkgname true (cfg.files pkgname)) [pkgname] := by
    refine ⟨fun _ _ => rfl, fun p hp => ?_, fun p => ?_⟩
    · have hp : p ≠ pkgname := by simpa using hp
      rw [Disk.fill_dest, if_neg hp, Disk.fill_dest, if_neg hp]
      simp [Disk.setDest, hp]
    · rw [Disk.held_fill, Disk.held_fill]
      by_cases hp : p = pkgname
      · simp [hp]
      · simp [Disk.held, Disk.setDest, hp]
  have hown : ∀ p, p ∈ cfg.subpkgList.reverse ++ [pkgname] ↔ p ∈ own pkgname cfg := by
    simp [own]
  unfold runInstall
  apply ends_step_bind trivial
  apply ends_step_bind trivial
  apply ends_step_bind trivial
  apply Ends.bind
  apply (fillSubpkgs_spec cfg.subpkgList hmain).mono _ (fun _ _ h => h)
  intro _ s₁ h₁
  apply Ends.bind
  apply (takeAutos_spec (autos pkgname cfg) s₁).mono _ (fun _ _ h => h)
  intro _ s₂ h₂
  apply ends_step trivial
  refine ⟨fun p c => ?_, fun p hp => ?_, fun p => ?_⟩
  · rw [Disk.setStamp_prepkg, h₂.stamps, h₁.stamps]
  · rw [← hown] at hp
    show (s₂.dest ver cfg.crossb p).isSome = true ↔ _
    rw [h₂.dest p, h₁.dest p hp]
  · show s₂.held ver cfg.crossb p = _
    rw [h₂.held p, h₁.held p]
    simp only [hown]
    split
    · rename_i hp
      split
      · -- an automatic package of this name would have had a file in the way
        rename_i hauto
        have hnil : cfg.files p = [] := by
          rw [List.eq_nil_iff_forall_not_mem]
          intro f hf
          apply h₂.free p hauto f hf
          rw [h₁.held p, if_pos ((hown p).mpr hp)]
          exact hf
        simp [hnil]
      · simp
    · rfl

/-- What a build that has come to the install finds there, told from the disk it has started with. -/
structure Ready (pkgname : Str) (ver : Ver) (cfg : Cfg) (d s : Disk) : Prop where
  prepkg : ∀ p, s.stamps (.prepkg p cfg.crossb) = true ↔ StampLeft pkgname ver cfg d p
  install : s.stamps (.phase .install cfg.crossb) = true ↔ InstallLeft pkgname ver cfg d
  dest : ∀ p, (s.dest ver cfg.crossb p).isSome = true ↔ DestLeft pkgname ver cfg d p
  files : s.files = d.files

theorem Ready.held (h : Ready pkgname ver cfg d s) (p : Str) :
    s.held ver cfg.crossb p = heldLeft pkgname ver cfg d p := by
  unfold Disk.held heldLeft
  simp only [h.dest p, h.files]

theorem mem_subpkgAll (s : Disk) (p : Str) : p ∈ subpkgAll pkgname ver cfg s ↔
    p ∈ own pkgname cfg ∨
      (p ∈ autos pkgname cfg ∧ (s.dest ver cfg.crossb p).isSome = true) := by
  unfold subpkgAll autos own
  rw [List.mem_flatMap, List.mem_flatMap]
  constructor
  · intro h
    obtain ⟨q, hq, hp⟩ := h
    rcases List.mem_cons.mp hp with heq | hauto
    · left
      rw [heq]
      exact hq
    · right
      obtain ⟨hauto, hdest⟩ := List.mem_filter.mp hauto
      exact ⟨⟨q, hq, hauto⟩, hdest⟩
  · intro h
    rcases h with hown | hauto
    · exact ⟨p, hown, List.mem_cons_self⟩
    · obtain ⟨⟨q, hq, hauto⟩, hdest⟩ := hauto
      exact ⟨q, hq, List.mem_cons_of_mem _ (List.mem_filter.mpr ⟨hauto, hdest⟩)⟩

/-- The install tells the packages that are generated and their files, and leaves their stamps
alone. -/
structure InstallMade (pkgname : Str) (ver : Ver) (cfg : Cfg) (d s s' : Disk)
    (generated : List Str) : Prop where
  mem_iff : ∀ p, p ∈ generated ↔ Generates pkgname ver cfg d p
  stamps : SameStamps s s'
  held : ∀ p ∈ generated, s'.held ver cfg.crossb p = heldAfter pkgname ver cfg d p

theorem invokeInstall_spec (h : Ready pkgname ver cfg d s) (hstep : cfg.step ≠ .install) :
    Ends (invokeInstall pkgname ver cfg) s
      (fun generated s' => InstallMade pkgname ver cfg d s s' generated) anywhere := by
  unfold invokeInstall
  apply ends_look_bind
  apply Ends.bind
  have hinstall : Ends (if s.stamps (.phase .install cfg.crossb) &&
      !(cfg.force && cfg.step = .install) then keepInstall pkgname ver cfg
      else runInstall pkgname ver cfg) s (fun _ s' => SameStamps s s' ∧
        (∀ p, p ∉ own pkgname cfg → p ∈ autos pkgname cfg →
          ((s'.dest ver cfg.crossb p).isSome = true ↔ DestLeft pkgname ver cfg d p ∨
            (¬ InstallLeft pkgname ver cfg d ∧ cfg.taken p = true))) ∧
        ∀ p, Generates pkgname ver cfg d p →
          s'.held ver cfg.crossb p = heldAfter pkgname ver cfg d p) anywhere := by
    apply ends_ite
    · intro hkeep
      have hleft : InstallLeft pkgname ver cfg d := by
        rw [← h.install]
        exact (Bool.and_eq_true_iff.mp hkeep).1
      apply (keepInstall_dest s).mono _ (fun _ _ h => h)
      intro _ s' h'
      refine ⟨h'.stamps, fun p hp _ => ?_, fun p _ => ?_⟩
      · rw [h'.dest p hp, h.dest p]
        exact (or_iff_left fun hnot => hnot.1 hleft).symm
      · rw [h'.held p, h.held p, heldAfter, if_pos hleft]
    · intro hrun
      have hleft : ¬ InstallLeft pkgname ver cfg d := by
        rw [← h.install]
        intro hstamp
        apply hrun
        simp [hstamp, hstep]
      apply (runInstall_dest s).mono _ (fun _ _ h => h)
      intro _ s' h'
      refine ⟨h'.stamps, fun p hp hauto => ?_, fun p hgen => ?_⟩
      · rw [h'.dest p hp, h.dest p, and_iff_right hauto, and_iff_right hleft]
      · rw [h'.held p, heldAfter, if_neg hleft, h.held p]
        by_cases hown : p ∈ own pkgname cfg
        · rw [if_pos hown, if_pos hown]
        · rw [if_neg hown, if_neg hown, if_pos (hgen.resolve_left hown).1]
  apply hinstall.mono _ (fun _ _ h => h)
  intro _ s' h'
  obtain ⟨hstamps, hdest, hheld⟩ := h'
  apply ends_look_bind
  apply ends_pure
  have hgenerated : ∀ p, p ∈ subpkgAll pkgname ver cfg s' ↔ Generates pkgname ver cfg d p := by
    intro p
    rw [mem_subpkgAll]
    apply or_congr_right'
    intro hown
    apply and_congr_right
    exact hdest p hown
  exact ⟨hgenerated, hstamps, fun p hp => hheld p ((hgenerated p).mp hp)⟩

/-! ## A build -/

/-- A build that is to clean up first leaves no stamp; another one changes nothing yet. -/
theorem wipe_spec (d : Disk) : Ends (wipe pkgname ver cfg) d (fun _ s =>
    if cfg.dirty = true ∨ cfg.bootstrap = true then s = d
    else (∀ st, s.stamps st = false) ∧ (∀ p, (s.dest ver cfg.crossb p).isSome = true ↔
      (d.dest ver cfg.crossb p).isSome = true ∧
        ¬ (d.dest ver cfg.crossb pkgname).isSome = true) ∧ s.files = d.files) anywhere := by
  unfold wipe
  apply ends_when
  · intro hwipe
    have hnot : ¬ (cfg.dirty = true ∨ cfg.bootstrap = true) := by
      simpa using hwipe
    simp only [if_neg hnot]
    apply Ends.bind
    have hsrc : Keeps (fun s : Disk => s.dest = d.dest ∧ s.files = d.files)
        (removePkgWrksrc ver .start .wiping) anywhere := by
      apply Keeps.look
      intro s h
      apply ends_when
      · intro _
        apply ends_step_bind trivial
        exact ends_step trivial h
      · exact fun _ => h
    apply (hsrc.ends ⟨rfl, rfl⟩).mono _ (fun _ _ h => h)
    intro _ s h
    apply Ends.bind
    apply (removePkg_spec .wiping .wiping s).mono _ (fun _ _ h => h)
    intro _ s' h'
    apply ends_step trivial
    refine ⟨fun _ => rfl, fun p => ?_, h'.files.trans h.2⟩
    have hdest := h'.dest p
    rw [h.1] at hdest
    exact hdest
  · intro hwipe
    have hor : cfg.dirty = true ∨ cfg.bootstrap = true := by
      cases hd : cfg.dirty with
      | true => exact Or.inl rfl
      | false =>
          right
          rw [hd] at hwipe
          simpa using hwipe
    rw [if_pos hor]

/-- A build removes what it finds of an earlier one before it installs, but for the stamps of
automatic packages. -/
theorem remove_ready {s₁ s₂ : Disk}
    (h₁ : if cfg.dirty = true ∨ cfg.bootstrap = true then s₁ = d
      else (∀ st, s₁.stamps st = false) ∧ (∀ p, (s₁.dest ver cfg.crossb p).isSome = true ↔
        (d.dest ver cfg.crossb p).isSome = true ∧
          ¬ (d.dest ver cfg.crossb pkgname).isSome = true) ∧ s₁.files = d.files)
    (h₂ : Frame (cleanedWorld cfg s₁) s₂) :
    Ends (Proc.when (!cfg.bootstrap) (removePkg pkgname ver cfg .cleaning .cleaned)) s₂
      (fun _ s₃ => Ready pkgname ver cfg d s₃) anywhere := by
  apply ends_when
  · intro hboot
    have hboot : cfg.bootstrap = false := by simpa using hboot
    have hworld : cleanedWorld cfg s₁ = s₁ := by simp [cleanedWorld, hboot]
    rw [hworld] at h₂
    apply (removePkg_spec .cleaning .cleaned s₂).mono _ (fun _ _ h => h)
    intro _ s₃ h₃
    by_cases hor : cfg.dirty = true ∨ cfg.bootstrap = true
    · rw [if_pos hor] at h₁
      rw [h₁] at h₂
      refine ⟨fun p => ?_, ?_, fun p => ?_, h₃.files.trans h₂.files⟩
      · rw [h₃.prepkg p, h₂.prepkg, h₂.dest, StampLeft, and_iff_right hor, and_iff_right hboot]
      · rw [h₃.install, h₂.install, h₂.dest, InstallLeft, and_iff_right hor, and_iff_right hboot]
      · rw [h₃.dest p, h₂.dest, DestLeft, and_iff_right hboot]
        simp [hboot]
    · rw [if_neg hor] at h₁
      refine ⟨fun p => ?_, ?_, fun p => ?_, (h₃.files.trans h₂.files).trans h₁.2.2⟩
      · rw [h₃.prepkg p, h₂.prepkg, h₁.1, StampLeft]
        simp [hor]
      · rw [h₃.install, h₂.install, h₁.1, InstallLeft]
        simp [hor]
      · rw [h₃.dest p, h₂.dest, h₁.2.1, DestLeft, and_iff_right hboot]
        have hgone : ¬ (s₁.dest ver cfg.crossb pkgname).isSome = true := by
          rw [h₁.2.1]
          exact fun h => h.2 h.1
        rw [and_iff_left hgone]
        simp [hboot]
  · intro hboot
    have hboot : cfg.bootstrap = true := by simpa using hboot
    rw [if_pos (Or.inr hboot)] at h₁
    rw [h₁] at h₂
    have hfiles : (cleanedWorld cfg d).files = d.files := by
      unfold cleanedWorld
      split <;> rfl
    refine ⟨fun p => ?_, ?_, fun p => ?_, h₂.files.trans hfiles⟩
    · rw [h₂.prepkg, StampLeft]
      unfold cleanedWorld
      split <;> simp [hboot, Disk.removeDests]
    · rw [h₂.install, InstallLeft]
      unfold cleanedWorld
      split <;> simp [hboot, Disk.removeDests]
    · rw [h₂.dest, DestLeft, cleanedWorld]
      split
      next hclean => simp [hclean, Disk.removeDests]
      next hclean =>
        have hnot : ¬ (cfg.bootstrap = true ∧ cfg.inRoot = true ∧ cfg.dirty = false) :=
          fun hall => hclean ⟨hall.2.2, hall.1, hall.2.1⟩
        rw [and_iff_left hnot]
        simp [hboot]

theorem generate_spec (generated hooked : List Str) (s : Disk) :
    Ends (generate ver cfg generated hooked) s (fun written _ => written =
      generated.map fun p => (p, ⟨hooked.contains p, s.held ver cfg.crossb p⟩)) anywhere := by
  apply ends_look_bind
  apply ends_ite
  · intro _
    apply ends_step_bind trivial
    exact ends_pure rfl
  · exact fun _ => ends_throw trivial

/-- The packages a build generates, those whose hooks it runs and the metadata, told from the disk
it starts with. -/
structure Made (pkgname : Str) (ver : Ver) (cfg : Cfg) (d : Disk) (b : Built) : Prop where
  generated : ∀ p, p ∈ b.generated ↔ Generates pkgname ver cfg d p
  hooked : ∀ p ∈ b.generated, p ∈ b.hooked ↔
    cfg.force = true ∨ ¬ StampLeft pkgname ver cfg d p
  written : b.written = b.generated.map fun p =>
    (p, ⟨b.hooked.contains p, heldAfter pkgname ver cfg d p⟩)

theorem build_made (d : Disk) :
    Ends (build pkgname ver cfg) d (fun b _ => Made pkgname ver cfg d b) anywhere := by
  unfold build
  apply Ends.bind
  apply (wipe_spec d).mono _ (fun _ _ h => h)
  intro _ s₁ h₁
  apply Ends.bind
  apply (buildUpToCheck_frame s₁).mono _ (fun _ _ h => h)
  intro _ s₂ h₂
  apply Ends.bind
  apply (remove_ready h₁ h₂).mono _ (fun _ _ h => h)
  intro _ s₃ h₃
  apply Ends.bind
  by_cases hstep : cfg.step = .install
  · apply (ends_trivial _).mono _ (fun _ _ h => h)
    intro _ _ _
    apply Ends.bind
    apply ends_when
    · exact fun _ => ends_throw trivial
    · intro hnot
      simp [hstep] at hnot
  apply (invokeInstall_spec h₃ hstep).mono _ (fun _ _ h => h)
  intro generated s₄ h₄
  apply Ends.bind
  apply ends_when
  · exact fun _ => ends_throw trivial
  intro _
  apply Ends.bind
  apply (invokePrepkg_spec generated s₄).mono _ (fun _ _ h => h)
  intro hooked s₅ h₅
  obtain ⟨-, hhooked, hheld⟩ := h₅
  apply Ends.bind
  apply (generate_spec generated hooked s₅).mono _ (fun _ _ h => h)
  rintro _ s₆ rfl
  apply Ends.bind
  apply (ends_trivial _).mono _ (fun _ _ h => h)
  intro _ s₇ _
  apply ends_pure
  refine ⟨h₄.mem_iff, fun p hp => ?_, List.map_congr_left fun p hp => ?_⟩
  · rw [hhooked p hp, h₄.stamps p, h₃.prepkg p]
  · rw [hheld, h₄.held p hp]

/-! ## The metadata -/

theorem mem_cleanWritten (p : Str) (m : Metadata) : (p, m) ∈ cleanWritten pkgname cfg ↔
    (p ∈ own pkgname cfg ∨ (p ∈ autos pkgname cfg ∧ cfg.taken p = true)) ∧
      m = ⟨true, cfg.files p⟩ := by
  have hmem : (p ∈ (own pkgname cfg).flatMap fun q => q :: (cfg.autopkgs q).filter cfg.taken) ↔
      p ∈ own pkgname cfg ∨ (p ∈ autos pkgname cfg ∧ cfg.taken p = true) := by
    unfold autos
    simp only [List.mem_flatMap, List.mem_cons, List.mem_filter]
    grind
  unfold cleanWritten
  rw [List.mem_map, ← hmem]
  simp only [Prod.mk.injEq]
  grind

theorem Made.mem_written {b : Built} (h : Made pkgname ver cfg d b) (p : Str) (m : Metadata) :
    (p, m) ∈ b.written ↔ Generates pkgname ver cfg d p ∧
      m = ⟨b.hooked.contains p, heldAfter pkgname ver cfg d p⟩ := by
  rw [h.written, List.mem_map, ← h.generated]
  simp only [Prod.mk.injEq]
  grind

/-- A build starts with a disk that leaves it the packages and files of a clean one. -/
theorem undisturbed_iff : Undisturbed pkgname ver cfg d ↔
    ∀ p, (Generates pkgname ver cfg d p ↔
      p ∈ own pkgname cfg ∨ (p ∈ autos pkgname cfg ∧ cfg.taken p = true)) ∧
        (Generates pkgname ver cfg d p → heldAfter pkgname ver cfg d p = cfg.files p) := by
  have hfiles : ∀ p, ¬ cfg.taken p = true ↔ cfg.files p = [] := by simp [Cfg.taken]
  by_cases hleft : InstallLeft pkgname ver cfg d
  · have hgen : ∀ p, Generates pkgname ver cfg d p ↔ p ∈ own pkgname cfg ∨
        (p ∈ autos pkgname cfg ∧ DestLeft pkgname ver cfg d p) := by
      intro p
      simp [Generates, hleft]
    simp only [hgen, heldAfter, if_pos hleft]
    constructor
    · intro h p
      obtain ⟨hown, hauto⟩ := h.kept hleft
      refine ⟨or_congr_right' fun hp => and_congr_right fun ha => (hauto p ha hp).1, fun hp => ?_⟩
      by_cases hmem : p ∈ own pkgname cfg
      · exact hown p hmem
      · exact (hauto p (hp.resolve_left hmem).1 hmem).2
    · intro h
      refine ⟨fun hnot => absurd hleft hnot, fun _ => ⟨fun p hp => ?_, fun a ha hown => ?_⟩⟩
      · exact (h p).2 (Or.inl hp)
      · have hiff := (h a).1
        rw [or_iff_right hown, or_iff_right hown, and_iff_right ha, and_iff_right ha] at hiff
        refine ⟨hiff, ?_⟩
        by_cases hdest : DestLeft pkgname ver cfg d a
        · exact (h a).2 (Or.inr ⟨ha, hdest⟩)
        · rw [heldLeft, if_neg hdest, (hfiles a).mp fun ht => hdest (hiff.mpr ht)]
  · have hgen : ∀ p, Generates pkgname ver cfg d p ↔ p ∈ own pkgname cfg ∨
        (p ∈ autos pkgname cfg ∧ (DestLeft pkgname ver cfg d p ∨ cfg.taken p = true)) := by
      intro p
      simp [Generates, hleft]
    simp only [hgen, heldAfter, if_neg hleft]
    constructor
    · intro h p
      have hrun := h.run hleft
      refine ⟨or_congr_right' fun hp => and_congr_right fun ha => ?_, fun hp => ?_⟩
      · exact or_iff_right_of_imp fun hdest => (hrun p ha hp hdest).1
      · split
        · rfl
        · rename_i hmem
          have ha := (hp.resolve_left hmem).1
          unfold heldLeft
          split
          · rename_i hdest
            rw [(hrun p ha hmem hdest).2, List.nil_append]
          · exact List.nil_append _
    · intro h
      refine ⟨fun _ a ha hown hdest => ?_, fun hnot => absurd hnot hleft⟩
      have hgenerated := (h a).1.mp (Or.inr ⟨ha, Or.inl hdest⟩)
      have hheld := (h a).2 (Or.inr ⟨ha, Or.inl hdest⟩)
      rw [if_neg hown, heldLeft, if_pos hdest, List.append_left_eq_self] at hheld
      exact ⟨(hgenerated.resolve_left hown).2, hheld⟩

/-- When a build has run the hooks of all packages and written the metadata of a clean one. -/
theorem Made.clean_iff {b : Built} (h : Made pkgname ver cfg d b) :
    ((∀ p ∈ b.generated, p ∈ b.hooked) ∧ SameMetadata pkgname cfg b) ↔
      (cfg.force = true ∨ ∀ p, Generates pkgname ver cfg d p → ¬ StampLeft pkgname ver cfg d p) ∧
        Undisturbed pkgname ver cfg d := by
  have hhooked : (∀ p ∈ b.generated, p ∈ b.hooked) ↔ (cfg.force = true ∨
      ∀ p, Generates pkgname ver cfg d p → ¬ StampLeft pkgname ver cfg d p) := by
    constructor
    · intro hall
      by_cases hforce : cfg.force = true
      · exact Or.inl hforce
      · right
        intro p hp
        have hin := (h.generated p).mpr hp
        exact ((h.hooked p hin).mp (hall p hin)).resolve_left hforce
    · intro hcond p hp
      apply (h.hooked p hp).mpr
      exact hcond.imp_right fun hleft => hleft p ((h.generated p).mp hp)
  rw [← hhooked, and_congr_right_iff]
  intro hall
  rw [undisturbed_iff]
  have hmeta : ∀ p, Generates pkgname ver cfg d p → b.hooked.contains p = true := fun p hp =>
    List.contains_iff_mem.mpr (hall p ((h.generated p).mpr hp))
  constructor
  · intro hsame p
    have hin : Generates pkgname ver cfg d p →
        (p, ⟨b.hooked.contains p, heldAfter pkgname ver cfg d p⟩) ∈ cleanWritten pkgname cfg :=
      fun hp => (hsame _).mp ((h.mem_written p _).mpr ⟨hp, rfl⟩)
    refine ⟨⟨fun hp => ((mem_cleanWritten p _).mp (hin hp)).1, fun hp => ?_⟩, fun hp => ?_⟩
    · have hback := (hsame (p, ⟨true, cfg.files p⟩)).mpr ((mem_cleanWritten p _).mpr ⟨hp, rfl⟩)
      exact ((h.mem_written p _).mp hback).1
    · exact congrArg Metadata.files ((mem_cleanWritten p _).mp (hin hp)).2
  · intro hcond entry
    obtain ⟨p, m⟩ := entry
    rw [h.mem_written, mem_cleanWritten, ← (hcond p).1, and_congr_right_iff]
    intro hp
    rw [hmeta p hp, (hcond p).2 hp]

/-- On an empty disk a build writes what a clean one is said to write. -/
theorem build_empty : Ends (build pkgname ver cfg) Disk.empty
    (fun b _ => (∀ p ∈ b.generated, p ∈ b.hooked) ∧ SameMetadata pkgname cfg b) anywhere := by
  apply (build_made Disk.empty).mono _ (fun _ _ h => h)
  intro b _ h
  have hdest : ∀ p, ¬ DestLeft pkgname ver cfg Disk.empty p := fun p hp => nomatch hp.1
  refine h.clean_iff.mpr ⟨Or.inr fun _ _ hstamp => (nomatch hstamp.1), ?_⟩
  exact ⟨fun _ a _ _ ha => absurd ha (hdest a), fun hleft => (nomatch hleft.1)⟩

/-! ## Builds one after another -/

/-- A build of a sequence: what it found on the disk, and what it has made if it was completed. -/
structure Entry where
  ver : Ver
  cfg : Cfg
  disk : Disk
  built : Option Built

/-- Builds, each with the number of steps it makes until it is interrupted. -/
def builds (pkgname : Str) : List (Ver × Cfg × Nat) → Disk → List Entry
  | [], _ => []
  | (ver, cfg, n) :: rest, d =>
      match (build pkgname ver cfg).run ⟨d, n⟩ with
      | .ok built m => ⟨ver, cfg, d, some built⟩ :: builds pkgname rest m.state
      | .error _ m => ⟨ver, cfg, d, none⟩ :: builds pkgname rest m.state

end Cbuild.Resume
