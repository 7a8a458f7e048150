import Cbuild.Lib.Reach
import Cbuild.Resume.Build

/-! # What a stamp stands for

A stamp says that a phase has been run, and a dirty build that finds it goes on after that phase.
It is kept apart from what the phase has made: the name of the state directory has no version,
that of the source directory no target, and each is removed by functions of its own.
-/

namespace Cbuild.Resume

open Lib Build Proc

/-! ## Commands -/

/-- `do_clean` for the template; nothing of the state directory is removed. `initialized` says that
the build root has been set up, `inRoot` that `builddir()` is in it. -/
def cleanTemplate (ver : Ver) (initialized inRoot : Bool) : Proc Unit Disk Unit := do
  Proc.when (!initialized && inRoot) (Proc.step () Disk.removeDests)
  let d ← Proc.look
  Proc.when (d.src ver).isSome do
    Proc.step () fun d => d.setSrc ver (some ⟨[], true⟩)
    Proc.step () fun d => d.setSrc ver none
  Proc.step () fun d => { d with
    base := fun v c => if v = ver then false else d.base v c
    dest := fun v c p => if v = ver then none else d.dest v c p }

/-- `do_clean` for all templates. The state directories are in `builddir`. -/
def cleanAll (initialized inRoot : Bool) : Proc Unit Disk Unit := do
  Proc.when (!initialized && inRoot) (Proc.step () Disk.removeDests)
  Proc.step () fun d => { d with src := fun v => (d.src v).map fun _ => ⟨[], true⟩ }
  Proc.step () fun d => { d with stamps := fun _ => false, src := fun _ => none }
  Proc.step () Disk.removeDests

/-- A template as its file and the disk have it. -/
structure State where
  ver : Ver
  disk : Disk

inductive Event
  /-- A build that makes `n` steps, and the place it is ended at if it is. -/
  | build (cfg : Cfg) (n : Nat) (place : Option Place)
  | bump (ver : Ver)
  /-- `clean` for the template or for all, with the steps it makes and whether it is ended. -/
  | clean (template initialized inRoot : Bool) (n : Nat) (ended : Bool)

/-- The disk after a program that is ended as it is said. -/
def outcome {π α : Type} [DecidableEq π] (x : Proc π Disk α) (d : Disk) (n : Nat)
    (place : Option π) : Option Disk :=
  match x.run ⟨d, n⟩ with
  | .ok _ m => if place = none then some m.state else none
  | .error e m => if place = some e then some m.state else none

def step (pkgname : Str) (s : State) : Event → Option State
  | .build cfg n place =>
      (outcome (build pkgname s.ver cfg) s.disk n place).map fun d => { s with disk := d }
  | .bump ver => some { s with ver := ver }
  | .clean template initialized inRoot n ended =>
      (outcome
          (if template then cleanTemplate s.ver initialized inRoot
          else cleanAll initialized inRoot)
          s.disk n (if ended then some () else none)).map
        fun d => { s with disk := d }

/-! ## What the stamps say -/

/-- The phases whose stamps stand for the source directory. -/
def treePhases : List Phase := [.extract, .prepare, .patch, .configure, .build]

/-- Each stamp is borne out: the phase has worked in the source directory of the version, in which
nothing is for another target, or the install has filled the destination directory. -/
structure Sound (pkgname : Str) (ver : Ver) (d : Disk) : Prop where
  tree : ∀ p ∈ treePhases, ∀ c, d.stamps (.phase p c) = true →
    ∃ t, d.src ver = some t ∧ (p, c) ∈ t.works ∧ ∀ w ∈ t.works, w.2 = c
  dest : ∀ c, d.stamps (.phase .install c) = true → d.dest ver c pkgname = some true

/-- There is no stamp that a build goes by. -/
def Bare (d : Disk) : Prop :=
  ∀ p ∈ Phase.install :: treePhases, ∀ c, d.stamps (.phase p c) = false

/-! ## When they stay true -/

section

variable (ver : Ver) (cfg : Cfg) (d : Disk)

/-- The build is not ended between the removal of something and that of the stamp for it. -/
def Spared : Option Place → Prop
  | some .wiping => Bare d
  | some .cleaned => ¬ (cfg.dirty = true ∧ d.stamps (.phase .install cfg.crossb) = true)
  | some .install => ¬ (cfg.bootstrap = true ∧ cfg.force = true ∧ cfg.step = .install ∧
      d.stamps (.phase .install cfg.crossb) = true)
  | some .leaving => False
  | _ => True

/-- No install is stamped when the build root of stage 0 is emptied. -/
def EmptiesNone : Prop :=
  cfg.bootstrap = true → cfg.inRoot = true → (cfg.dirty = false ∨ cfg.step = .deps) →
    (cfg.step = .fetch → cfg.ownFetch = true) → ∀ c, d.stamps (.phase .install c) = false

/-- The build is to go on in the source directory it finds. -/
def GoesOn : Prop :=
  (cfg.dirty = true ∨ cfg.bootstrap = true) ∧ cfg.step ≠ .fetch ∧ cfg.step ≠ .deps

/-- The extraction fails, as the source directory is not empty. -/
def Refuses (t : Tree) : Prop :=
  d.stamps (.phase .extract cfg.crossb) = false ∧ cfg.ownExtract = false ∧ t.files = true

/-- A source directory in which the build is to go on has nothing for another target. -/
def OneTarget : Prop :=
  GoesOn cfg → ∀ t, d.src ver = some t → (∀ w ∈ t.works, w.2 = cfg.crossb) ∨ Refuses cfg d t

/-- A build that clears up after itself, or one that removes nothing a stamp stands for. -/
def BuildKeeps (place : Option Place) : Prop :=
  (place = none ∧ cfg.keepTemp = false) ∨
  Spared cfg d place ∧ (place ≠ some .setup → EmptiesNone cfg d ∧ OneTarget ver cfg d)

end

def Keeping (s : State) : Event → Prop
  | .build cfg _ place => BuildKeeps s.ver cfg s.disk place
  | .bump ver => ver = s.ver ∨ Bare s.disk
  | .clean template _ _ _ ended => Bare s.disk ∨ template = false ∧ ended = false

/-! ## The invariant -/

variable {pkgname : Str} {ver : Ver} {cfg : Cfg} {d s s' : Disk}

/-- What is installed has been extracted before. -/
structure Kept (pkgname : Str) (ver : Ver) (d : Disk) : Prop extends Sound pkgname ver d where
  extracted : ∀ c, d.stamps (.phase .install c) = true → d.stamps (.phase .extract c) = true

theorem Bare.kept (h : Bare d) : Kept pkgname ver d where
  tree := by
    intro p hp c hstamp
    rw [h p (List.mem_cons_of_mem _ hp) c] at hstamp
    cases hstamp
  dest := by
    intro c hstamp
    rw [h .install List.mem_cons_self c] at hstamp
    cases hstamp
  extracted := by
    intro c hstamp
    rw [h .install List.mem_cons_self c] at hstamp
    cases hstamp

/-- The stamps are the same, and what they stand for. -/
structure Alike (pkgname : Str) (ver : Ver) (s s' : Disk) : Prop where
  stamps : ∀ p ∈ Phase.install :: treePhases, ∀ c, s'.stamps (.phase p c) = s.stamps (.phase p c)
  src : s'.src ver = s.src ver
  dest : ∀ c, s'.dest ver c pkgname = s.dest ver c pkgname

theorem Kept.alike (h : Kept pkgname ver s) (hsame : Alike pkgname ver s s') :
    Kept pkgname ver s' where
  tree := by
    intro p hp c hstamp
    rw [hsame.stamps p (List.mem_cons_of_mem _ hp)] at hstamp
    rw [hsame.src]
    exact h.tree p hp c hstamp
  dest := by
    intro c hstamp
    rw [hsame.stamps _ List.mem_cons_self] at hstamp
    rw [hsame.dest]
    exact h.dest c hstamp
  extracted := by
    intro c hstamp
    rw [hsame.stamps _ List.mem_cons_self] at hstamp
    rw [hsame.stamps _ (by decide)]
    exact h.extracted c hstamp

/-- The build is at work in the source directory, with nothing there for another target. -/
structure Working (pkgname : Str) (ver : Ver) (cfg : Cfg) (s : Disk) : Prop
    extends Kept pkgname ver s where
  own : ∀ t, s.src ver = some t → ∀ w ∈ t.works, w.2 = cfg.crossb

theorem Working.alike (h : Working pkgname ver cfg s) (hsame : Alike pkgname ver s s') :
    Working pkgname ver cfg s' where
  toKept := h.toKept.alike hsame
  own := by
    rw [hsame.src]
    exact h.own

/-- All stamps are for its target. -/
theorem Working.target (h : Working pkgname ver cfg s) {p : Phase} {c : Target}
    (hp : p ∈ Phase.install :: treePhases) (hstamp : s.stamps (.phase p c) = true) :
    c = cfg.crossb := by
  have htree : ∀ p ∈ treePhases, s.stamps (.phase p c) = true → c = cfg.crossb := by
    intro p hp hstamp
    obtain ⟨t, ht, hwork, _⟩ := h.tree p hp c hstamp
    exact h.own t ht _ hwork
  rcases List.mem_cons.mp hp with rfl | hp
  · exact htree .extract (by decide) (h.extracted c hstamp)
  · exact htree p hp hstamp

theorem Working.work (h : Working pkgname ver cfg s) (p : Phase) (leaves : Bool) :
    Working pkgname ver cfg (s.work ver p cfg.crossb leaves) := by
  have hsrc : (s.work ver p cfg.crossb leaves).src ver =
      some ⟨((s.src ver).getD ⟨[], false⟩).works ++ [(p, cfg.crossb)],
        ((s.src ver).getD ⟨[], false⟩).files || leaves⟩ := Function.update_self ..
  have hown : ∀ w ∈ ((s.src ver).getD ⟨[], false⟩).works ++ [(p, cfg.crossb)],
      w.2 = cfg.crossb := by
    intro w hw
    rcases List.mem_append.mp hw with hw | hw
    · cases ht : s.src ver with
      | none => simp [ht] at hw
      | some t =>
          rw [ht] at hw
          exact h.own t ht w hw
    · rw [List.mem_singleton.mp hw]
  refine ⟨⟨⟨fun q hq c hstamp => ?_, h.dest⟩, h.extracted⟩, fun t ht w hw => ?_⟩
  · obtain ⟨t, ht, hwork, _⟩ := h.tree q hq c hstamp
    have hc : c = cfg.crossb := h.target (List.mem_cons_of_mem _ hq) hstamp
    refine ⟨_, hsrc, ?_, ?_⟩
    · rw [ht]
      exact List.mem_append_left _ hwork
    · rw [hc]
      exact hown
  · rw [hsrc] at ht
    cases ht
    exact hown w hw

/-- A phase is stamped after its work. -/
theorem Working.stamp (h : Working pkgname ver cfg s) {p : Phase} (hp : p ≠ .install)
    (hwork : ∃ t, s.src ver = some t ∧ (p, cfg.crossb) ∈ t.works) :
    Working pkgname ver cfg (s.setStamp (.phase p cfg.crossb) true) := by
  have hother : ∀ q c, s.stamps (.phase q c) = true →
      (s.setStamp (.phase p cfg.crossb) true).stamps (.phase q c) = true := by
    intro q c hstamp
    by_cases heq : Stamp.phase q c = .phase p cfg.crossb
    · rw [heq, Disk.setStamp_self]
    · rwa [Disk.setStamp_of_ne _ heq]
  have hinstall : ∀ c, (s.setStamp (.phase p cfg.crossb) true).stamps (.phase .install c) =
      s.stamps (.phase .install c) := by
    intro c
    refine Disk.setStamp_of_ne _ (fun heq => ?_) _
    injection heq with hphase
    exact hp hphase.symm
  refine ⟨⟨⟨fun q hq c hstamp => ?_, fun c hstamp => ?_⟩, fun c hstamp => ?_⟩, h.own⟩
  · by_cases heq : Stamp.phase q c = .phase p cfg.crossb
    · cases heq
      obtain ⟨t, ht, hmem⟩ := hwork
      exact ⟨t, ht, hmem, h.own t ht⟩
    · rw [Disk.setStamp_of_ne _ heq] at hstamp
      exact h.tree q hq c hstamp
  · rw [hinstall] at hstamp
    exact h.dest c hstamp
  · rw [hinstall] at hstamp
    exact hother _ _ (h.extracted c hstamp)

/-- Without a stamp of the install nothing is promised of the destination directories. -/
theorem Working.uninstalled (h : Working pkgname ver cfg s)
    (hstamps : ∀ p ∈ treePhases, ∀ c, s'.stamps (.phase p c) = s.stamps (.phase p c))
    (hinstall : ∀ c, s'.stamps (.phase .install c) = true → s.stamps (.phase .install c) = true)
    (hsrc : s'.src ver = s.src ver) (hnone : s'.stamps (.phase .install cfg.crossb) = false) :
    Working pkgname ver cfg s' := by
  have hno : ∀ c, s'.stamps (.phase .install c) = true → False := by
    intro c hstamp
    rw [h.target List.mem_cons_self (hinstall c hstamp), hnone] at hstamp
    cases hstamp
  refine ⟨⟨⟨fun p hp c hstamp => ?_, fun c hstamp => (hno c hstamp).elim⟩,
    fun c hstamp => (hno c hstamp).elim⟩, ?_⟩
  · rw [hstamps p hp] at hstamp
    rw [hsrc]
    exact h.tree p hp c hstamp
  · rw [hsrc]
    exact h.own

/-! ## Before the phases -/

/-- What holds where a build is ended. -/
def Ended (pkgname : Str) (ver : Ver) (cfg : Cfg) (d : Disk) (place : Place) (s : Disk) : Prop :=
  Spared cfg d (some place) → Kept pkgname ver s

theorem Bare.setStamp (h : Bare s) {st : Stamp} : Bare (s.setStamp st false) := by
  intro p hp c
  by_cases heq : Stamp.phase p c = st
  · rw [heq, Disk.setStamp_self]
  · rw [Disk.setStamp_of_ne _ heq]
    exact h p hp c

/-- The source directory is gone, and there are no stamps if there were none. -/
structure Wiped (ver : Ver) (d s : Disk) : Prop where
  src : s.src ver = none
  bare : Bare d → Bare s

theorem removePkg_wiped : Keeps (Wiped ver d) (removePkg pkgname ver cfg .wiping .wiping)
    (fun place s => place = .wiping ∧ Wiped ver d s) := by
  have hclear : ∀ st, Keeps (Wiped ver d) (Proc.step Place.wiping fun d => d.setStamp st false)
      (fun place s => place = .wiping ∧ Wiped ver d s) := fun st =>
    Keeps.step (fun _ h => ⟨rfl, h⟩) (fun _ h => ⟨h.src, fun hb => (h.bare hb).setStamp⟩)
  apply Keeps.look
  intro s hs
  apply ends_when
  · intro _
    apply Keeps.ends _ hs
    apply Keeps.bind (Keeps.forM _ fun p _ => hclear (.prepkg p cfg.crossb))
    intro _
    apply Keeps.bind (Keeps.step (fun _ h => ⟨rfl, h⟩) (fun _ h => ⟨h.src, h.bare⟩))
    intro _
    apply Keeps.bind (Keeps.step (fun _ h => ⟨rfl, h⟩) (fun _ h => ⟨h.src, h.bare⟩))
    exact fun _ => hclear _
  · exact fun _ => hs

theorem wipe_kept (h : Kept pkgname ver d) : Ends (wipe pkgname ver cfg) d
    (fun _ s => if cfg.dirty = true ∨ cfg.bootstrap = true then s = d
      else Bare s ∧ s.src ver = none)
    (fun place s => place ≠ .setup ∧ Ended pkgname ver cfg d place s) := by
  unfold wipe
  apply ends_when
  · intro hwipe
    have hnot : ¬ (cfg.dirty = true ∨ cfg.bootstrap = true) := by
      simpa using hwipe
    simp only [if_neg hnot]
    apply Ends.bind
    have hsrc : Ends (removePkgWrksrc ver .start .wiping) d
        (fun _ s => Wiped ver d s)
        (fun place s => place ≠ .setup ∧ Ended pkgname ver cfg d place s) := by
      apply ends_look_bind
      apply ends_when
      · intro _
        apply ends_step_bind ⟨nofun, fun _ => h⟩
        apply ends_step ⟨nofun, fun hbare => Bare.kept hbare⟩
        exact ⟨Function.update_self .., fun hbare => hbare⟩
      · intro hnone
        exact ⟨by simpa using hnone, fun hbare => hbare⟩
    apply hsrc.mono _ (fun _ _ h => h)
    intro _ s₁ h₁
    have hwiping : ∀ place s, place = Place.wiping ∧ Wiped ver d s →
        place ≠ .setup ∧ Ended pkgname ver cfg d place s := by
      rintro _ s ⟨rfl, hs⟩
      exact ⟨nofun, fun hd => (hs.bare hd).kept⟩
    apply Ends.bind
    apply (removePkg_wiped.ends h₁).mono _ hwiping
    intro _ s₂ h₂
    have hended := hwiping .wiping s₂ ⟨rfl, h₂⟩
    refine ends_step hended ?_
    exact ⟨fun _ _ _ => rfl, h₂.src⟩
  · intro hwipe
    have hor : cfg.dirty = true ∨ cfg.bootstrap = true := by
      cases hd : cfg.dirty with
      | true => exact Or.inl rfl
      | false =>
          right
          rw [hd] at hwipe
          simpa using hwipe
    rw [if_pos hor]

/-! ## The phases -/

/-- The stamp of an install is one that the build has found. -/
def Left (cfg : Cfg) (d s : Disk) : Prop :=
  s.stamps (.phase .install cfg.crossb) = true →
    (cfg.dirty = true ∨ cfg.bootstrap = true) ∧ d.stamps (.phase .install cfg.crossb) = true

theorem mem_works_work (s : Disk) (p : Phase) (c : Target) (leaves : Bool) :
    ∃ t, (s.work ver p c leaves).src ver = some t ∧ (p, c) ∈ t.works :=
  ⟨_, Function.update_self .., List.mem_append_right _ List.mem_cons_self⟩

theorem stamps_pass (s : Disk) {p : Phase} (hp : p ≠ .install) (c c' : Target) (leaves : Bool) :
    ((s.work ver p c leaves).setStamp (.phase p c) true).stamps (.phase .install c') =
      s.stamps (.phase .install c') := by
  refine Disk.setStamp_of_ne _ (fun heq => ?_) _
  injection heq with hphase
  exact hp hphase.symm

/-- A build that has passed the extraction. -/
structure Extracted (pkgname : Str) (ver : Ver) (cfg : Cfg) (d s : Disk) : Prop
    extends Working pkgname ver cfg s where
  stamped : s.stamps (.phase .extract cfg.crossb) = true
  left : Left cfg d s

theorem Extracted.pass (h : Extracted pkgname ver cfg d s) {p : Phase} (hp : p ≠ .install)
    (leaves : Bool) : Extracted pkgname ver cfg d
      ((s.work ver p cfg.crossb leaves).setStamp (.phase p cfg.crossb) true) where
  toWorking := (h.toWorking.work p leaves).stamp hp (mem_works_work s p cfg.crossb leaves)
  stamped := by
    by_cases heq : Stamp.phase .extract cfg.crossb = .phase p cfg.crossb
    · rw [heq, Disk.setStamp_self]
    · rw [Disk.setStamp_of_ne _ heq]
      exact h.stamped
  left := by
    unfold Left
    rw [stamps_pass s hp]
    exact h.left

theorem sentinel_extracted (p : Phase) :
    Keeps (Extracted pkgname ver cfg d) (sentinel cfg p) (Ended pkgname ver cfg d) :=
  Keeps.when fun _ => Keeps.throw fun _ h _ => h.toKept

theorem invokePhase_extracted {p : Phase} (hp : p ≠ .install) :
    Keeps (Extracted pkgname ver cfg d) (invokePhase ver cfg p) (Ended pkgname ver cfg d) := by
  apply Keeps.look
  intro s h
  apply ends_when
  · intro _
    apply ends_step_bind (fun _ => h.toKept)
    exact ends_step (fun _ => (h.toWorking.work p (cfg.leaves p)).toKept) (h.pass hp _)
  · exact fun _ => h

/-- The extraction refuses, or goes on in a source directory that has nothing for another
target. -/
theorem invokeExtract_extracted (h : Kept pkgname ver s) (hleft : Left cfg d s)
    (hown : ∀ t, s.src ver = some t → (∀ w ∈ t.works, w.2 = cfg.crossb) ∨ Refuses cfg s t) :
    Ends (invokeExtract ver cfg) s (fun _ s => Extracted pkgname ver cfg d s)
      (Ended pkgname ver cfg d) := by
  apply ends_look_bind
  apply ends_when
  · intro hstamp
    apply Ends.bind
    apply ends_when
    · exact fun _ => ends_throw (fun _ => h)
    · intro hgoes
      have hworking : Working pkgname ver cfg s := by
        refine ⟨h, fun t ht => (hown t ht).resolve_right (fun hrefuses => ?_)⟩
        obtain ⟨_, hextract, hfiles⟩ := hrefuses
        rw [ht, hextract, Option.any_some, hfiles] at hgoes
        cases hgoes
      have hwork := hworking.work .extract (cfg.leaves .extract)
      apply ends_step_bind (fun _ => h)
      refine ends_step (fun _ => hwork.toKept) ?_
      refine ⟨hwork.stamp (by decide) (mem_works_work ..), Disk.setStamp_self .., ?_⟩
      unfold Left
      rw [stamps_pass s (by decide)]
      exact hleft
  · intro hstamp
    have hstamp : s.stamps (.phase .extract cfg.crossb) = true := by simpa using hstamp
    refine ⟨⟨h, fun t ht => (hown t ht).resolve_right (fun hrefuses => ?_)⟩, hstamp, hleft⟩
    rw [hrefuses.1] at hstamp
    cases hstamp

/-! ## Up to the checks -/

/-- A build that has not come to the extraction yet. -/
structure Begun (pkgname : Str) (ver : Ver) (cfg : Cfg) (d s : Disk) : Prop where
  kept : Kept pkgname ver s
  left : Left cfg d s
  own : cfg.step ≠ .fetch → cfg.step ≠ .deps → ∀ t, s.src ver = some t →
    (∀ w ∈ t.works, w.2 = cfg.crossb) ∨ Refuses cfg s t

/-- A source directory is made if there is none. -/
def mkSrc (ver : Ver) (d : Disk) : Disk :=
  if (d.src ver).isSome then d else d.setSrc ver (some ⟨[], false⟩)

theorem mkSrc_stamps (s : Disk) : (mkSrc ver s).stamps = s.stamps := by
  unfold mkSrc
  split <;> rfl

theorem mkSrc_src {t : Tree} (h : (mkSrc ver s).src ver = some t) :
    s.src ver = some t ∨ t.works = [] := by
  unfold mkSrc at h
  split at h
  · exact Or.inl h
  · right
    have hsrc : (s.setSrc ver (some ⟨[], false⟩)).src ver = some ⟨[], false⟩ :=
      Function.update_self ..
    rw [hsrc] at h
    cases h
    rfl

theorem Kept.mkSrc (h : Kept pkgname ver s) : Kept pkgname ver (mkSrc ver s) := by
  unfold Resume.mkSrc
  split
  · exact h
  · rename_i hnone
    refine ⟨⟨fun p hp c hstamp => ?_, h.dest⟩, h.extracted⟩
    obtain ⟨t, ht, _⟩ := h.tree p hp c hstamp
    rw [ht] at hnone
    exact absurd rfl hnone

/-- The disk after the wiping, if any. -/
def WipedOrSame (ver : Ver) (cfg : Cfg) (d s : Disk) : Prop :=
  if cfg.dirty = true ∨ cfg.bootstrap = true then s = d else Bare s ∧ s.src ver = none

theorem WipedOrSame.kept (hs : WipedOrSame ver cfg d s) (h : Kept pkgname ver d) :
    Kept pkgname ver s := by
  unfold WipedOrSame at hs
  split at hs
  · rwa [hs]
  · exact hs.1.kept

theorem WipedOrSame.begun (hs : WipedOrSame ver cfg d s) (h : Kept pkgname ver d)
    (hone : OneTarget ver cfg d) : Begun pkgname ver cfg d (mkSrc ver s) := by
  refine ⟨(hs.kept h).mkSrc, ?_, fun hfetch hdeps t ht => ?_⟩
  · intro hstamp
    rw [mkSrc_stamps] at hstamp
    unfold WipedOrSame at hs
    split at hs
    · rename_i hor
      rw [hs] at hstamp
      exact ⟨hor, hstamp⟩
    · rw [hs.1 _ List.mem_cons_self] at hstamp
      cases hstamp
  · have hrefuses : s = d → Refuses cfg d t → Refuses cfg (mkSrc ver s) t := by
      rintro rfl hrefuses
      unfold Refuses
      rw [mkSrc_stamps]
      exact hrefuses
    rcases mkSrc_src ht with hsrc | hworks
    · unfold WipedOrSame at hs
      split at hs
      · rename_i hor
        have hsrc' : d.src ver = some t := by rw [← hs, hsrc]
        exact (hone ⟨hor, hfetch, hdeps⟩ t hsrc').imp_right (hrefuses hs)
      · rw [hs.2] at hsrc
        cases hsrc
    · left
      simp [hworks]

/-- Emptying the build root removes nothing that a stamp stands for. -/
theorem cleanup_begun (h : Begun pkgname ver cfg d s)
    (hnone : cfg.bootstrap = true → cfg.inRoot = true →
      ∀ c, s.stamps (.phase .install c) = false) :
    Ends (cleanupWorld cfg .setup) s (fun _ s => Begun pkgname ver cfg d s)
      (Ended pkgname ver cfg d) := by
  apply ends_when
  · intro hroot
    obtain ⟨hboot, hroot⟩ := Bool.and_eq_true_iff.mp hroot
    refine ends_step (fun _ => h.kept) ?_
    refine ⟨⟨⟨h.kept.tree, fun c hstamp => ?_⟩, h.kept.extracted⟩, h.left, h.own⟩
    have hstamp : s.stamps (.phase .install c) = true := hstamp
    rw [hnone hboot hroot c] at hstamp
    cases hstamp
  · exact fun _ => h

theorem sentinel_begun (p : Phase) (h : Begun pkgname ver cfg d s) :
    Ends (sentinel cfg p) s (fun _ s => Begun pkgname ver cfg d s ∧ cfg.step ≠ p)
      (Ended pkgname ver cfg d) := by
  apply ends_when
  · exact fun _ => ends_throw (fun _ => h.kept)
  · exact fun hstep => ⟨h, by simpa using hstep⟩

/-- What is kept by the phases and where the build may stop is kept after the extraction. -/
theorem keeps_phases {I : Disk → Prop} {E : Place → Disk → Prop}
    (hphase : ∀ {p : Phase}, p ≠ .install → Keeps I (invokePhase ver cfg p) E)
    (hsentinel : ∀ p, Keeps I (sentinel cfg p) E) : Keeps I (do
      sentinel cfg .extract
      Proc.when (!cfg.prepareAfterPatch) do
        invokePhase ver cfg .prepare
        sentinel cfg .prepare
      invokePhase ver cfg .patch
      sentinel cfg .patch
      Proc.when cfg.prepareAfterPatch do
        invokePhase ver cfg .prepare
        sentinel cfg .prepare
      invokePhase ver cfg .configure
      sentinel cfg .configure
      invokePhase ver cfg .build
      sentinel cfg .build
      invokeCheck ver cfg
      sentinel cfg .check) E := by
  have hprepare : Keeps I (do invokePhase ver cfg .prepare; sentinel cfg .prepare) E :=
    Keeps.bind (hphase (by decide)) fun _ => hsentinel .prepare
  apply Keeps.bind (hsentinel .extract)
  intro _
  apply Keeps.bind (Keeps.when fun _ => hprepare)
  intro _
  apply Keeps.bind (hphase (by decide))
  intro _
  apply Keeps.bind (hsentinel .patch)
  intro _
  apply Keeps.bind (Keeps.when fun _ => hprepare)
  intro _
  apply Keeps.bind (hphase (by decide))
  intro _
  apply Keeps.bind (hsentinel .configure)
  intro _
  apply Keeps.bind (hphase (by decide))
  intro _
  apply Keeps.bind (hsentinel .build)
  intro _
  apply Keeps.bind (Keeps.when fun _ => hphase (by decide))
  exact fun _ => hsentinel .check

theorem buildUpToCheck_extracted (hs : WipedOrSame ver cfg d s) (h : Kept pkgname ver d)
    (hempties : EmptiesNone cfg d) (hone : OneTarget ver cfg d) :
    Ends (buildUpToCheck ver cfg) s (fun _ s => Extracted pkgname ver cfg d s)
      (Ended pkgname ver cfg d) := by
  have hbegun : Begun pkgname ver cfg d (mkSrc ver s) := hs.begun h hone
  unfold buildUpToCheck
  apply ends_step_bind (fun _ => hs.kept h)
  apply Ends.bind
  have hfetch : Ends (Proc.when (!cfg.ownFetch) (sentinel cfg .fetch)) (mkSrc ver s)
      (fun _ s' => s' = mkSrc ver s ∧ (cfg.step = .fetch → cfg.ownFetch = true))
      (Ended pkgname ver cfg d) := by
    apply ends_when
    · intro _
      apply ends_when
      · exact fun _ => ends_throw (fun _ => hbegun.kept)
      · exact fun hstep => ⟨rfl, fun heq => by simp [heq] at hstep⟩
    · exact fun hown => ⟨rfl, fun _ => by simpa using hown⟩
  apply hfetch.mono _ (fun _ _ h => h)
  rintro _ _ ⟨rfl, hown⟩
  apply Ends.bind
  have hworld : Ends (Proc.when (!cfg.dirty || cfg.step = .deps) (cleanupWorld cfg .setup))
      (mkSrc ver s) (fun _ s => Begun pkgname ver cfg d s) (Ended pkgname ver cfg d) := by
    apply ends_when
    · intro hclean
      apply cleanup_begun hbegun
      intro hboot hroot c
      have hsame : s = d := by
        unfold WipedOrSame at hs
        rwa [if_pos (Or.inr hboot)] at hs
      rw [mkSrc_stamps, hsame]
      exact hempties hboot hroot (by simpa using hclean) hown c
    · exact fun _ => hbegun
  apply hworld.mono _ (fun _ _ h => h)
  intro _ s₂ h₂
  apply Ends.bind
  apply (sentinel_begun .deps h₂).mono _ (fun _ _ h => h)
  rintro _ s₃ ⟨h₃, hdeps⟩
  apply Ends.bind
  have hfetched : Ends (Proc.when cfg.ownFetch (sentinel cfg .fetch)) s₃
      (fun _ s => Begun pkgname ver cfg d s ∧ cfg.step ≠ .fetch) (Ended pkgname ver cfg d) := by
    apply ends_when
    · exact fun _ => sentinel_begun .fetch h₃
    · intro hnot
      refine ⟨h₃, fun heq => ?_⟩
      rw [hown heq] at hnot
      cases hnot
  apply hfetched.mono _ (fun _ _ h => h)
  rintro _ s₄ ⟨h₄, hfetch⟩
  apply Ends.bind
  apply (invokeExtract_extracted h₄.kept h₄.left (h₄.own hfetch hdeps)).mono _ (fun _ _ h => h)
  intro _ s₅ h₅
  exact (keeps_phases invokePhase_extracted sentinel_extracted).ends h₅

/-! ## The install -/

theorem Extracted.alike (h : Extracted pkgname ver cfg d s) (hsame : Alike pkgname ver s s') :
    Extracted pkgname ver cfg d s' where
  toWorking := h.toWorking.alike hsame
  stamped := by
    rw [hsame.stamps _ (by decide)]
    exact h.stamped
  left := by
    unfold Left
    rw [hsame.stamps _ List.mem_cons_self]
    exact h.left

/-- What is done to the stamps of packages. -/
theorem setPrepkg_keeps {I : Disk → Prop} (hkept : ∀ s, I s → Kept pkgname ver s)
    (halike : ∀ {s s'}, I s → Alike pkgname ver s s' → I s') (place : Place) (p : Str)
    (done : Bool) : Keeps I (Proc.step place fun d => d.setStamp (.prepkg p cfg.crossb) done)
      (Ended pkgname ver cfg d) :=
  Keeps.step (fun s h _ => hkept s h)
    (fun s h => halike h ⟨fun q _ c => s.setStamp_phase q cfg.crossb c p done, rfl, fun _ => rfl⟩)

/-- The destination directory is removed before the stamp of the install. -/
theorem removePkg_extracted (h : Extracted pkgname ver cfg d s) (hboot : cfg.bootstrap = false) :
    Ends (removePkg pkgname ver cfg .cleaning .cleaned) s
      (fun _ s => Extracted pkgname ver cfg d s ∧
        s.stamps (.phase .install cfg.crossb) = false) (Ended pkgname ver cfg d) := by
  apply ends_look_bind
  apply ends_when
  · intro _
    apply Ends.bind
    have hunlink : Keeps (Extracted pkgname ver cfg d) ((pkgname :: cfg.subpkgList).forM fun p =>
        Proc.step .cleaning fun d => d.setStamp (.prepkg p cfg.crossb) false)
        (Ended pkgname ver cfg d) :=
      Keeps.forM _ fun p _ =>
        setPrepkg_keeps (fun _ h => h.toKept) Extracted.alike .cleaning p false
    apply (hunlink s h).mono _ (fun _ _ h => h)
    intro _ s₁ h₁
    have hcleaned : ∀ s₂ : Disk, s₂.stamps = s₁.stamps → s₂.src = s₁.src →
        Ended pkgname ver cfg d .cleaned s₂ := by
      intro s₂ hstamps hsrc hspared
      have hnone : s₂.stamps (.phase .install cfg.crossb) = false := by
        rw [hstamps, Bool.eq_false_iff]
        intro hstamp
        obtain ⟨hor, hfound⟩ := h₁.left hstamp
        rw [hboot] at hor
        exact hspared ⟨by simpa using hor, hfound⟩
      exact (h₁.toWorking.uninstalled (fun _ _ _ => by rw [hstamps])
        (fun c hstamp => by rwa [hstamps] at hstamp) (by rw [hsrc]) hnone).toKept
    apply ends_step_bind (fun _ => h₁.toKept)
    apply ends_step_bind (hcleaned (s₁.breakBase ver cfg.crossb) rfl rfl)
    refine ends_step (hcleaned ((s₁.breakBase ver cfg.crossb).removeBase ver cfg.crossb) rfl rfl) ?_
    have hinstall : ∀ p c, p ≠ .install →
        (((s₁.breakBase ver cfg.crossb).removeBase ver cfg.crossb).setStamp
          (.phase .install cfg.crossb) false).stamps (.phase p c) = s₁.stamps (.phase p c) := by
      intro p c hp
      refine Disk.setStamp_of_ne _ (fun heq => ?_) _
      injection heq with hphase
      exact hp hphase
    refine ⟨⟨h₁.toWorking.uninstalled ?_ ?_ rfl (Disk.setStamp_self ..), ?_, ?_⟩,
      Disk.setStamp_self ..⟩
    · intro p hp c
      exact hinstall p c (by rintro rfl; revert hp; decide)
    · intro c hstamp
      by_cases hc : c = cfg.crossb
      · rw [hc, Disk.setStamp_self] at hstamp
        cases hstamp
      · rwa [Disk.setStamp_of_ne _ (by simp [hc])] at hstamp
    · rw [hinstall _ _ (by decide)]
      exact h₁.stamped
    · intro hstamp
      rw [Disk.setStamp_self] at hstamp
      cases hstamp
  · intro hgone
    refine ⟨h, ?_⟩
    rw [Bool.eq_false_iff]
    intro hstamp
    rw [h.dest _ hstamp] at hgone
    cases hgone

/-- The directory of another package is made. -/
theorem fill_alike {p : Str} (hp : p ≠ pkgname) (s : Disk) (x : Bool) (fs : List Str) :
    Alike pkgname ver s (s.fill ver cfg.crossb p x fs) := by
  refine ⟨fun _ _ _ => rfl, rfl, fun c => if_neg ?_⟩
  exact fun hsame => hp hsame.2.2.symm

/-- An install that is not repeated leaves the directory of the template as it is. -/
theorem keepInstall_extracted :
    Keeps (fun s => Extracted pkgname ver cfg d s ∧ s.stamps (.phase .install cfg.crossb) = true)
      (keepInstall pkgname ver cfg) (Ended pkgname ver cfg d) := by
  apply Keeps.forM
  intro p _
  apply Keeps.forM
  intro parents _
  apply Keeps.look
  intro s h
  apply ends_when
  · intro hnone
    have hp : p ≠ pkgname := by
      rintro rfl
      rw [h.1.dest _ h.2] at hnone
      cases hnone
    apply ends_ite
    · intro _
      refine ends_step (fun _ => h.1.toKept) ?_
      exact ⟨h.1.alike (fill_alike hp s _ _), h.2⟩
    · exact fun _ => ends_throw (fun _ => h.1.toKept)
  · exact fun _ => h

/-- An install is at work in the destination directories. -/
structure Installing (ver : Ver) (s s' : Disk) : Prop where
  stamps : s'.stamps = s.stamps
  src : s'.src ver = s.src ver

/-- It has filled that of the template. -/
structure Filled (pkgname : Str) (ver : Ver) (cfg : Cfg) (s s' : Disk) : Prop
    extends Installing ver s s' where
  dest : s'.dest ver cfg.crossb pkgname = some true

theorem Installing.setDest (h : Installing ver s s') (p : Str) (x : Option Bool) :
    Installing ver s (s'.setDest ver cfg.crossb p x) := ⟨h.stamps, h.src⟩

theorem Installing.fill (h : Installing ver s s') (p : Str) (x : Bool) (fs : List Str) :
    Installing ver s (s'.fill ver cfg.crossb p x fs) := ⟨h.stamps, h.src⟩

theorem Filled.fill (h : Filled pkgname ver cfg s s') (p : Str) (fs : List Str) :
    Filled pkgname ver cfg s (s'.fill ver cfg.crossb p true fs) := by
  refine ⟨h.toInstalling.fill p true fs, ?_⟩
  rw [Disk.fill_dest, h.dest, ite_self]

theorem Filled.hold (h : Filled pkgname ver cfg s s') (p : Str) (fs : List Str) :
    Filled pkgname ver cfg s (s'.hold ver cfg.crossb p fs) := ⟨⟨h.stamps, h.src⟩, h.dest⟩

/-- An install that is run has no stamp, unless it is the one to be repeated. -/
theorem Installing.ended (h : Extracted pkgname ver cfg d s) (hs : Installing ver s s')
    (hrepeat : s.stamps (.phase .install cfg.crossb) = true → ¬ Spared cfg d (some .install)) :
    Ended pkgname ver cfg d .install s' := by
  intro hspared
  have hnone : s'.stamps (.phase .install cfg.crossb) = false := by
    rw [hs.stamps, Bool.eq_false_iff]
    exact fun hstamp => hrepeat hstamp hspared
  exact (h.toWorking.uninstalled (fun _ _ _ => by rw [hs.stamps])
    (fun c hstamp => by rwa [hs.stamps] at hstamp) hs.src hnone).toKept

/-- The install is stamped when the directory has been filled. -/
theorem Filled.stamp (h : Extracted pkgname ver cfg d s) (hs : Filled pkgname ver cfg s s') :
    Working pkgname ver cfg (s'.setStamp (.phase .install cfg.crossb) true) := by
  have hphase : ∀ p c, p ≠ .install →
      (s'.setStamp (.phase .install cfg.crossb) true).stamps (.phase p c) =
        s.stamps (.phase p c) := by
    intro p c hp
    rw [Disk.setStamp_of_ne _ (by simp [hp]), hs.stamps]
  have htarget : ∀ c, (s'.setStamp (.phase .install cfg.crossb) true).stamps
      (.phase .install c) = true → c = cfg.crossb := by
    intro c hstamp
    by_contra hc
    rw [Disk.setStamp_of_ne _ (by simp [hc]), hs.stamps] at hstamp
    exact hc (h.toWorking.target List.mem_cons_self hstamp)
  refine ⟨⟨⟨fun p hp c hstamp => ?_, fun c hstamp => ?_⟩, fun c hstamp => ?_⟩, ?_⟩
  · rw [hphase p c (by rintro rfl; revert hp; decide)] at hstamp
    show ∃ t, s'.src ver = some t ∧ _
    rw [hs.src]
    exact h.tree p hp c hstamp
  · rw [htarget c hstamp]
    exact hs.dest
  · rw [hphase _ _ (by decide), htarget c hstamp]
    exact h.stamped
  · show ∀ t, s'.src ver = some t → _
    rw [hs.src]
    exact h.own

theorem runInstall_working (h : Extracted pkgname ver cfg d s)
    (hrepeat : s.stamps (.phase .install cfg.crossb) = true → ¬ Spared cfg d (some .install)) :
    Ends (runInstall pkgname ver cfg) s (fun _ s => Working pkgname ver cfg s)
      (Ended pkgname ver cfg d) := by
  have hended : ∀ s', Installing ver s s' → Ended pkgname ver cfg d .install s' :=
    fun s' hs => hs.ended h hrepeat
  have hfill : ∀ p (fs : Disk → List Str), Keeps (Filled pkgname ver cfg s)
      (Proc.step .install fun d => d.fill ver cfg.crossb p true (fs d))
      (Ended pkgname ver cfg d) := fun p fs =>
    Keeps.step (fun _ hs => hended _ hs.toInstalling) (fun s' hs => hs.fill p (fs s'))
  have h₁ : Installing ver s (s.setDest ver cfg.crossb pkgname none) := ⟨rfl, rfl⟩
  have h₂ : Installing ver s ((s.setDest ver cfg.crossb pkgname none).fill ver cfg.crossb pkgname
      false []) := h₁.fill pkgname false []
  unfold runInstall
  apply ends_step_bind (hended s ⟨rfl, rfl⟩)
  apply ends_step_bind (hended _ h₁)
  apply ends_step_bind (hended _ h₂)
  have hfilled : Filled pkgname ver cfg s _ :=
    ⟨h₂.fill pkgname true (cfg.files pkgname), if_pos ⟨rfl, rfl, rfl⟩⟩
  apply Ends.bind
  apply (Keeps.ends (Keeps.forM _ fun p _ => hfill p fun _ => cfg.files p) hfilled).mono _ (fun _ _ h => h)
  intro _ s₄ h₄
  apply Ends.bind
  have hmove : ∀ a f, Keeps (Filled pkgname ver cfg s) (moveFile ver cfg a f)
      (Ended pkgname ver cfg d) := by
    intro a f
    apply Keeps.look
    intro s' hs'
    apply Keeps.ends _ hs'
    apply Keeps.bind (Keeps.when fun _ => Keeps.throw fun _ hs => hended _ hs.toInstalling)
    exact fun _ => Keeps.step (fun _ hs => hended _ hs.toInstalling) (fun _ hs => hs.hold a _)
  have hauto : Keeps (Filled pkgname ver cfg s)
      (((cfg.subpkgList ++ [pkgname]).flatMap cfg.autopkgs).forM (takeAuto ver cfg))
      (Ended pkgname ver cfg d) :=
    Keeps.forM _ fun a _ => Keeps.when fun _ =>
      Keeps.bind (hfill a _) fun _ => Keeps.forM _ fun f _ => hmove a f
  apply (hauto.ends h₄).mono _ (fun _ _ h => h)
  intro _ s₅ h₅
  exact ends_step (hended _ h₅.toInstalling) (h₅.stamp h)

theorem invokeInstall_working (h : Extracted pkgname ver cfg d s)
    (hboot : cfg.bootstrap = false → s.stamps (.phase .install cfg.crossb) = false) :
    Ends (invokeInstall pkgname ver cfg) s (fun _ s => Working pkgname ver cfg s)
      (Ended pkgname ver cfg d) := by
  unfold invokeInstall
  apply ends_look_bind
  apply Ends.bind
  have hinstall : Ends (if s.stamps (.phase .install cfg.crossb) &&
      !(cfg.force && cfg.step = .install) then keepInstall pkgname ver cfg
      else runInstall pkgname ver cfg) s (fun _ s => Working pkgname ver cfg s)
      (Ended pkgname ver cfg d) := by
    apply ends_ite
    · intro hkeep
      apply (keepInstall_extracted.ends ⟨h, (Bool.and_eq_true_iff.mp hkeep).1⟩).mono
      · exact fun _ _ hs => hs.1.toWorking
      · exact fun _ _ h => h
    · intro hrun
      apply runInstall_working h
      intro hstamp hspared
      have hforce : cfg.force = true ∧ cfg.step = .install := by
        rw [hstamp] at hrun
        simpa using hrun
      have hstage : cfg.bootstrap = true := by
        by_contra hnot
        rw [hboot (Bool.eq_false_iff.mpr hnot)] at hstamp
        cases hstamp
      exact hspared ⟨hstage, hforce.1, hforce.2, (h.left hstamp).2⟩
  apply hinstall.mono _ (fun _ _ h => h)
  intro _ s' hs'
  apply ends_look_bind
  exact ends_pure hs'

/-! ## After the install -/

theorem invokePrepkg_working (ps : List Str) :
    Keeps (Working pkgname ver cfg) (invokePrepkg cfg ps) (Ended pkgname ver cfg d) := by
  induction ps with
  | nil => exact Keeps.pure _
  | cons p ps ih =>
      apply Keeps.look
      intro s hs
      apply Keeps.ends _ hs
      apply Keeps.ite
      · exact fun _ => ih
      · intro _
        apply Keeps.bind (Keeps.step (fun _ h _ => h.toKept) (fun _ h => h))
        intro _
        apply Keeps.bind (setPrepkg_keeps (fun _ h => h.toKept) Working.alike .prepkg p true)
        intro _
        apply Keeps.bind ih
        exact fun _ => Keeps.pure _

theorem generate_working (generated hooked : List Str) :
    Keeps (Working pkgname ver cfg) (generate ver cfg generated hooked)
      (Ended pkgname ver cfg d) := by
  apply Keeps.look
  intro s hs
  apply Keeps.ends _ hs
  apply Keeps.ite
  · exact fun _ => Keeps.bind (Keeps.step (fun _ h _ => h.toKept) (fun _ h => h))
      fun _ => Keeps.pure _
  · exact fun _ => Keeps.throw fun _ h _ => h.toKept

/-- What has cleaned up has left no stamp. -/
theorem cleanup_bare (E : Place → Disk → Prop) (hleaving : ∀ s, E .leaving s)
    (hcleanup : E .cleanup s) : Ends (cleanup pkgname ver cfg) s
      (fun _ s' => if cfg.keepTemp = true then s' = s else Bare s') E := by
  have hstep : ∀ f, Keeps (fun _ => True) (Proc.step Place.leaving f) E := fun _ =>
    Keeps.step (fun _ _ => hleaving _) (fun _ _ => trivial)
  have hwrksrc : Keeps (fun _ => True) (removePkgWrksrc ver .leaving .leaving) E := by
    apply Keeps.look
    intro s _
    apply Keeps.ends _ trivial
    exact Keeps.when fun _ => Keeps.bind (hstep _) fun _ => hstep _
  have hpkg : Keeps (fun _ => True) (removePkg pkgname ver cfg .leaving .leaving) E := by
    apply Keeps.look
    intro s _
    apply Keeps.ends _ trivial
    apply Keeps.when
    intro _
    apply Keeps.bind (Keeps.forM _ fun p _ => hstep _)
    intro _
    exact Keeps.bind (hstep _) fun _ => Keeps.bind (hstep _) fun _ => hstep _
  unfold cleanup
  apply ends_when
  · intro hkeep
    have hnot : ¬ cfg.keepTemp = true := by simpa using hkeep
    simp only [if_neg hnot]
    apply Ends.bind
    have hworld : Ends (cleanupWorld cfg .cleanup) s (fun _ _ => True) E := by
      apply ends_when
      · exact fun _ => ends_step hcleanup trivial
      · exact fun _ => trivial
    apply hworld.mono _ (fun _ _ h => h)
    intro _ s₁ _
    apply Ends.bind
    apply (hwrksrc s₁ trivial).mono _ (fun _ _ h => h)
    intro _ s₂ _
    apply Ends.bind
    apply (hpkg s₂ trivial).mono _ (fun _ _ h => h)
    intro _ s₃ _
    exact ends_step (hleaving s₃) (fun _ _ _ => rfl)
  · intro hkeep
    rw [if_pos (by simpa using hkeep)]

/-- A build that removes nothing a stamp stands for. -/
theorem build_kept (h : Kept pkgname ver d) (hempties : EmptiesNone cfg d)
    (hone : OneTarget ver cfg d) : Ends (build pkgname ver cfg) d
      (fun _ s => Kept pkgname ver s) (Ended pkgname ver cfg d) := by
  unfold build
  apply Ends.bind
  apply (wipe_kept h).mono _ (fun _ _ h => h.2)
  intro _ s₁ h₁
  apply Ends.bind
  apply (buildUpToCheck_extracted h₁ h hempties hone).mono _ (fun _ _ h => h)
  intro _ s₂ h₂
  apply Ends.bind
  have hremove : Ends (Proc.when (!cfg.bootstrap) (removePkg pkgname ver cfg .cleaning .cleaned))
      s₂ (fun _ s => Extracted pkgname ver cfg d s ∧
        (cfg.bootstrap = false → s.stamps (.phase .install cfg.crossb) = false))
      (Ended pkgname ver cfg d) := by
    apply ends_when
    · intro hboot
      have hremoved := removePkg_extracted h₂ (by simpa using hboot)
      exact hremoved.mono (fun _ _ hs => ⟨hs.1, fun _ => hs.2⟩) (fun _ _ h => h)
    · intro hboot
      refine ⟨h₂, fun hnot => ?_⟩
      rw [hnot] at hboot
      cases hboot
  apply hremove.mono _ (fun _ _ h => h)
  intro _ s₃ h₃
  apply Ends.bind
  apply (invokeInstall_working h₃.1 h₃.2).mono _ (fun _ _ h => h)
  intro generated s₄ h₄
  apply Ends.bind
  have hsentinel : Keeps (Working pkgname ver cfg) (sentinel cfg .install)
      (Ended pkgname ver cfg d) := Keeps.when fun _ => Keeps.throw fun _ h _ => h.toKept
  apply (hsentinel.ends h₄).mono _ (fun _ _ h => h)
  intro _ s₅ h₅
  apply Ends.bind
  apply ((invokePrepkg_working generated).ends h₅).mono _ (fun _ _ h => h)
  intro hooked s₆ h₆
  apply Ends.bind
  apply ((generate_working generated hooked).ends h₆).mono _ (fun _ _ h => h)
  intro _ s₇ h₇
  apply Ends.bind
  apply (cleanup_bare (Ended pkgname ver cfg d) (fun _ => False.elim) (fun _ => h₇.toKept)).mono _
    (fun _ _ h => h)
  intro _ s₈ h₈
  apply ends_pure
  split at h₈
  · rw [h₈]
    exact h₇.toKept
  · exact h₈.kept

/-! ## Builds that are ended early, or not at all -/

/-- The build has come further than its setup. -/
def Past (place : Place) (_ : Disk) : Prop := place ≠ .setup

/-- A part of the build that comes after the setup. -/
abbrev Later {α : Type} (x : Job α) : Prop := Keeps (fun _ => True) x Past

theorem later_step {place : Place} (h : place ≠ .setup) (f : Disk → Disk) :
    Later (Proc.step place f) := Keeps.step (fun _ _ => h) (fun _ _ => trivial)

theorem later_look {α : Type} {f : Disk → Job α} (h : ∀ s, Later (f s)) :
    Later (Proc.look >>= f) := Keeps.look fun s hs => h s s hs

theorem later_sentinel (p : Phase) : Later (sentinel cfg p) :=
  Keeps.when fun _ => Keeps.throw fun _ _ => nofun

theorem later_invokePhase (p : Phase) : Later (invokePhase ver cfg p) :=
  later_look fun _ => Keeps.when fun _ =>
    Keeps.bind (later_step (by nofun) _) fun _ => later_step (by nofun) _

theorem later_invokeExtract : Later (invokeExtract ver cfg) :=
  later_look fun _ => Keeps.when fun _ =>
    Keeps.bind (Keeps.when fun _ => Keeps.throw fun _ _ => nofun) fun _ =>
      Keeps.bind (later_step (by nofun) _) fun _ => later_step (by nofun) _

theorem later_removePkg : Later (removePkg pkgname ver cfg .cleaning .cleaned) :=
  later_look fun _ => Keeps.when fun _ =>
    Keeps.bind (Keeps.forM _ fun _ _ => later_step (by nofun) _) fun _ =>
      Keeps.bind (later_step (by nofun) _) fun _ =>
        Keeps.bind (later_step (by nofun) _) fun _ => later_step (by nofun) _

theorem later_takeAuto (a : Str) : Later (takeAuto ver cfg a) :=
  Keeps.when fun _ => Keeps.bind (later_step (by nofun) _) fun _ => Keeps.forM _ fun _ _ =>
    later_look fun _ => Keeps.bind (Keeps.when fun _ => Keeps.throw fun _ _ => nofun) fun _ =>
      later_step (by nofun) _

theorem later_invokeInstall : Later (invokeInstall pkgname ver cfg) := by
  apply later_look
  intro s
  apply Keeps.bind
  · apply Keeps.ite
    · intro _
      apply Keeps.forM
      intro p _
      apply Keeps.forM
      intro parents _
      apply later_look
      intro s
      apply Keeps.when
      intro _
      exact Keeps.ite (fun _ => later_step (by nofun) _) (fun _ => Keeps.throw fun _ _ => nofun)
    · intro _
      apply Keeps.bind (later_step (by nofun) _)
      intro _
      apply Keeps.bind (later_step (by nofun) _)
      intro _
      apply Keeps.bind (later_step (by nofun) _)
      intro _
      apply Keeps.bind (Keeps.forM _ fun _ _ => later_step (by nofun) _)
      intro _
      apply Keeps.bind (Keeps.forM _ fun a _ => later_takeAuto a)
      exact fun _ => later_step (by nofun) _
  · exact fun _ => later_look fun _ => Keeps.pure _

theorem later_invokePrepkg (ps : List Str) : Later (invokePrepkg cfg ps) := by
  induction ps with
  | nil => exact Keeps.pure _
  | cons p ps ih =>
      apply later_look
      intro s
      apply Keeps.ite
      · exact fun _ => ih
      · intro _
        apply Keeps.bind (later_step (by nofun) _)
        intro _
        apply Keeps.bind (later_step (by nofun) _)
        intro _
        exact Keeps.bind ih fun _ => Keeps.pure _

theorem later_generate (generated hooked : List Str) :
    Later (generate ver cfg generated hooked) :=
  later_look fun _ =>
    Keeps.ite (fun _ => Keeps.bind (later_step (by nofun) _) fun _ => Keeps.pure _)
      (fun _ => Keeps.throw fun _ _ => nofun)

theorem later_cleanup : Later (cleanup pkgname ver cfg) := fun _ _ =>
  (cleanup_bare Past (fun _ => nofun) nofun).mono (fun _ _ _ => trivial) (fun _ _ h => h)

/-- A build that is ended in its setup has removed nothing. -/
theorem build_setup (h : Kept pkgname ver d) : Ends (build pkgname ver cfg) d (fun _ _ => True)
    (fun place s => place = .setup → Kept pkgname ver s) := by
  have hpast : ∀ {α : Type} {x : Job α} (s : Disk), Later x →
      Ends x s (fun _ _ => True) (fun place s => place = .setup → Kept pkgname ver s) :=
    fun s hx => (hx s trivial).mono (fun _ _ h => h) (fun _ _ hne heq => (hne heq).elim)
  unfold build
  apply Ends.bind
  apply (wipe_kept h).mono _ (fun _ _ h heq => (h.1 heq).elim)
  intro _ s₁ (h₁ : WipedOrSame ver cfg d s₁)
  apply Ends.bind
  have hcheck : Ends (buildUpToCheck ver cfg) s₁ (fun _ _ => True)
      (fun place s => place = .setup → Kept pkgname ver s) := by
    unfold buildUpToCheck
    apply ends_step_bind (fun _ => h₁.kept h)
    apply Ends.bind
    have hfetch : Ends (Proc.when (!cfg.ownFetch) (sentinel cfg .fetch)) (mkSrc ver s₁)
        (fun _ s => s = mkSrc ver s₁)
        (fun place s => place = .setup → Kept pkgname ver s) := by
      apply ends_when
      · intro _
        apply ends_when
        · exact fun _ => ends_throw nofun
        · exact fun _ => rfl
      · exact fun _ => rfl
    apply hfetch.mono _ (fun _ _ h => h)
    rintro _ _ rfl
    apply Ends.bind
    have hworld : Ends (Proc.when (!cfg.dirty || cfg.step = .deps) (cleanupWorld cfg .setup))
        (mkSrc ver s₁) (fun _ _ => True)
        (fun place s => place = .setup → Kept pkgname ver s) := by
      apply ends_when
      · intro _
        apply ends_when
        · exact fun _ => ends_step (fun _ => (h₁.kept h).mkSrc) trivial
        · exact fun _ => trivial
      · exact fun _ => trivial
    apply hworld.mono _ (fun _ _ h => h)
    intro _ s₂ _
    apply hpast
    apply Keeps.bind (later_sentinel .deps)
    intro _
    apply Keeps.bind (Keeps.when fun _ => later_sentinel .fetch)
    intro _
    apply Keeps.bind later_invokeExtract
    intro _
    exact keeps_phases (fun _ => later_invokePhase _) later_sentinel
  apply hcheck.mono _ (fun _ _ h => h)
  intro _ s₂ _
  apply hpast
  apply Keeps.bind (Keeps.when fun _ => later_removePkg)
  intro _
  apply Keeps.bind later_invokeInstall
  intro generated
  apply Keeps.bind (later_sentinel .install)
  intro _
  apply Keeps.bind (later_invokePrepkg generated)
  intro hooked
  apply Keeps.bind (later_generate generated hooked)
  intro _
  apply Keeps.bind later_cleanup
  exact fun _ => Keeps.pure _

/-- A build that is completed leaves no stamp, unless it is to. -/
theorem build_bare (hkeep : cfg.keepTemp = false) (d : Disk) :
    Ends (build pkgname ver cfg) d (fun _ s => Bare s) (fun _ _ => True) := by
  have hend : ∀ (b : Built) (s : Disk), Ends
      (do cleanup pkgname ver cfg; return b) s (fun _ s => Bare s) (fun _ _ => True) := by
    intro b s
    apply Ends.bind
    apply (cleanup_bare _ (fun _ => trivial) trivial).mono _ (fun _ _ h => h)
    intro _ s' h'
    rw [hkeep] at h'
    exact ends_pure h'
  have hrest : ∀ {α : Type} (x : Job α) {f : α → Job Built},
      (∀ a s, Ends (f a) s (fun _ s => Bare s) (fun _ _ => True)) →
        ∀ s, Ends (x >>= f) s (fun _ s => Bare s) (fun _ _ => True) := by
    intro α x f hf s
    apply Ends.bind
    exact (ends_trivial x).mono (fun a s _ => hf a s) (fun _ _ h => h)
  unfold build
  apply hrest
  intro _ _
  apply hrest
  intro _ _
  apply hrest
  intro _ _
  apply hrest
  intro generated _
  apply hrest
  intro _ _
  apply hrest
  intro hooked _
  apply hrest
  exact fun written => hend ⟨generated, hooked, written⟩

/-! ## Runs -/

theorem outcome_eq_some {π α : Type} [DecidableEq π] {x : Proc π Disk α} {n : Nat}
    {place : Option π} {d' : Disk} (h : outcome x d n place = some d') {Q : α → Disk → Prop}
    {E : π → Disk → Prop} (hends : Ends x d Q E) :
    (place = none ∧ ∃ a, Q a d') ∨ ∃ e, place = some e ∧ E e d' := by
  unfold outcome at h
  cases hrun : x.run ⟨d, n⟩ with
  | ok a m =>
      simp only [hrun] at h
      split at h
      · rename_i hplace
        cases h
        exact Or.inl ⟨hplace, a, hends.of_ok hrun⟩
      · cases h
  | error e m =>
      simp only [hrun] at h
      split at h
      · rename_i hplace
        cases h
        exact Or.inr ⟨e, hplace, hends.of_error hrun⟩
      · cases h

theorem build_step (h : Kept pkgname ver d) {n : Nat} {place : Option Place}
    (hkeeps : BuildKeeps ver cfg d place)
    (hrun : outcome (build pkgname ver cfg) d n place = some s) : Kept pkgname ver s := by
  rcases hkeeps with ⟨hdone, hkeep⟩ | ⟨hspared, hgoes⟩
  · rcases outcome_eq_some hrun (build_bare hkeep d) with ⟨_, _, hbare⟩ | ⟨e, heq, _⟩
    · exact hbare.kept
    · rw [hdone] at heq
      cases heq
  · by_cases hplace : place = some .setup
    · rcases outcome_eq_some hrun (build_setup h) with ⟨heq, _⟩ | ⟨e, heq, he⟩
      · rw [hplace] at heq
        cases heq
      · rw [hplace] at heq
        exact he (Option.some.inj heq).symm
    · obtain ⟨hempties, hone⟩ := hgoes hplace
      rcases outcome_eq_some hrun (build_kept h hempties hone) with ⟨_, _, hkept⟩ | ⟨e, heq, he⟩
      · exact hkept
      · rw [heq] at hspared
        exact he hspared

/-- Cleaning adds no stamp. -/
theorem clean_bare {template initialized inRoot ended : Bool} {n : Nat}
    (hkeeps : Bare d ∨ template = false ∧ ended = false)
    (hrun : outcome (if template then cleanTemplate ver initialized inRoot
      else cleanAll initialized inRoot) d n (if ended then some () else none) = some s) :
    Bare s := by
  have hstep : ∀ f, (∀ s : Disk, Bare s → Bare (f s)) →
      Keeps Bare (Proc.step () f) (fun _ => Bare) := fun f hf => Keeps.step (fun _ h => h) hf
  have hworld : Keeps Bare (Proc.when (!initialized && inRoot) (Proc.step () Disk.removeDests))
      (fun _ => Bare) := Keeps.when fun _ => hstep _ fun _ h => h
  have hone : Keeps Bare (cleanTemplate ver initialized inRoot) (fun _ => Bare) := by
    apply Keeps.bind hworld
    intro _
    apply Keeps.look
    intro s hs
    apply Keeps.ends _ hs
    apply Keeps.bind
    · exact Keeps.when fun _ => Keeps.bind (hstep _ fun _ h => h) fun _ => hstep _ fun _ h => h
    · exact fun _ => hstep _ fun _ h => h
  have hall : Keeps Bare (cleanAll initialized inRoot) (fun _ => Bare) := by
    apply Keeps.bind hworld
    intro _
    refine Keeps.bind (hstep _ ?_) (fun _ => Keeps.bind (hstep _ ?_) (fun _ => hstep _ ?_))
    · exact fun _ h => h
    · exact fun _ _ _ _ _ => rfl
    · exact fun _ h => h
  have hdone : Ends (cleanAll initialized inRoot) d (fun _ s => Bare s) (fun _ _ => True) := by
    apply Ends.bind
    apply (ends_trivial _).mono _ (fun _ _ h => h)
    intro _ s₁ _
    apply ends_step_bind trivial
    apply ends_step_bind trivial
    exact ends_step trivial fun _ _ _ => rfl
  rcases hkeeps with hbare | ⟨rfl, rfl⟩
  · have hkeep : Keeps Bare (if template then cleanTemplate ver initialized inRoot
        else cleanAll initialized inRoot) (fun _ => Bare) :=
      Keeps.ite (fun _ => hone) (fun _ => hall)
    rcases outcome_eq_some hrun (hkeep.ends hbare) with ⟨_, _, hs⟩ | ⟨_, _, hs⟩
    · exact hs
    · exact hs
  · rcases outcome_eq_some hrun hdone with ⟨_, _, hs⟩ | ⟨_, heq, _⟩
    · exact hs
    · cases heq

theorem step_kept {a : Event} {t t' : State} (h : Kept pkgname t.ver t.disk)
    (hkeeps : Keeping t a) (hstep : step pkgname t a = some t') :
    Kept pkgname t'.ver t'.disk := by
  cases a with
  | build cfg n place =>
      obtain ⟨d', hrun, rfl⟩ := Option.map_eq_some_iff.mp hstep
      exact build_step h hkeeps hrun
  | bump ver =>
      cases hstep
      rcases hkeeps with rfl | hbare
      · exact h
      · exact Bare.kept hbare
  | clean template initialized inRoot n ended =>
      obtain ⟨d', hrun, rfl⟩ := Option.map_eq_some_iff.mp hstep
      exact (clean_bare hkeeps hrun).kept

/-- In a run in which nothing is removed that a stamp stands for, all stamps are borne out. -/
theorem keeping_sound {ver₀ : Ver} {t : State}
    (h : Reaches (step pkgname) Keeping ⟨ver₀, Disk.empty⟩ t) : Sound pkgname t.ver t.disk := by
  have hempty : Bare Disk.empty := fun _ _ _ => rfl
  have hkept : Kept pkgname t.ver t.disk :=
    Reaches.invariant (I := fun t => Kept pkgname t.ver t.disk) hempty.kept
      (fun _ _ _ => step_kept) h
  exact hkept.toSound

/-- A dirty native build that is asked to stop after the `build` phase. -/
def untilBuild : Cfg where
  crossb := none
  bootstrap := false
  dirty := true
  keepTemp := false
  force := false
  step := .build
  inRoot := true
  ownFetch := false
  ownExtract := false
  prepareAfterPatch := false
  runCheck := true
  leaves _ := true
  subpkgList := []
  autopkgs _ := []
  files _ := []
  emptyDirs _ := []

def built : Event := .build untilBuild 20 (some (.stopped .build))

theorem untilBuild_keeps : BuildKeeps "1".toList untilBuild Disk.empty (some (.stopped .build)) :=
  Or.inr ⟨trivial, fun _ => ⟨fun _ _ _ _ _ => rfl, fun _ _ ht => nomatch ht⟩⟩

theorem built_sound : ∃ t, step "foo".toList ⟨"1".toList, Disk.empty⟩ built = some t ∧
    t.disk.stamps (.phase .build none) = true ∧ Sound "foo".toList t.ver t.disk :=
  ⟨_, rfl, rfl, keeping_sound (.next built .start untilBuild_keeps rfl)⟩

/-- The template is cleaned after the build. -/
def cleanedAfter : Option State :=
  (step "foo".toList ⟨"1".toList, Disk.empty⟩ built).bind
    (step "foo".toList · (.clean true true true 10 false))

/-- Its stamps are still there, the source directory is not. -/
theorem cleaned_not_sound : ¬ ∀ (pkgname : Str) (ver₀ : Ver) (t : State),
    Reaches (step pkgname) (fun _ _ => True) ⟨ver₀, Disk.empty⟩ t →
      Sound pkgname t.ver t.disk := by
  have hcleaned : cleanedAfter.map (fun t =>
      (t.disk.stamps (.phase .extract none), (t.disk.src t.ver).isSome)) =
        some (true, false) := by rfl
  intro h
  obtain ⟨t, ht, hfacts⟩ := Option.map_eq_some_iff.mp hcleaned
  obtain ⟨t₁, ht₁, ht₂⟩ := Option.bind_eq_some_iff.mp ht
  have hsound := h "foo".toList "1".toList t (.next _ (.next _ .start trivial ht₁) trivial ht₂)
  obtain ⟨hstamp, hsrc⟩ := Prod.mk.inj hfacts
  obtain ⟨tree, htree, _⟩ := hsound.tree .extract (by decide) none hstamp
  rw [htree] at hsrc
  cases hsrc

end Cbuild.Resume
