import Cbuild.Lib.Interrupt
import Mathlib.Logic.Function.Basic

/-! # Bootstrapping from source

`bootstrap` of `runner.py` sets up four build roots in a row. The packages of a stage are built in
the root of the stage before it, those of stage 0 by the host, and a root is set up from the
packages of its own stage. A run that was ended is started again from the beginning, and passes over
the roots that have their marker.
-/

namespace Cbuild.Bootstrap

open Lib

/-- A build root: the stage its packages are from, the link `etc/localtime`, and the marker
`.cbuild_chroot_init`. -/
structure Root where
  installed : Option Nat
  localtime : Bool
  init : Bool
  deriving DecidableEq

def Root.withPackages (r : Root) (stage : Nat) : Root := { r with installed := some stage }

def Root.withLocaltime (r : Root) : Root := { r with localtime := true }

def Root.withMarker (r : Root) : Root := { r with init := true }

/-- What is built in each stage: `base-cbuild`, and before it all it depends on. -/
structure Recipe (P : Type) where
  deps : Nat → List P
  base : P
  base_last : ∀ n, base ∉ deps n

/-- What is on disk, and the global variables of `paths` and `chroot`. Each package of a stage is
recorded with the root it was built in, if not by the host. -/
structure World (P : Type) where
  root : Nat → Root
  repo : Nat → List (P × Option Nat)
  /-- The stage of `bldroot`. -/
  bdir : Nat
  stage : Nat
  checked : Bool
  ready : Bool

/-- How a run is left: killed between two steps, or by an exception. -/
inductive Exit
  | killed
  | noBldroot
  | noShell
  | noPackages
  | fileExists
  deriving DecidableEq

section

variable {P : Type} (recipe : Recipe P)

abbrev Run (P : Type) (α : Type) := Proc Exit (World P) α

def World.built (s : World P) : List P := (s.repo s.stage).map Prod.fst

def World.setRoot (s : World P) (r : Root) : World P :=
  { s with root := Function.update s.root s.bdir r }

/-- `reinit_buildroot` -/
def World.withRoot (s : World P) (n : Nat) : World P := { s with bdir := n }

/-- `set_stage` and `reinit_buildroot` -/
def World.enter (s : World P) (n : Nat) : World P := { s with stage := n, bdir := n }

/-- A root without its marker is only a directory for the host to build in. -/
def World.addPkg (s : World P) (p : P) : World P :=
  let builder := if (s.root s.bdir).init then some s.bdir else none
  { s with repo := Function.update s.repo s.stage (s.repo s.stage ++ [(p, builder)]) }

/-- `chroot_check` -/
def chrootCheck (force error : Bool) : Run P Unit := do
  let s ← Proc.look
  Proc.when (force || !s.checked) do
    Proc.step .killed fun s => { s with checked := true, ready := (s.root s.bdir).init }
  let s ← Proc.look
  Proc.when (error && !s.ready) (throw .noBldroot)

/-- `_prepare` -/
def prepare : Run P Unit := do
  let s ← Proc.look
  Proc.when (!(s.root s.bdir).init) do
    Proc.when (s.root s.bdir).installed.isNone (throw .noShell)
    -- `symlink_to` raises when the link is there
    Proc.when (s.root s.bdir).localtime (throw .fileExists)
    Proc.step .killed fun s => s.setRoot (s.root s.bdir).withLocaltime
    Proc.step .killed fun s => s.setRoot (s.root s.bdir).withMarker

variable [DecidableEq P]

/-- `install`. `apk add` needs `base-cbuild` and all it depends on. -/
def install : Run P Unit := do
  chrootCheck false false
  let s ← Proc.look
  Proc.when (!s.ready) do
    Proc.when (!(recipe.deps s.stage ++ [recipe.base]).all (· ∈ s.built)) (throw .noPackages)
    Proc.step .killed fun s => s.setRoot ((s.root s.bdir).withPackages s.stage)
    prepare
    chrootCheck true false

/-- A package that is there is not built again. A build that fails ends the run as a kill does. -/
def buildPkg (p : P) : Run P Unit := do
  let s ← Proc.look
  Proc.when (decide (p ∉ s.built)) do
    Proc.step .killed fun s => s.addPkg p

/-- `build` of `base-cbuild`; the template raises `SkipPackage`, which is caught, when it is
built. -/
def buildBase : Run P Unit := do
  let s ← Proc.look
  Proc.when (decide (recipe.base ∉ s.built)) do
    (recipe.deps s.stage).forM buildPkg
    buildPkg recipe.base

/-- The part of `bootstrap` for stage 0. The root the host used is removed. -/
def stageZero : Run P Unit := do
  Proc.step .killed fun s => s.enter 0
  chrootCheck true false
  let s ← Proc.look
  Proc.when (!s.ready) do
    buildBase recipe
    Proc.step .killed fun s => s.setRoot ⟨none, false, false⟩
    install recipe

/-- The parts of `bootstrap` for the stages after it. -/
def stageAfter (n : Nat) : Run P Unit := do
  Proc.step .killed fun s => s.enter (n + 1)
  chrootCheck true false
  let s ← Proc.look
  Proc.when (!s.ready) do
    Proc.step .killed fun s => s.withRoot n
    chrootCheck true true
    buildBase recipe
    Proc.step .killed fun s => s.withRoot (n + 1)
    chrootCheck true false
    install recipe

/-- `bootstrap`. From a `max_stage` of 2 on it goes through to stage 3. -/
def bootstrap (maxStage : Nat) : Run P Unit := do
  stageZero recipe
  Proc.when (decide (maxStage ≠ 0)) do
    stageAfter recipe 0
    Proc.when (decide (maxStage ≠ 1)) do
      stageAfter recipe 1
      stageAfter recipe 2

end

/-! ## What holds between two runs -/

/-- A root that was left after the link was made and before the marker. -/
def Root.Jammed (r : Root) : Prop := r.localtime = true ∧ r.init = false

/-- The root the packages of a stage are built in. -/
def builder : Nat → Option Nat
  | 0 => none
  | n + 1 => some n

/-- What holds of the disk between two runs, and the roots `J` that stay jammed. -/
structure Sound {P : Type} (recipe : Recipe P) (J : Nat → Prop) (s : World P) : Prop where
  built : ∀ n, ∀ x ∈ s.repo n, x.2 = builder n
  used : ∀ n, s.repo (n + 1) ≠ [] → (s.root n).init = true
  whole : ∀ n, recipe.base ∈ (s.repo n).map Prod.fst →
    ∀ p ∈ recipe.deps n, p ∈ (s.repo n).map Prod.fst
  installed : ∀ n k, (s.root n).installed = some k → k = n ∧ recipe.base ∈ (s.repo n).map Prod.fst
  marked : ∀ n, (s.root n).init = true → (s.root n).installed = some n
  jammed : ∀ n, J n → 0 < n ∧ (s.root n).Jammed

variable {P : Type} {recipe : Recipe P} {J : Nat → Prop} {s s' s'' : World P}
  {R : Nat → Root} {n top : Nat} {p : P}

/-! ## Steps -/

theorem Sound.of_disk (h : Sound recipe J s) (hroot : s'.root = s.root) (hrepo : s'.repo = s.repo) :
    Sound recipe J s' := by
  constructor
  · rw [hrepo]
    exact h.built
  · rw [hroot, hrepo]
    exact h.used
  · rw [hrepo]
    exact h.whole
  · rw [hroot, hrepo]
    exact h.installed
  · rw [hroot]
    exact h.marked
  · rw [hroot]
    exact h.jammed

theorem Sound.withRoot (h : Sound recipe J s) : Sound recipe J (s.withRoot n) := h.of_disk rfl rfl

theorem Sound.enter (h : Sound recipe J s) : Sound recipe J (s.enter n) := h.of_disk rfl rfl

theorem World.root_setRoot {r : Root} : (s.setRoot r).root s.bdir = r := Function.update_self ..

theorem World.root_setRoot_of_ne {r : Root} (hn : n ≠ s.bdir) :
    (s.setRoot r).root n = s.root n := Function.update_of_ne hn ..

/-- The root at hand is changed. -/
theorem Sound.setRoot (h : Sound recipe J s) {r : Root}
    (hused : (s.root s.bdir).init = true → r.init = true)
    (hinstalled : ∀ k, r.installed = some k → k = s.bdir ∧
      recipe.base ∈ (s.repo s.bdir).map Prod.fst)
    (hmarked : r.init = true → r.installed = some s.bdir) (hjammed : J s.bdir → r.Jammed) :
    Sound recipe J (s.setRoot r) := by
  have hat : (s.setRoot r).root s.bdir = r := World.root_setRoot
  have hother : ∀ m, m ≠ s.bdir → (s.setRoot r).root m = s.root m := fun m hm =>
    World.root_setRoot_of_ne hm
  constructor
  · exact h.built
  · intro m hm
    by_cases heq : m = s.bdir
    · rw [heq, hat]
      exact hused (heq ▸ h.used m hm)
    · rw [hother m heq]
      exact h.used m hm
  · exact h.whole
  · intro m k hk
    by_cases heq : m = s.bdir
    · rw [heq, hat] at hk
      rw [heq]
      exact hinstalled k hk
    · rw [hother m heq] at hk
      exact h.installed m k hk
  · intro m hm
    by_cases heq : m = s.bdir
    · rw [heq, hat] at hm ⊢
      exact hmarked hm
    · rw [hother m heq] at hm ⊢
      exact h.marked m hm
  · intro m hm
    refine ⟨(h.jammed m hm).1, ?_⟩
    by_cases heq : m = s.bdir
    · rw [heq, hat]
      exact hjammed (heq ▸ hm)
    · rw [hother m heq]
      exact (h.jammed m hm).2

theorem Sound.jams (h : Sound recipe J s) :
    Sound recipe (fun n => 0 < n ∧ (s.root n).Jammed) s := { h with jammed := fun _ hn => hn }

/-- Before the first run. -/
def World.nothing : World P where
  root _ := ⟨none, false, false⟩
  repo _ := []
  bdir := 3
  stage := 3
  checked := false
  ready := false

theorem sound_nothing : Sound recipe (fun _ => False) (World.nothing : World P) where
  built _ _ hx := (List.not_mem_nil hx).elim
  used _ hne := absurd rfl hne
  whole _ hbase := (List.not_mem_nil hbase).elim
  installed _ _ hk := by cases hk
  marked _ hmarked := by cases hmarked
  jammed _ hJ := hJ.elim

theorem Sound.init_le (h : Sound recipe J s) (hinit : (s.root n).init = true) :
    ∀ m ≤ n, (s.root m).init = true := by
  induction n with
  | zero =>
      intro m hm
      rw [Nat.le_zero.mp hm]
      exact hinit
  | succ n ih =>
      have hbase := (h.installed _ _ (h.marked _ hinit)).2
      have hprev := h.used n fun hnil => by
        rw [hnil] at hbase
        exact List.not_mem_nil hbase
      intro m hm
      cases Nat.le_succ_iff.mp hm with
      | inl hle => exact ih hprev m hle
      | inr heq => exact heq ▸ hinit

/-- A run is killed, or stopped at a root that was jammed when it began. -/
def LeftAt (recipe : Recipe P) (J : Nat → Prop) (R : Nat → Root) (top : Nat) (e : Exit)
    (s : World P) : Prop :=
  Sound recipe J s ∧ (e = .killed ∨ e = .fileExists ∧ ∃ n, 0 < n ∧ n ≤ top ∧ (R n).Jammed)

theorem Sound.killed (h : Sound recipe J s) : LeftAt recipe J R top .killed s := ⟨h, Or.inl rfl⟩

def Raised (e : Exit) : Prop := e = .fileExists

/-! ## Setting up a root -/

/-- What `chroot_check` leaves in the global variables. -/
def World.check (s : World P) (force : Bool) : World P :=
  if force || !s.checked then { s with checked := true, ready := (s.root s.bdir).init } else s

theorem Sound.check {force : Bool} (h : Sound recipe J s) : Sound recipe J (s.check force) := by
  unfold World.check
  split
  · exact h.of_disk rfl rfl
  · exact h

theorem chrootCheck_lands {force error : Bool} (h : Sound recipe J s)
    (hready : error = true → (s.check force).ready = true) :
    Proc.Lands (chrootCheck force error) s 1 (fun _ s' => s' = s.check force)
      (LeftAt recipe J R top) Raised := by
  have hset : Proc.Lands (Proc.when (force || !s.checked) (Proc.step .killed fun s : World P =>
      { s with checked := true, ready := (s.root s.bdir).init })) s 1
      (fun _ s' => s' = s.check force) (LeftAt recipe J R top) Raised := by
    apply Proc.lands_when
    · intro hc
      apply Proc.lands_step h.killed
      rw [World.check, if_pos hc]
    · intro hc
      rw [World.check, if_neg (Bool.eq_false_iff.mp hc)]
  have hthen : ∀ (_ : Unit) s', s' = s.check force → Proc.Lands (Proc.look >>= fun s : World P =>
      Proc.when (error && !s.ready) (throw .noBldroot)) s' 0 (fun _ s' => s' = s.check force)
      (LeftAt recipe J R top) Raised := by
    rintro _ _ rfl
    apply Proc.lands_look_bind
    apply Proc.lands_when
    · intro hc
      obtain ⟨herror, hnot⟩ := (Bool.and_eq_true _ _).mp hc
      rw [hready herror] at hnot
      cases hnot
    · exact fun _ => rfl
  apply Proc.lands_look_bind
  exact hset.seq hthen

/-- A check that does not ask for a root only notes whether there is one. -/
theorem chrootCheck_notes {force : Bool} (h : Sound recipe J s) :
    Proc.Lands (chrootCheck force false) s 1 (fun _ s' => s' = s.check force)
      (LeftAt recipe J R top) Raised :=
  chrootCheck_lands h fun herror => by cases herror

/-- The root at hand has its marker, and the others are as they were. -/
structure SetUp (recipe : Recipe P) (J : Nat → Prop) (s s' : World P) : Prop where
  sound : Sound recipe J s'
  bdir : s'.bdir = s.bdir
  marked : (s'.root s.bdir).init = true
  other : ∀ m, m ≠ s.bdir → s'.root m = s.root m

theorem prepare_lands (h : Sound recipe J s) (hinit : (s.root s.bdir).init = false)
    (hinstalled : (s.root s.bdir).installed = some s.bdir)
    (hjam : (s.root s.bdir).localtime = true → 0 < s.bdir ∧ s.bdir ≤ top ∧ (R s.bdir).Jammed) :
    Proc.Lands prepare s 2 (fun _ s' => SetUp recipe J s s') (LeftAt recipe J R top) Raised := by
  have hshell : (s.root s.bdir).installed.isNone = false := by rw [hinstalled]; rfl
  apply Proc.lands_look_bind
  apply Proc.lands_when
  · intro _
    apply Proc.lands_guard_bind hshell
    cases hlink : (s.root s.bdir).localtime with
    | true => exact Proc.lands_raise_bind ⟨h, Or.inr ⟨rfl, s.bdir, hjam hlink⟩⟩ rfl
    | false =>
        apply Proc.lands_guard_bind rfl
        have hfree : ¬ J s.bdir := fun hJ => by
          have hlocal := (h.jammed s.bdir hJ).2.1
          rw [hlink] at hlocal
          cases hlocal
        have hlinked : Sound recipe J (s.setRoot (s.root s.bdir).withLocaltime) :=
          h.setRoot id (h.installed s.bdir) (h.marked s.bdir) fun hJ => absurd hJ hfree
        have hat : (s.setRoot (s.root s.bdir).withLocaltime).root s.bdir =
            (s.root s.bdir).withLocaltime := World.root_setRoot
        apply Proc.lands_step_bind h.killed
        apply Proc.lands_step hlinked.killed
        refine ⟨hlinked.setRoot (fun _ => rfl) (hlinked.installed s.bdir) (fun _ => ?_)
          (fun hJ => absurd hJ hfree), rfl, ?_, fun m hm => ?_⟩
        · exact (congrArg Root.installed hat).trans hinstalled
        · exact congrArg Root.init (World.root_setRoot (s := s.setRoot _))
        · exact (World.root_setRoot_of_ne (s := s.setRoot _) hm).trans (World.root_setRoot_of_ne hm)
  · intro hset
    rw [hinit] at hset
    cases hset

/-! ## Building -/

/-- The right root is at hand for the packages of the stage. -/
def World.Fit (s : World P) : Prop :=
  (if (s.root s.bdir).init then some s.bdir else none) = builder s.stage

/-- Only packages of the stage are added. -/
structure Adds (s s' : World P) : Prop where
  same : { s' with repo := s.repo } = s
  kept : ∀ p ∈ s.built, p ∈ s'.built

theorem Adds.refl : Adds s s := ⟨rfl, fun _ h => h⟩

theorem Adds.trans (h : Adds s s') (h' : Adds s' s'') : Adds s s'' := by
  refine ⟨?_, fun p hp => h'.kept p (h.kept p hp)⟩
  rw [← h.same, ← h'.same]

theorem Adds.stage (h : Adds s s') : s'.stage = s.stage := by rw [← h.same]

theorem Adds.bdir (h : Adds s s') : s'.bdir = s.bdir := by rw [← h.same]

theorem Adds.root (h : Adds s s') : s'.root = s.root := by rw [← h.same]

theorem Adds.checked (h : Adds s s') : s'.checked = s.checked := by rw [← h.same]

theorem Adds.ready (h : Adds s s') : s'.ready = s.ready := by rw [← h.same]

theorem Adds.fit (h : Adds s s') (hfit : s.Fit) : s'.Fit := by
  rw [← h.same] at hfit
  exact hfit

theorem World.addPkg_repo_self : (s.addPkg p).repo s.stage =
    s.repo s.stage ++ [(p, if (s.root s.bdir).init then some s.bdir else none)] :=
  Function.update_self ..

theorem World.addPkg_repo (hn : n ≠ s.stage) : (s.addPkg p).repo n = s.repo n :=
  Function.update_of_ne hn ..

theorem World.built_addPkg : (s.addPkg p).built = s.built ++ [p] := by
  show ((s.addPkg p).repo s.stage).map Prod.fst = _
  rw [World.addPkg_repo_self, List.map_append]
  rfl

theorem Sound.addPkg (h : Sound recipe J s) (hfit : s.Fit)
    (hdeps : p = recipe.base → ∀ d ∈ recipe.deps s.stage, d ∈ s.built) :
    Sound recipe J (s.addPkg p) := by
  have hgrows : ∀ m q, q ∈ (s.repo m).map Prod.fst → q ∈ ((s.addPkg p).repo m).map Prod.fst := by
    intro m q hq
    by_cases hm : m = s.stage
    · rw [hm, World.addPkg_repo_self, List.map_append]
      exact List.mem_append_left _ (hm ▸ hq)
    · rwa [World.addPkg_repo hm]
  constructor
  · intro m x hx
    by_cases hm : m = s.stage
    · rw [hm, World.addPkg_repo_self] at hx
      cases List.mem_append.mp hx with
      | inl hold => exact hm ▸ h.built s.stage x hold
      | inr hnew =>
          rw [List.mem_singleton.mp hnew, hm]
          exact hfit
    · rw [World.addPkg_repo hm] at hx
      exact h.built m x hx
  · intro m hne
    by_cases hm : m + 1 = s.stage
    · have hin : (if (s.root s.bdir).init then some s.bdir else none) = some m := by
        have hbuilder := hfit
        unfold World.Fit at hbuilder
        rwa [← hm] at hbuilder
      split at hin
      · next hinit => exact Option.some.inj hin ▸ hinit
      · cases hin
    · rw [World.addPkg_repo hm] at hne
      exact h.used m hne
  · intro m hbase d hd
    by_cases hin : recipe.base ∈ (s.repo m).map Prod.fst
    · exact hgrows m d (h.whole m hin d hd)
    · have hm : m = s.stage := by
        by_contra hm
        rw [World.addPkg_repo hm] at hbase
        exact hin hbase
      subst hm
      have hbuilt : recipe.base ∈ s.built ++ [p] := World.built_addPkg ▸ hbase
      cases List.mem_append.mp hbuilt with
      | inl hold => exact absurd hold hin
      | inr hnew => exact hgrows s.stage d (hdeps (List.mem_singleton.mp hnew).symm d hd)
  · intro m k hk
    obtain ⟨hkm, hbase⟩ := h.installed m k hk
    exact ⟨hkm, hgrows m _ hbase⟩
  · exact h.marked
  · exact h.jammed

variable [DecidableEq P]

theorem buildPkg_lands (h : Sound recipe J s) (hfit : s.Fit)
    (hdeps : p = recipe.base → ∀ d ∈ recipe.deps s.stage, d ∈ s.built) :
    Proc.Lands (buildPkg p) s 1 (fun _ s' => Sound recipe J s' ∧ Adds s s' ∧ p ∈ s'.built)
      (LeftAt recipe J R top) Raised := by
  apply Proc.lands_look_bind
  apply Proc.lands_when
  · intro _
    apply Proc.lands_step h.killed
    refine ⟨h.addPkg hfit hdeps, ⟨rfl, fun q hq => ?_⟩, ?_⟩
    · rw [World.built_addPkg]
      exact List.mem_append_left _ hq
    · rw [World.built_addPkg]
      exact List.mem_append_right _ (List.mem_singleton_self p)
  · intro hin
    exact ⟨h, .refl, by simpa using hin⟩

theorem deps_land (l : List P) (hbase : recipe.base ∉ l) (h : Sound recipe J s) (hfit : s.Fit) :
    Proc.Lands (l.forM buildPkg) s l.length
      (fun _ s' => Sound recipe J s' ∧ Adds s s' ∧ ∀ p ∈ l, p ∈ s'.built)
      (LeftAt recipe J R top) Raised := by
  induction l generalizing s with
  | nil => exact Proc.lands_pure ⟨h, .refl, fun p hp => (List.not_mem_nil hp).elim⟩
  | cons p l ih =>
      obtain ⟨hp, hl⟩ := not_or.mp (fun hor => hbase (List.mem_cons.mpr hor))
      rw [List.length_cons, Nat.add_comm]
      apply Proc.Lands.seq (buildPkg_lands h hfit fun heq => absurd heq.symm hp)
      rintro _ s' ⟨h', hadds, hin⟩
      apply (ih hl h' (hadds.fit hfit)).imp
      rintro _ s'' ⟨h'', hadds', hall⟩
      refine ⟨h'', hadds.trans hadds', fun q hq => ?_⟩
      cases List.mem_cons.mp hq with
      | inl heq => exact heq ▸ hadds'.kept p hin
      | inr hq => exact hall q hq

theorem buildBase_lands (h : Sound recipe J s) (hfit : s.Fit) :
    Proc.Lands (buildBase recipe) s ((recipe.deps s.stage).length + 1)
      (fun _ s' => Sound recipe J s' ∧ Adds s s' ∧ recipe.base ∈ s'.built)
      (LeftAt recipe J R top) Raised := by
  apply Proc.lands_look_bind
  apply Proc.lands_when
  · intro _
    apply Proc.Lands.seq (deps_land _ (recipe.base_last s.stage) h hfit)
    rintro _ s' ⟨h', hadds, hdeps⟩
    apply (buildPkg_lands h' (hadds.fit hfit) fun _ => hadds.stage ▸ hdeps).imp
    rintro _ s'' ⟨h'', hadds', hbase⟩
    exact ⟨h'', hadds.trans hadds', hbase⟩
  · intro hin
    exact ⟨h, .refl, by simpa using hin⟩

/-! ## The stages -/

theorem install_lands (h : Sound recipe J s) (hstage : s.stage = s.bdir)
    (hchecked : s.checked = true) (hready : s.ready = (s.root s.bdir).init) (hbase : recipe.base ∈ s.built)
    (hjam : (s.root s.bdir).Jammed → 0 < s.bdir ∧ s.bdir ≤ top ∧ (R s.bdir).Jammed) :
    Proc.Lands (install recipe) s (1 + (2 + 1 + 1)) (fun _ s' => SetUp recipe J s s')
      (LeftAt recipe J R top) Raised := by
  have hchecking : s.check false = s := by
    rw [World.check, hchecked]
    rfl
  have hall : (!(recipe.deps s.stage ++ [recipe.base]).all (· ∈ s.built)) = false := by
    rw [Bool.not_eq_false', List.all_eq_true]
    intro p hp
    rw [decide_eq_true_eq]
    cases List.mem_append.mp hp with
    | inl hdep => exact h.whole s.stage hbase p hdep
    | inr heq => exact List.mem_singleton.mp heq ▸ hbase
  apply Proc.Lands.seq (chrootCheck_notes h)
  rintro _ _ rfl
  rw [hchecking]
  apply Proc.lands_look_bind
  apply Proc.lands_when
  · intro hnot
    have hinit : (s.root s.bdir).init = false := by
      rw [← hready]
      exact (Bool.not_eq_true' _).mp hnot
    apply Proc.lands_guard_bind hall
    have hinstalled : Sound recipe J (s.setRoot ((s.root s.bdir).withPackages s.stage)) := by
      refine h.setRoot (fun hi => hi) ?_ ?_ ?_
      · intro k hk
        cases hk
        exact ⟨hstage, hstage ▸ hbase⟩
      · exact fun _ => congrArg some hstage
      · exact fun hJ => (h.jammed s.bdir hJ).2
    have hat : (s.setRoot ((s.root s.bdir).withPackages s.stage)).root s.bdir =
        (s.root s.bdir).withPackages s.stage := World.root_setRoot
    apply Proc.lands_step_bind h.killed
    apply Proc.Lands.seq (prepare_lands hinstalled ?_ ?_ ?_)
    · rintro _ s' hset
      apply (chrootCheck_notes hset.sound).imp
      rintro _ _ rfl
      refine ⟨hset.sound.of_disk rfl rfl, hset.bdir, hset.marked, fun m hm => ?_⟩
      exact (hset.other m hm).trans (World.root_setRoot_of_ne hm)
    · exact (congrArg Root.init hat).trans hinit
    · exact ((congrArg Root.installed hat).trans (congrArg some hstage))
    · exact fun hlink => hjam ⟨(congrArg Root.localtime hat).symm.trans hlink, hinit⟩
  · intro hset
    refine ⟨h, rfl, ?_, fun _ _ => rfl⟩
    rw [← hready]
    exact (Bool.not_eq_false' _).mp hset

/-- The steps of stage 0, and those of a stage after it. -/
def zeroSteps (recipe : Recipe P) : Nat :=
  1 + ((recipe.deps 0).length + 1 + (1 + (2 + 1 + 1) + 1)) + 1

def afterSteps (recipe : Recipe P) (n : Nat) : Nat :=
  1 + (1 + ((recipe.deps (n + 1)).length + 1 + (1 + (1 + (2 + 1 + 1)) + 1)) + 1) + 1

theorem stageZero_lands (h : Sound recipe J s) :
    Proc.Lands (stageZero recipe) s (zeroSteps recipe)
      (fun _ s' => Sound recipe J s' ∧ (s'.root 0).init = true ∧ ∀ m, m ≠ 0 → s'.root m = s.root m)
      (LeftAt recipe J R top) Raised := by
  have hentered : Sound recipe J (s.enter 0) := h.enter
  unfold zeroSteps
  apply Proc.lands_step_bind h.killed
  apply Proc.Lands.seq (chrootCheck_notes hentered)
  rintro _ _ rfl
  apply Proc.lands_look_bind
  apply Proc.lands_when
  · intro hnot
    have hinit : (s.root 0).init = false := (Bool.not_eq_true' _).mp hnot
    apply Proc.Lands.seq (buildBase_lands hentered.check ?_)
    · rintro _ s' ⟨h', hadds, hbase⟩
      have hbdir : s'.bdir = 0 := hadds.bdir
      have hroot : s'.root = s.root := hadds.root
      have hcleared : Sound recipe J (s'.setRoot ⟨none, false, false⟩) := by
        apply h'.setRoot
        · intro hmarked
          rw [hbdir, hroot, hinit] at hmarked
          cases hmarked
        · exact fun k hk => by cases hk
        · exact fun hmarked => by cases hmarked
        · intro hJ
          rw [hbdir] at hJ
          exact absurd (h.jammed 0 hJ).1 (Nat.lt_irrefl 0)
      have hat : (s'.setRoot ⟨none, false, false⟩).root s'.bdir = ⟨none, false, false⟩ :=
        World.root_setRoot
      apply Proc.lands_step_bind h'.killed
      apply (install_lands hcleared ?_ hadds.checked ?_ hbase ?_).imp
      · rintro _ s'' hset
        have hother := hset.other
        have hmarked := hset.marked
        change (s''.root s'.bdir).init = true at hmarked
        change ∀ m, m ≠ s'.bdir → _ at hother
        rw [hbdir] at hmarked hother
        refine ⟨hset.sound, hmarked, fun m hm => ?_⟩
        rw [hother m hm, World.root_setRoot_of_ne (hbdir ▸ hm), hroot]
      · exact hadds.stage.trans hbdir.symm
      · exact (hadds.ready.trans hinit).trans (congrArg Root.init hat).symm
      · intro hjam
        have hlink := hjam.1.symm.trans (congrArg Root.localtime hat)
        cases hlink
    · show (if (s.root 0).init then some 0 else none) = builder 0
      rw [hinit]
      rfl
  · intro hset
    exact ⟨hentered.check, (Bool.not_eq_false' _).mp hset, fun _ _ => rfl⟩

/-- The root of the stage before is at hand for the builds, and that of the stage for its set-up. -/
theorem stageAfter_lands (h : Sound recipe J s) (hprev : (s.root n).init = true)
    (hjam : (s.root (n + 1)).Jammed → n + 1 ≤ top ∧ (R (n + 1)).Jammed) :
    Proc.Lands (stageAfter recipe n) s (afterSteps recipe n)
      (fun _ s' => Sound recipe J s' ∧ (s'.root (n + 1)).init = true ∧
        ∀ m, m ≠ n + 1 → s'.root m = s.root m)
      (LeftAt recipe J R top) Raised := by
  have hentered : Sound recipe J (s.enter (n + 1)) := h.enter
  unfold afterSteps
  apply Proc.lands_step_bind h.killed
  apply Proc.Lands.seq (chrootCheck_notes hentered)
  rintro _ _ rfl
  apply Proc.lands_look_bind
  apply Proc.lands_when
  · intro hnot
    have hinit : (s.root (n + 1)).init = false := (Bool.not_eq_true' _).mp hnot
    apply Proc.lands_step_bind hentered.check.killed
    have hback : Sound recipe J (((s.enter (n + 1)).check true).withRoot n) :=
      hentered.check.withRoot
    have hpassed : ((((s.enter (n + 1)).check true).withRoot n).check true).ready = true := hprev
    apply Proc.Lands.seq (chrootCheck_lands hback fun _ => hpassed)
    rintro _ _ rfl
    apply Proc.Lands.seq (buildBase_lands hback.check ?_)
    · rintro _ s' ⟨h', hadds, hbase⟩
      have hroot : s'.root = s.root := hadds.root
      apply Proc.lands_step_bind h'.killed
      apply Proc.Lands.seq (chrootCheck_notes h'.withRoot)
      rintro _ _ rfl
      have hagain : Sound recipe J ((s'.withRoot (n + 1)).check true) := h'.withRoot.check
      have hstage : ((s'.withRoot (n + 1)).check true).stage = n + 1 := hadds.stage
      apply (install_lands hagain hstage rfl rfl hbase ?_).imp
      · rintro _ s'' hset
        refine ⟨hset.sound, hset.marked, fun m hm => ?_⟩
        exact (hset.other m hm).trans (congrFun hroot m)
      · intro hjammed
        change (s'.root (n + 1)).Jammed at hjammed
        rw [hroot] at hjammed
        exact ⟨Nat.succ_pos n, hjam hjammed⟩
    · show (if (s.root n).init then some n else none) = builder (n + 1)
      rw [hprev]
      rfl
  · intro hset
    exact ⟨hentered.check, (Bool.not_eq_false' _).mp hset, fun _ _ => rfl⟩

/-! ## Whole runs -/

/-- The last stage a run comes to. -/
def lastStage (maxStage : Nat) : Nat :=
  if maxStage = 0 then 0 else if maxStage = 1 then 1 else 3

theorem bootstrap_lands (maxStage : Nat) (h : Sound recipe J s) :
    Proc.Lands (bootstrap recipe maxStage) s
      (zeroSteps recipe + (afterSteps recipe 0 + (afterSteps recipe 1 + afterSteps recipe 2)))
      (fun _ s' => Sound recipe J s' ∧ ∀ n ≤ lastStage maxStage, (s'.root n).init = true)
      (LeftAt recipe J s.root (lastStage maxStage)) Raised := by
  apply Proc.Lands.seq (stageZero_lands h)
  rintro _ s₀ ⟨h₀, hzero, hother₀⟩
  apply Proc.lands_when
  · intro hmax
    have hpos : maxStage ≠ 0 := of_decide_eq_true hmax
    have hone : 1 ≤ lastStage maxStage := by
      rw [lastStage, if_neg hpos]
      split <;> omega
    apply Proc.Lands.seq (stageAfter_lands h₀ hzero fun hjam => ⟨hone, hother₀ 1 (by omega) ▸ hjam⟩)
    rintro _ s₁ ⟨h₁, hfirst, hother₁⟩
    have hzero₁ : (s₁.root 0).init = true := hother₁ 0 (by omega) ▸ hzero
    apply Proc.lands_when
    · intro hmax'
      have hlast : lastStage maxStage = 3 := by
        rw [lastStage, if_neg hpos, if_neg (of_decide_eq_true hmax')]
      have hsame₁ : ∀ m, 2 ≤ m → s₁.root m = s.root m := fun m hm =>
        (hother₁ m (by omega)).trans (hother₀ m (by omega))
      apply Proc.Lands.seq (stageAfter_lands h₁ hfirst fun hjam =>
        ⟨by omega, hsame₁ 2 (by omega) ▸ hjam⟩)
      rintro _ s₂ ⟨h₂, hsecond, hother₂⟩
      have hsame₂ : s₂.root 3 = s.root 3 := (hother₂ 3 (by omega)).trans (hsame₁ 3 (by omega))
      apply (stageAfter_lands h₂ hsecond fun hjam => ⟨by omega, hsame₂ ▸ hjam⟩).imp
      rintro _ s₃ ⟨h₃, hthird, hother₃⟩
      refine ⟨h₃, fun n hn => ?_⟩
      obtain rfl | rfl | rfl | rfl : n = 0 ∨ n = 1 ∨ n = 2 ∨ n = 3 := by omega
      · rw [hother₃ 0 (by omega), hother₂ 0 (by omega)]
        exact hzero₁
      · rw [hother₃ 1 (by omega), hother₂ 1 (by omega)]
        exact hfirst
      · rw [hother₃ 2 (by omega)]
        exact hsecond
      · exact hthird
    · intro hmax'
      have hlast : lastStage maxStage = 1 := by
        rw [lastStage, if_neg hpos, if_pos (not_not.mp (of_decide_eq_false hmax'))]
      refine ⟨h₁, fun n hn => ?_⟩
      obtain rfl | rfl : n = 0 ∨ n = 1 := by omega
      · exact hzero₁
      · exact hfirst
  · intro hmax
    have hlast : lastStage maxStage = 0 := if_pos (not_not.mp (of_decide_eq_false hmax))
    refine ⟨h₀, fun n hn => ?_⟩
    obtain rfl : n = 0 := by omega
    exact hzero

/-- What a run leaves that may be killed after `k` steps. -/
def leftBy (recipe : Recipe P) (maxStage k : Nat) (s : World P) : World P :=
  match (bootstrap recipe maxStage).run ⟨s, k⟩ with
  | .ok _ m => m.state
  | .error _ m => m.state

/-- What any number of runs leaves, each killed somewhere or not. -/
inductive Reached (recipe : Recipe P) (s₀ : World P) : World P → Prop
  | start : Reached recipe s₀ s₀
  | run {s : World P} (maxStage k : Nat) :
      Reached recipe s₀ s → Reached recipe s₀ (leftBy recipe maxStage k s)

theorem Sound.leftBy (h : Sound recipe J s) (maxStage k : Nat) :
    Sound recipe J (leftBy recipe maxStage k s) := by
  have hlands := bootstrap_lands maxStage h
  unfold Bootstrap.leftBy
  split
  · next hrun => exact (hlands.ends.of_ok hrun).1
  · next hrun => exact (hlands.ends.of_error hrun).1

theorem Reached.sound {s₀ : World P} (h : Reached recipe s₀ s) (h₀ : Sound recipe J s₀) :
    Sound recipe J s := by
  induction h with
  | start => exact h₀
  | run maxStage k _ ih => exact ih.leftBy maxStage k

/-- However often bootstrapping has been killed, each package was built in the root of the stage
before its own, and a root with a marker was set up from all the packages of its stage, as were
those before it. A run that is not killed gets through exactly if none of the roots it comes to,
but the first, was left between the link and the marker; those stay as they are for ever. -/
theorem bootstrap_resumes (h : Reached recipe World.nothing s) :
    (∀ n, ∀ x ∈ s.repo n, x.2 = builder n) ∧
    (∀ n, (s.root n).init = true → (s.root n).installed = some n ∧
      (∀ p ∈ recipe.deps n ++ [recipe.base], p ∈ (s.repo n).map Prod.fst) ∧
      ∀ m ≤ n, (s.root m).init = true) ∧
    (∀ maxStage k m, (bootstrap recipe maxStage).run ⟨s, k⟩ = .ok () m →
      ∀ n ≤ lastStage maxStage, (m.state.root n).init = true) ∧
    (∀ maxStage, (∃ k m, (bootstrap recipe maxStage).run ⟨s, k⟩ = .ok () m) ↔
      ∀ n, 0 < n → n ≤ lastStage maxStage → ¬ (s.root n).Jammed) ∧
    ∀ s', Reached recipe s s' → ∀ n, 0 < n → (s.root n).Jammed → (s'.root n).Jammed := by
  have hsound := (h.sound sound_nothing).jams
  refine ⟨hsound.built, fun n hinit => ?_, fun maxStage k m hrun => ?_, fun maxStage => ?_,
    fun s' hreached n hn hjam => ((hreached.sound hsound).jammed n ⟨hn, hjam⟩).2⟩
  · have hinstalled := hsound.marked n hinit
    have hbase := (hsound.installed n n hinstalled).2
    refine ⟨hinstalled, fun p hp => ?_, hsound.init_le hinit⟩
    cases List.mem_append.mp hp with
    | inl hdep => exact hsound.whole n hbase p hdep
    | inr heq => exact List.mem_singleton.mp heq ▸ hbase
  · have hlands := bootstrap_lands maxStage hsound
    exact (hlands.ends.of_ok hrun).2
  · have hlands := bootstrap_lands maxStage hsound
    constructor
    · rintro ⟨k', m, hrun⟩ n hn hle hjam
      obtain ⟨hsound', hinit⟩ := hlands.ends.of_ok hrun
      have hnot := (hsound'.jammed n ⟨hn, hjam⟩).2.2
      rw [hinit n hle] at hnot
      cases hnot
    · intro hfree
      obtain ⟨_, m, hrun⟩ := hlands.returns fun e s' hleft hraised => by
        obtain hkilled | ⟨-, n, hn, hle, hjam⟩ := hleft.2
        · rw [Raised, hkilled] at hraised
          cases hraised
        · exact hfree n hn hle hjam
      exact ⟨_, m, hrun⟩

/-- Nothing but `base-cbuild`. -/
def baseAlone : Recipe Unit := ⟨fun _ => [], (), fun _ => List.not_mem_nil⟩

/-- Killed in stage 1, after the link was made. -/
def stageOneJammed : World Unit := leftBy baseAlone 1 17 World.nothing

theorem stageOneJammed_stuck : (stageOneJammed.root 1).Jammed ∧
    ¬ ∃ k m, (bootstrap baseAlone 2).run ⟨stageOneJammed, k⟩ = .ok () m := by
  have hjam : (stageOneJammed.root 1).Jammed := ⟨rfl, rfl⟩
  have hreached : Reached baseAlone World.nothing stageOneJammed := .run 1 17 .start
  obtain ⟨-, -, -, hthrough, -⟩ := bootstrap_resumes hreached
  exact ⟨hjam, fun hrun => (hthrough 2).mp hrun 1 Nat.one_pos (by decide) hjam⟩

end Cbuild.Bootstrap
