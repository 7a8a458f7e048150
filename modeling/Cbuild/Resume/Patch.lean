import Cbuild.Apk.Token
import Cbuild.Lib.Interrupt

/-! # Patching that goes on

`patch` of `cbuild/util/patch.py` applies the patches of a template in their order, and leaves a
stamp in the source directory for each. A build that is run again after one that was ended passes
over the patches that are stamped.
-/

namespace Cbuild.Resume

open Lib Apk

/-- `git apply`, and what a tree may look like while it is at work. -/
structure Git (T : Type) where
  apply : Str → T → Option T
  torn : Str → T → T

/-- The source directory, with the stamp of `invoke_patch` in the state directory. -/
structure Source (T : Type) where
  content : T
  stamps : Str → Bool
  /-- There is a `.git`. -/
  git : Bool
  done : Bool

/-- Where patching is ended. -/
inductive PatchPlace
  | init
  | opening
  | applying
  | stamping
  | failed (name : Str)
  | leaving
  deriving DecidableEq

/-- A patch is partly in the tree, or wholly and without its stamp. -/
def PatchPlace.Inside : PatchPlace → Prop
  | .applying | .stamping => True
  | _ => False

/-- A patch does not fit. -/
def PatchPlace.isFailed : PatchPlace → Bool
  | .failed _ => true
  | _ => false

section

variable {T : Type} (git : Git T)

/-- `_apply` with `stamp`: the patch is left alone if it is stamped. -/
def applyPatch (p : Str) : Proc PatchPlace (Source T) Unit := do
  let s ← Proc.look
  Proc.when (!s.stamps p) do
    match git.apply p s.content with
    | none => throw (.failed p)
    | some c =>
        Proc.step .opening fun s => { s with content := git.torn p s.content }
        Proc.step .applying fun s => { s with content := c }
        Proc.step .stamping fun s => { s with stamps := fun q => q = p || s.stamps q }

/-- `patch` -/
def patch (patches : List Str) : Proc PatchPlace (Source T) Unit :=
  Proc.when (!patches.isEmpty) do
    Proc.step .init fun s => { s with git := true }
    patches.forM (applyPatch git)
    Proc.step .leaving fun s => { s with git := false }

/-- `invoke_patch` for a template that has no functions of its own for it. -/
def invokePatch (patches : List Str) : Proc PatchPlace (Source T) Unit := do
  let s ← Proc.look
  Proc.when (!s.done) do
    patch git patches
    Proc.step .leaving fun s => { s with done := true }

/-- All patches in their order, each once. -/
def applyAll (base : T) (patches : List Str) : Option T :=
  patches.foldlM (fun c p => git.apply p c) base

/-! ## How far it has come -/

/-- The first `n` patches are in the tree, and are those that are stamped. -/
structure Upto (base : T) (patches : List Str) (n : Nat) (s : Source T) : Prop where
  content : applyAll git base (patches.take n) = some s.content
  stamps : ∀ p ∈ patches, s.stamps p = true ↔ p ∈ patches.take n

/-- When it is done, all of them are. -/
structure Going (base : T) (patches : List Str) (s : Source T) : Prop where
  upto : ∃ n, Upto git base patches n s
  done : s.done = true →
    applyAll git base patches = some s.content ∧ (patches ≠ [] → s.git = false)

end

variable {T : Type} {git : Git T} {base t : T} {patches pre rest : List Str} {p : Str}
  {s : Source T} {n : Nat}

theorem mem_take_iff (hnodup : (pre ++ p :: rest).Nodup) :
    p ∈ (pre ++ p :: rest).take n ↔ pre.length < n := by
  have hpre : p ∉ pre := fun hmem =>
    (List.nodup_append.mp hnodup).2.2 p hmem p List.mem_cons_self rfl
  constructor
  · intro hmem
    by_contra hn
    rw [List.take_append_of_le_length (Nat.not_lt.mp hn)] at hmem
    exact hpre (List.mem_of_mem_take hmem)
  · intro hn
    obtain ⟨d, rfl⟩ := Nat.exists_eq_add_of_lt hn
    rw [Nat.add_assoc, List.take_length_add_append]
    exact List.mem_append_right _ List.mem_cons_self

theorem applyAll_append : applyAll git base (pre ++ rest) =
    (applyAll git base pre).bind fun c => applyAll git c rest :=
  List.foldlM_append

theorem applyAll_cons : applyAll git base (p :: rest) =
    (git.apply p base).bind fun c => applyAll git c rest :=
  List.foldlM_cons

theorem Upto.next (h : Upto git base (pre ++ p :: rest) pre.length s) {c : T}
    (hc : git.apply p s.content = some c) :
    Upto git base (pre ++ p :: rest) (pre.length + 1)
      { s with content := c, stamps := fun q => q = p || s.stamps q } := by
  have htake : (pre ++ p :: rest).take (pre.length + 1) = pre ++ [p] := by
    rw [List.take_length_add_append]
    rfl
  have hpre : (pre ++ p :: rest).take pre.length = pre := List.take_left
  constructor
  · have hcontent := h.content
    rw [hpre] at hcontent
    rw [htake, applyAll_append, hcontent]
    show applyAll git s.content [p] = some c
    rw [applyAll_cons, hc]
    rfl
  · intro q hq
    have hstamps := h.stamps q hq
    rw [hpre] at hstamps
    rw [htake, Bool.or_eq_true, hstamps, decide_eq_true_eq, List.mem_append, List.mem_singleton]
    exact Or.comm

/-- If all patches fit, so does the one that is next. -/
theorem Upto.fits (h : Upto git base (pre ++ p :: rest) pre.length s)
    (hall : applyAll git base (pre ++ p :: rest) = some t) :
    ∃ c, git.apply p s.content = some c := by
  have hcontent := h.content
  rw [List.take_left] at hcontent
  rw [applyAll_append, hcontent] at hall
  change applyAll git s.content (p :: rest) = some t at hall
  rw [applyAll_cons] at hall
  obtain ⟨c, hc, -⟩ := Option.bind_eq_some_iff.mp hall
  exact ⟨c, hc⟩

/-! ## One run -/

/-- The patches up to `i`, if not more, are in the tree, and patching is not done. -/
def Passed (git : Git T) (base : T) (patches : List Str) (i : Nat) (s : Source T) : Prop :=
  (∃ n, i ≤ n ∧ Upto git base patches n s) ∧ s.done = false

/-- What holds where patching is ended: no patch has failed, and outside of a patch it can go on. -/
def LeftAt (git : Git T) (base : T) (patches : List Str) (e : PatchPlace) (s : Source T) : Prop :=
  e.isFailed = false ∧ (¬ e.Inside → Going git base patches s)

theorem left_of_inside {e : PatchPlace} (h : e.Inside) : LeftAt git base patches e s := by
  refine ⟨?_, fun hout => (hout h).elim⟩
  cases e with
  | failed name => exact h.elim
  | _ => rfl

theorem Passed.going {i : Nat} (h : Passed git base patches i s) : Going git base patches s := by
  obtain ⟨⟨n, -, hupto⟩, hdone⟩ := h
  exact ⟨⟨n, hupto⟩, fun hd => by rw [hdone] at hd; cases hd⟩

theorem Passed.left {i : Nat} {e : PatchPlace} (h : Passed git base patches i s)
    (he : e.isFailed = false) : LeftAt git base patches e s := ⟨he, fun _ => h.going⟩

/-- A stamped patch is behind, and one that is not is the next. -/
theorem Passed.cases (h : Passed git base (pre ++ p :: rest) pre.length s)
    (hnodup : (pre ++ p :: rest).Nodup) :
    (s.stamps p = true ∧ Passed git base (pre ++ p :: rest) (pre.length + 1) s) ∨
      s.stamps p = false ∧ Upto git base (pre ++ p :: rest) pre.length s := by
  obtain ⟨⟨n, hn, hupto⟩, hdone⟩ := h
  have hstamp := hupto.stamps p (List.mem_append_right _ List.mem_cons_self)
  rw [mem_take_iff hnodup] at hstamp
  cases hp : s.stamps p with
  | true => exact Or.inl ⟨rfl, ⟨n, hstamp.mp hp, hupto⟩, hdone⟩
  | false =>
      have hlt : ¬ pre.length < n := fun hlt => by
        rw [hstamp.mpr hlt] at hp
        cases hp
      obtain rfl : n = pre.length := by omega
      exact Or.inr ⟨rfl, hupto⟩

theorem applyPatch_lands (hnodup : (pre ++ p :: rest).Nodup)
    (hall : applyAll git base (pre ++ p :: rest) = some t)
    (h : Passed git base (pre ++ p :: rest) pre.length s) :
    Proc.Lands (applyPatch git p) s 3
      (fun _ => Passed git base (pre ++ p :: rest) (pre.length + 1))
      (LeftAt git base (pre ++ p :: rest)) := by
  apply Proc.lands_look_bind
  obtain ⟨hstamp, hpassed⟩ | ⟨hstamp, hupto⟩ := h.cases hnodup
  · rw [hstamp]
    exact Proc.lands_when (fun hnot => by cases hnot) (fun _ => hpassed)
  · obtain ⟨c, hc⟩ := hupto.fits hall
    rw [hstamp, hc]
    apply Proc.lands_step_bind (h.left rfl)
    apply Proc.lands_step_bind (left_of_inside (show PatchPlace.applying.Inside from trivial))
    apply Proc.lands_step (left_of_inside (show PatchPlace.stamping.Inside from trivial))
    exact ⟨⟨_, Nat.le_refl _, hupto.next hc⟩, h.2⟩

/-- From a point that has been reached to the end. -/
theorem patches_land (hnodup : (pre ++ rest).Nodup)
    (hall : applyAll git base (pre ++ rest) = some t)
    (h : Passed git base (pre ++ rest) pre.length s) :
    Proc.Lands (rest.forM (applyPatch git)) s (3 * rest.length)
      (fun _ => Passed git base (pre ++ rest) (pre ++ rest).length)
      (LeftAt git base (pre ++ rest)) := by
  induction rest generalizing pre s with
  | nil =>
      rw [List.append_nil] at h ⊢
      exact Proc.lands_pure h
  | cons p rest ih =>
      have hsplit : pre ++ p :: rest = (pre ++ [p]) ++ rest := by simp
      rw [List.length_cons, Nat.mul_succ, Nat.add_comm]
      apply Proc.Lands.seq (applyPatch_lands hnodup hall h)
      intro _ s' h'
      rw [hsplit] at hnodup hall h' ⊢
      apply ih hnodup hall
      rw [List.length_append]
      exact h'

theorem Passed.setGit {i : Nat} (h : Passed git base patches i s) (b : Bool) :
    Passed git base patches i { s with git := b } := by
  obtain ⟨⟨n, hn, hupto⟩, hdone⟩ := h
  exact ⟨⟨n, hn, hupto.content, hupto.stamps⟩, hdone⟩

theorem patch_lands (hnodup : patches.Nodup) (hall : applyAll git base patches = some t)
    (h : Passed git base patches 0 s) :
    Proc.Lands (patch git patches) s (1 + (3 * patches.length + 1))
      (fun _ s' => Passed git base patches patches.length s' ∧ (patches ≠ [] → s'.git = false))
      (LeftAt git base patches) := by
  apply Proc.lands_when
  · intro _
    apply Proc.Lands.bind
    apply Proc.lands_step (h.left rfl)
    have hstart : Proc.Lands _ _ _ _ (LeftAt git base ([] ++ patches)) :=
      patches_land hnodup hall (h.setGit true)
    apply hstart.seq
    intro _ s' h'
    apply Proc.lands_step (h'.left rfl)
    exact ⟨h'.setGit false, fun _ => rfl⟩
  · intro hempty
    rw [Bool.not_eq_false', List.isEmpty_iff] at hempty
    rw [hempty] at h ⊢
    exact ⟨h, fun hne => absurd rfl hne⟩

theorem invokePatch_lands (hnodup : patches.Nodup) (hall : applyAll git base patches = some t)
    (h : Going git base patches s) :
    Proc.Lands (invokePatch git patches) s (1 + (3 * patches.length + 1) + 1)
      (fun _ s' => Going git base patches s' ∧ s'.done = true) (LeftAt git base patches) := by
  apply Proc.lands_look_bind
  apply Proc.lands_when
  · intro hnew
    obtain ⟨n, hupto⟩ := h.upto
    apply Proc.Lands.seq (patch_lands hnodup hall ⟨⟨n, Nat.zero_le n, hupto⟩, by simpa using hnew⟩)
    rintro _ s' ⟨hpassed, hgit⟩
    apply Proc.lands_step (hpassed.left rfl)
    obtain ⟨⟨n', hn', hupto'⟩, -⟩ := hpassed
    have hcontent := hupto'.content
    rw [List.take_of_length_le hn'] at hcontent
    exact ⟨⟨⟨n', hupto'.content, hupto'.stamps⟩, fun _ => ⟨hcontent, hgit⟩⟩, rfl⟩
  · intro hdone
    exact ⟨h, by simpa using hdone⟩

/-! ## Any number of runs -/

/-- What is left of the source directory by runs that may be ended, but not inside of a patch. -/
inductive Resumed (git : Git T) (base : T) (patches : List Str) : Source T → Prop
  | extracted (b : Bool) : Resumed git base patches ⟨base, fun _ => false, b, false⟩
  | ended {s : Source T} {n : Nat} {e : PatchPlace} {m : Machine (Source T)} :
      Resumed git base patches s → (invokePatch git patches).run ⟨s, n⟩ = .error e m → ¬ e.Inside →
      Resumed git base patches m.state
  | returned {s : Source T} {n : Nat} {m : Machine (Source T)} :
      Resumed git base patches s → (invokePatch git patches).run ⟨s, n⟩ = .ok () m →
      Resumed git base patches m.state

theorem Resumed.going (hnodup : patches.Nodup) (hall : applyAll git base patches = some t)
    (h : Resumed git base patches s) : Going git base patches s := by
  induction h with
  | extracted b => exact ⟨⟨0, rfl, fun p _ => by simp⟩, fun hdone => by cases hdone⟩
  | ended _ hrun hout ih =>
      exact ((invokePatch_lands hnodup hall ih).ends.of_error hrun).2 hout
  | returned _ hrun ih => exact ((invokePatch_lands hnodup hall ih).ends.of_ok hrun).1

/-- However often patching has been ended between two patches, it goes on where it was: no patch
fails that would not have failed at once, and when a run gets through, which it does if it is
left alone, each patch is in the tree once and in its order, and there is no repository left. -/
theorem patching_resumes (hnodup : patches.Nodup) (hall : applyAll git base patches = some t)
    (h : Resumed git base patches s) :
    (∀ n m, (invokePatch git patches).run ⟨s, n⟩ = .ok () m →
      m.state.content = t ∧ (patches ≠ [] → m.state.git = false)) ∧
    (∀ n e m, (invokePatch git patches).run ⟨s, n⟩ = .error e m → e.isFailed = false) ∧
    ∃ n m, (invokePatch git patches).run ⟨s, n⟩ = .ok () m := by
  have hlands := invokePatch_lands hnodup hall (h.going hnodup hall)
  refine ⟨fun n m hrun => ?_, fun n e m hrun => (hlands.ends.of_error hrun).1, ?_⟩
  · obtain ⟨hgoing, hdone⟩ := hlands.ends.of_ok hrun
    obtain ⟨hcontent, hgit⟩ := hgoing.done hdone
    exact ⟨Option.some.inj (hcontent.symm.trans hall), hgit⟩
  · obtain ⟨_, m, hrun⟩ := hlands.returns fun _ _ _ hnever => hnever
    exact ⟨_, m, hrun⟩

/-- A tree with the names of the patches it has; one it has is not taken again. -/
def named : Git (List Str) where
  apply p c := if p ∈ c then none else some (c ++ [p])
  torn _ c := c

def twoPatches : List Str := ["fix-build.patch".toList, "musl.patch".toList]

/-- What is left when patching is ended before the second patch. -/
def halfPatched : Source (List Str) where
  content := ["fix-build.patch".toList]
  stamps q := q = "fix-build.patch".toList || false
  git := true
  done := false

theorem halfPatched_resumed : Resumed named [] twoPatches halfPatched :=
  .ended (n := 4) (e := .opening) (m := ⟨halfPatched, 0⟩) (.extracted false) (by rfl) (fun h => h)

theorem halfPatched_resumes :
    (∀ n m, (invokePatch named twoPatches).run ⟨halfPatched, n⟩ = .ok () m →
      m.state.content = twoPatches ∧ (twoPatches ≠ [] → m.state.git = false)) ∧
    (∀ n e m, (invokePatch named twoPatches).run ⟨halfPatched, n⟩ = .error e m →
      e.isFailed = false) ∧
    ∃ n m, (invokePatch named twoPatches).run ⟨halfPatched, n⟩ = .ok () m :=
  patching_resumes (by decide) (by decide) halfPatched_resumed

end Cbuild.Resume
