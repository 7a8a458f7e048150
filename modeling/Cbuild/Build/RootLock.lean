import Cbuild.Lib.FileLocks

/-! # The lock of the build root

`_build` runs `_build_locked` inside `with flock.lock(flock.rootlock())`, and
`_build_locked` builds missing dependencies by calling `build.build` again, which
opens and closes the lock file once more in the same process. The model has any
number of processes that share a build root, each with its stack of `_build`
calls. As far as the lock goes its runs are runs of sections under one lock file.
-/

namespace Cbuild.Build.RootLock

open Lib
open FileLocks (tryLock closeFd tryLock_none closeFd_self Keeps)

/-- Where a call of `_build` is with respect to the lock. -/
inductive Phase
  /-- Before `flock.lock`. -/
  | setup
  /-- The lock file is open, and `lockf` has not succeeded yet. -/
  | waiting
  /-- Inside the `with` block. -/
  | locked
  deriving DecidableEq

structure System (P : Type) where
  /-- The process that owns the lock on the file. -/
  holder : Option P
  /-- The calls of `_build` each process is in, the innermost first. -/
  calls : P → List Phase

inductive Act (P : Type)
  /-- `build.build` is called: by the command, or by `dependencies.install`. -/
  | call (p : P)
  /-- The call returns or raises before it gets to the lock. -/
  | finish (p : P)
  /-- `flock.lock` is entered. -/
  | enter (p : P)
  /-- One attempt of its loop. -/
  | lockf (p : P)
  /-- The loop is interrupted while it sleeps. -/
  | interrupt (p : P)
  /-- The `with` block is left, by returning or by an exception. -/
  | leave (p : P)

variable {P : Type} [DecidableEq P]

namespace System

def init : System P := ⟨none, fun _ => []⟩

/-- `p` goes on with the calls `cs`. -/
def setCalls (s : System P) (p : P) (cs : List Phase) : System P :=
  { s with calls := Function.update s.calls p cs }

/-- `p` is inside the guarded region. -/
def Inside (s : System P) (p : P) : Prop := Phase.locked ∈ s.calls p

/-- No two processes are inside the region. -/
def Exclusive (s : System P) : Prop := ∀ p q, s.Inside p → s.Inside q → p = q

end System

/-- One step of a process; `noLock` tells which processes run with `--no-lock`. -/
def step (noLock : P → Bool) (s : System P) : Act P → Option (System P)
  | .call p =>
      match s.calls p with
      | [] => some (s.setCalls p [.setup])
      | .locked :: cs => some (s.setCalls p (.setup :: .locked :: cs))
      | _ => none
  | .finish p =>
      match s.calls p with
      | .setup :: cs => some (s.setCalls p cs)
      | _ => none
  | .enter p =>
      match s.calls p with
      | .setup :: cs => some (s.setCalls p ((if noLock p then .locked else .waiting) :: cs))
      | _ => none
  | .lockf p =>
      match s.calls p with
      | .waiting :: cs =>
          match tryLock p s.holder with
          | some h => some ({ s with holder := h }.setCalls p (.locked :: cs))
          | none => some s
      | _ => none
  | .interrupt p =>
      match s.calls p with
      | .waiting :: cs => some (s.setCalls p cs)
      | _ => none
  | .leave p =>
      match s.calls p with
      | .locked :: cs =>
          -- the `flock` call before the `close` does nothing to a lock of `lockf`
          some ({ s with holder := if noLock p then s.holder else closeFd p s.holder }.setCalls p cs)
      | _ => none

/-- A build leaves the region only when no outer build of its process is inside it. -/
def KeepsLock (s : System P) : Act P → Prop
  | .leave p => ∀ cs, s.calls p = .locked :: cs → Phase.locked ∉ cs
  | _ => True

theorem inside_setCalls {s : System P} {p q : P} {cs : List Phase} :
    (s.setCalls p cs).Inside q ↔ if q = p then Phase.locked ∈ cs else s.Inside q := by
  unfold System.Inside System.setCalls
  by_cases hq : q = p
  · simp [hq]
  · simp [hq]

/-! ## Sections under one lock file -/

/-- A call that has come to the lock is a section under it. -/
def Phase.entry : Phase → Option (FileLocks.Entry Unit)
  | .setup => none
  | .waiting => some ⟨(), false⟩
  | .locked => some ⟨(), true⟩

/-- What the locks know of the calls. -/
def System.locks (s : System P) : FileLocks.System P Unit Unit where
  holder _ := s.holder
  entries p := (s.calls p).filterMap Phase.entry

/-- Every call but the innermost one is inside the region. -/
def Stacked (s : System P) : Prop := ∀ p, ∀ c ∈ (s.calls p).tail, c = .locked

omit [DecidableEq P] in
theorem mem_entries {cs : List Phase} :
    (⟨(), true⟩ : FileLocks.Entry Unit) ∈ cs.filterMap Phase.entry ↔ Phase.locked ∈ cs := by
  rw [List.mem_filterMap]
  constructor
  · intro h
    obtain ⟨c, hc, heq⟩ := h
    cases c with
    | setup => cases heq
    | waiting => cases heq
    | locked => exact hc
  · intro h
    exact ⟨_, h, rfl⟩

omit [DecidableEq P] in
theorem inside_locks {s : System P} {p : P} : s.locks.Inside p () ↔ s.Inside p := mem_entries

theorem locks_setCalls (s : System P) (p : P) (cs : List Phase) :
    (s.setCalls p cs).locks = s.locks.setEntries p (cs.filterMap Phase.entry) := by
  unfold System.locks System.setCalls FileLocks.System.setEntries
  congr 1
  funext q
  by_cases hq : q = p
  · simp [hq]
  · simp [hq]

/-- A call that has not come to the lock, or is gone from it, is none of its sections. -/
theorem locks_setCalls_of_eq {s : System P} {p : P} {cs : List Phase}
    (h : cs.filterMap Phase.entry = (s.calls p).filterMap Phase.entry) :
    (s.setCalls p cs).locks = s.locks := by
  rw [locks_setCalls, h]
  unfold FileLocks.System.setEntries System.locks
  rw [Function.update_eq_self]

theorem Stacked.setCalls {s : System P} (h : Stacked s) {p : P} {cs : List Phase}
    (hcs : ∀ c ∈ cs.tail, c = .locked) : Stacked (s.setCalls p cs) := by
  intro q c hc
  unfold System.setCalls at hc
  by_cases hq : q = p
  · rw [hq] at hc
    simp only [Function.update_self] at hc
    exact hcs c hc
  · simp only [Function.update_of_ne hq] at hc
    exact h q c hc

theorem step_stacked {noLock : P → Bool} {s s' : System P} {a : Act P} (h : Stacked s)
    (hs : step noLock s a = some s') : Stacked s' := by
  have hend : ∀ {p c cs}, s.calls p = c :: cs → ∀ c' ∈ cs, c' = .locked := by
    intro p c cs hcs c' hc'
    have hp := h p
    rw [hcs] at hp
    exact hp c' hc'
  have hpop : ∀ {p c cs}, s.calls p = c :: cs → Stacked (s.setCalls p cs) := fun hcs =>
    h.setCalls fun c' hc' => hend hcs c' (List.mem_of_mem_tail hc')
  cases a with
  | call p =>
      simp only [step] at hs
      split at hs
      · cases hs
        exact h.setCalls fun c hc => nomatch hc
      · rename_i cs hcs
        cases hs
        exact h.setCalls fun c hc => (List.mem_cons.mp hc).elim id (hend hcs c)
      · cases hs
  | finish p =>
      simp only [step] at hs
      split at hs
      · rename_i cs hcs
        cases hs
        exact hpop hcs
      · cases hs
  | enter p =>
      simp only [step] at hs
      split at hs
      · rename_i cs hcs
        cases hs
        exact h.setCalls (hend hcs)
      · cases hs
  | lockf p =>
      simp only [step] at hs
      split at hs
      · rename_i cs hcs
        split at hs
        · cases hs
          exact h.setCalls (hend hcs)
        · cases hs
          exact h
      · cases hs
  | interrupt p =>
      simp only [step] at hs
      split at hs
      · rename_i cs hcs
        cases hs
        exact hpop hcs
      · cases hs
  | leave p =>
      simp only [step] at hs
      split at hs
      · rename_i cs hcs
        cases hs
        exact hpop hcs
      · cases hs

omit [DecidableEq P] in
/-- A change of the lock is one of the lock file. -/
theorem locks_setHolder (s : System P) (held : Option P) :
    ({ s with holder := held } : System P).locks = s.locks.setHolder () held := by
  unfold System.locks FileLocks.System.setHolder
  congr 1

/-- Each step of a call is one of its section, or does nothing to the locks. -/
theorem step_refines {noLock : P → Bool} {s s' : System P} {a : Act P} (h : Stacked s)
    (hlock : ∀ p, noLock p = false) (hkeep : KeepsLock s a) (hs : step noLock s a = some s') :
    s'.locks = s.locks ∨ ∃ b, Keeps (fun _ => ()) noLock s.locks b ∧
      FileLocks.step (fun _ => ()) noLock s.locks b = some s'.locks := by
  have hentries : ∀ {p cs}, s.calls p = cs → s.locks.entries p = cs.filterMap Phase.entry :=
    fun hcs => congrArg (List.filterMap Phase.entry) hcs
  cases a with
  | call p =>
      left
      simp only [step] at hs
      split at hs
      · rename_i hcs
        cases hs
        exact locks_setCalls_of_eq (by rw [hcs]; rfl)
      · rename_i cs hcs
        cases hs
        exact locks_setCalls_of_eq (by rw [hcs]; rfl)
      · cases hs
  | finish p =>
      left
      simp only [step] at hs
      split at hs
      · rename_i cs hcs
        cases hs
        exact locks_setCalls_of_eq (by rw [hcs]; rfl)
      · cases hs
  | enter p =>
      right
      simp only [step, hlock p, Bool.false_eq_true, if_false] at hs
      split at hs
      · rename_i cs hcs
        cases hs
        refine ⟨.enter p (), hlock p, ?_⟩
        -- the calls around this one are inside the region, so none of them waits
        have houter : ∀ x es, s.locks.entries p ≠ ⟨x, false⟩ :: es := by
          intro x es hes
          rw [hentries hcs] at hes
          have hmem : (⟨(), false⟩ : FileLocks.Entry Unit) ∈ cs.filterMap Phase.entry := by
            change cs.filterMap Phase.entry = _ at hes
            rw [hes]
            exact List.mem_cons_self
          obtain ⟨c, hc, heq⟩ := List.mem_filterMap.mp hmem
          have hp := h p
          rw [hcs] at hp
          rw [hp c hc] at heq
          cases heq
        rw [locks_setCalls]
        simp only [FileLocks.step, hlock p]
        rw [hentries hcs]
        rfl
      · cases hs
  | lockf p =>
      simp only [step] at hs
      split at hs
      · rename_i cs hcs
        have hes := hentries hcs
        split at hs
        · rename_i held hl
          cases hs
          refine .inr ⟨.lockf p, trivial, ?_⟩
          rw [locks_setCalls, locks_setHolder s held]
          simp only [FileLocks.step, hes, List.filterMap_cons, Phase.entry]
          rw [show s.locks.holder () = s.holder from rfl, hl]
        · cases hs
          exact .inl rfl
      · cases hs
  | interrupt p =>
      right
      simp only [step] at hs
      split at hs
      · rename_i cs hcs
        cases hs
        refine ⟨.interrupt p, trivial, ?_⟩
        rw [locks_setCalls]
        simp only [FileLocks.step, hentries hcs, List.filterMap_cons, Phase.entry]
      · cases hs
  | leave p =>
      right
      simp only [step] at hs
      split at hs
      · rename_i cs hcs
        cases hs
        have hes := hentries hcs
        refine ⟨.leave p, ⟨hlock p, ?_⟩, ?_⟩
        · intro x es hes' y hy
          rw [hes] at hes'
          cases hes'
          exact absurd (mem_entries.mp hy) (hkeep cs hcs)
        · rw [locks_setCalls,
            locks_setHolder s (if noLock p then s.holder else closeFd p s.holder)]
          simp only [FileLocks.step, hes, List.filterMap_cons, Phase.entry]
          rfl
      · cases hs

/-- Whoever is inside the region owns the lock. -/
theorem owned_of_reaches {noLock : P → Bool} (hlock : ∀ p, noLock p = false) {s : System P}
    (h : Reaches (step noLock) KeepsLock System.init s) :
    FileLocks.Owned (fun _ => ()) s.locks := by
  have hinit : Stacked (System.init : System P) := fun p c hc => nomatch hc
  have hrun : Reaches (FileLocks.step (fun _ => ()) noLock) (Keeps (fun _ => ()) noLock)
      FileLocks.System.init s.locks :=
    h.refines hinit (fun _ _ _ hst _ hs => step_stacked hst hs)
      fun _ _ _ hst hkeep hs => step_refines hst hlock hkeep hs
  exact FileLocks.owned_of_reaches (fun _ _ hC => hC) hrun

/-- When all processes lock and no build leaves the region inside an outer one, the region is
exclusive in every state of every run. -/
theorem rootLock_exclusive {noLock : P → Bool} (hlock : ∀ p, noLock p = false) {s : System P}
    (h : Reaches (step noLock) KeepsLock System.init s) : s.Exclusive := by
  have howned := owned_of_reaches hlock h
  intro p q hp hq
  exact howned.exclusive (inside_locks.mpr hp) (inside_locks.mpr hq) rfl

/-- A process that waits for another one gets in when that one has left. -/
theorem rootLock_exclusive_handOver : ∃ s : System Bool, s.Inside true ∧ s.Exclusive := by
  have h : Reaches (step fun _ : Bool => false) KeepsLock System.init _ :=
    Reaches.start
    |>.next (Act.call false) trivial rfl
    |>.next (Act.enter false) trivial rfl
    |>.next (Act.lockf false) trivial rfl
    |>.next (Act.call true) trivial rfl
    |>.next (Act.enter true) trivial rfl
    |>.next (Act.lockf true) trivial rfl
    |>.next (Act.leave false) (fun cs hcs => by cases hcs; exact List.not_mem_nil) rfl
    |>.next (Act.lockf true) trivial rfl
  exact ⟨_, by unfold System.Inside; decide, rootLock_exclusive (fun _ => rfl) h⟩

/-- While one process waits, the other builds a missing dependency, which ends and closes the
file; then both are inside. -/
theorem nestedBuild_not_exclusive : ¬ ∀ s : System Bool,
    Reaches (step fun _ => false) (fun _ _ => True) System.init s → s.Exclusive := by
  intro hall
  have h : Reaches (step fun _ : Bool => false) (fun _ _ => True) System.init _ :=
    Reaches.start
    |>.next (.call false) trivial rfl
    |>.next (.enter false) trivial rfl
    |>.next (.lockf false) trivial rfl
    |>.next (.call false) trivial rfl
    |>.next (.enter false) trivial rfl
    |>.next (.lockf false) trivial rfl
    |>.next (.leave false) trivial rfl
    |>.next (.call true) trivial rfl
    |>.next (.enter true) trivial rfl
    |>.next (.lockf true) trivial rfl
  have hsame : false = true :=
    hall _ h false true (by unfold System.Inside; decide) (by unfold System.Inside; decide)
  contradiction

/-- A nested build that leaves the region gives up the lock its process still relies on. -/
theorem nested_leave_releases {noLock : P → Bool} (hlock : ∀ p, noLock p = false)
    {s s' : System P} (h : Reaches (step noLock) KeepsLock System.init s) {p : P}
    {cs : List Phase} (hcs : s.calls p = .locked :: cs) (hnested : Phase.locked ∈ cs)
    (hs : step noLock s (.leave p) = some s') : s'.holder = none ∧ s'.Inside p := by
  have hin : s.Inside p := by
    rw [System.Inside, hcs]
    exact List.mem_cons_self
  have hp : s.holder = some p := owned_of_reaches hlock h p () (inside_locks.mpr hin)
  simp only [step, hcs, hlock p, hp] at hs
  cases hs
  refine ⟨closeFd_self p, ?_⟩
  rw [inside_setCalls, if_pos rfl]
  exact hnested

/-- From there any process that waits gets in. -/
theorem nested_leave_lets_in {noLock : P → Bool} {s : System P} {p q : P} {cs : List Phase}
    (hpq : q ≠ p) (hfree : s.holder = none) (hp : s.Inside p) (hq : s.calls q = .waiting :: cs) :
    ∃ s', step noLock s (.lockf q) = some s' ∧ ¬ s'.Exclusive := by
  refine ⟨({ s with holder := some q } : System P).setCalls q (.locked :: cs), ?_, fun hex => ?_⟩
  · simp only [step, hq, hfree, tryLock_none]
  · refine hpq (hex q p ?_ ?_)
    · rw [inside_setCalls, if_pos rfl]
      exact List.mem_cons_self ..
    · rw [inside_setCalls, if_neg hpq.symm]
      exact hp

end Cbuild.Build.RootLock
