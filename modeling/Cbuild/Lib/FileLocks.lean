import Cbuild.Lib.Reach
import Mathlib.Logic.Function.Basic

/-! # Sections under file locks

Processes go through sections of code, each of which holds the lock of one file. A process may
enter a section inside another one, of the same file, too. The lock is one of `lockf`: it is owned
by a process and not by a descriptor, so that the owner may take it again, and closing any
descriptor of the file gives it up. As long as no process closes a file while it is inside another
section of it, whoever is inside a section owns the lock of its file.
-/

namespace Cbuild.Lib.FileLocks

/-! ## One lock -/

section

variable {P : Type*} [DecidableEq P]

/-- `lockf(fd, LOCK_EX | LOCK_NB)` by `p`, on a lock owned by `h`. -/
def tryLock (p : P) (h : Option P) : Option (Option P) :=
  if h = none ∨ h = some p then some (some p) else none

/-- `close(fd)` by `p`, for any descriptor of the file. -/
def closeFd (p : P) (h : Option P) : Option P := if h = some p then none else h

theorem tryLock_eq_some {p : P} {h h' : Option P} (hl : tryLock p h = some h') :
    h' = some p ∧ ∀ q, h = some q → q = p := by
  unfold tryLock at hl
  split at hl
  · rename_i hfree
    refine ⟨(Option.some.inj hl).symm, fun q hq => ?_⟩
    rcases hfree with hn | hp
    · rw [hn] at hq
      contradiction
    · rw [hp] at hq
      exact (Option.some.inj hq).symm
  · contradiction

@[simp] theorem tryLock_none (p : P) : tryLock p none = some (some p) := by simp [tryLock]

@[simp] theorem closeFd_self (p : P) : closeFd p (some p) = none := by simp [closeFd]

theorem closeFd_of_ne {p q : P} (hpq : q ≠ p) : closeFd p (some q) = some q := by
  simp [closeFd, hpq]

end

/-! ## The sections of the processes -/

/-- A section that a process has come to. -/
structure Entry (S : Type*) where
  sec : S
  /-- The lock has been taken; otherwise the process waits for it. -/
  inside : Bool

structure System (P F S : Type*) where
  /-- The process that owns the lock of a file. -/
  holder : F → Option P
  /-- The sections each process is in, the innermost first. -/
  entries : P → List (Entry S)

inductive Act (P S : Type*)
  | enter (p : P) (x : S)
  /-- One attempt to take the lock. -/
  | lockf (p : P)
  /-- The process gives up waiting. -/
  | interrupt (p : P)
  | leave (p : P)

section

variable {P F S : Type*}

namespace System

def init : System P F S := ⟨fun _ => none, fun _ => []⟩

def Inside (s : System P F S) (p : P) (x : S) : Prop := ⟨x, true⟩ ∈ s.entries p

section

variable [DecidableEq F]

def setHolder (s : System P F S) (f : F) (h : Option P) : System P F S :=
  { s with holder := Function.update s.holder f h }

@[simp] theorem entries_setHolder (s : System P F S) (f : F) (h : Option P) :
    (s.setHolder f h).entries = s.entries := rfl

@[simp] theorem holder_setHolder_self (s : System P F S) (f : F) (h : Option P) :
    (s.setHolder f h).holder f = h := Function.update_self ..

theorem holder_setHolder_of_ne (s : System P F S) {f g : F} (hne : g ≠ f) (h : Option P) :
    (s.setHolder f h).holder g = s.holder g := Function.update_of_ne hne ..

end

variable [DecidableEq P]

def setEntries (s : System P F S) (p : P) (es : List (Entry S)) : System P F S :=
  { s with entries := Function.update s.entries p es }

@[simp] theorem holder_setEntries (s : System P F S) (p : P) (es : List (Entry S)) :
    (s.setEntries p es).holder = s.holder := rfl

@[simp] theorem entries_setEntries_self (s : System P F S) (p : P) (es : List (Entry S)) :
    (s.setEntries p es).entries p = es := Function.update_self ..

theorem entries_setEntries_of_ne (s : System P F S) {p q : P} (h : q ≠ p) (es : List (Entry S)) :
    (s.setEntries p es).entries q = s.entries q := Function.update_of_ne h ..

end System

/-- Whoever is inside a section owns the lock of its file. -/
def Owned (file : S → F) (s : System P F S) : Prop :=
  ∀ p x, s.Inside p x → s.holder (file x) = some p

variable {file : S → F} {noLock : P → Bool} {s s' : System P F S}

theorem Owned.init : Owned file (System.init : System P F S) := by
  intro p x h
  unfold System.Inside System.init at h
  cases h

/-- Two processes are not inside sections of one file. -/
theorem Owned.exclusive (h : Owned file s) {p q : P} {x y : S} (hp : s.Inside p x)
    (hq : s.Inside q y) (hfile : file x = file y) : p = q := by
  have hp' := h p x hp
  have hq' := h q y hq
  rw [hfile] at hp'
  exact Option.some.inj (hp'.symm.trans hq')

variable [DecidableEq P]

/-- Entries that change no lock keep the invariant if they are inside nothing new. -/
theorem Owned.setEntries (h : Owned file s) {p : P} {es : List (Entry S)}
    (hin : ∀ x, ⟨x, true⟩ ∈ es → s.Inside p x) : Owned file (s.setEntries p es) := by
  intro q x hq
  unfold System.Inside at hq
  by_cases hqp : q = p
  · rw [hqp] at hq ⊢
    rw [System.entries_setEntries_self] at hq
    exact h p x (hin x hq)
  · rw [System.entries_setEntries_of_ne s hqp] at hq
    exact h q x hq

theorem setEntries_secs {p q : P} {es : List (Entry S)} {e : Entry S}
    (h : e ∈ (s.setEntries p es).entries q) (hsub : ∀ e ∈ es, ∃ e' ∈ s.entries p, e'.sec = e.sec) :
    ∃ e' ∈ s.entries q, e'.sec = e.sec := by
  by_cases hqp : q = p
  · rw [hqp, System.entries_setEntries_self] at h
    rw [hqp]
    exact hsub e h
  · rw [System.entries_setEntries_of_ne s hqp] at h
    exact ⟨e, h, rfl⟩

variable [DecidableEq F]

/-- One step of a process; `noLock` tells which processes do not lock. -/
def step (file : S → F) (noLock : P → Bool) (s : System P F S) : Act P S → Option (System P F S)
  | .enter p x =>
      match s.entries p with
      | ⟨_, false⟩ :: _ => none
      | es => some (s.setEntries p (⟨x, noLock p⟩ :: es))
  | .lockf p =>
      match s.entries p with
      | ⟨x, false⟩ :: es =>
          match tryLock p (s.holder (file x)) with
          | some h => some ((s.setHolder (file x) h).setEntries p (⟨x, true⟩ :: es))
          | none => some s
      | _ => none
  | .interrupt p =>
      match s.entries p with
      | ⟨_, false⟩ :: es => some (s.setEntries p es)
      | _ => none
  | .leave p =>
      match s.entries p with
      | ⟨x, true⟩ :: es =>
          let held := if noLock p then s.holder (file x) else closeFd p (s.holder (file x))
          some ((s.setHolder (file x) held).setEntries p es)
      | _ => none

/-- A process locks, and leaves no section of a file while it is inside another section of that
file. -/
def Keeps (file : S → F) (noLock : P → Bool) (s : System P F S) : Act P S → Prop
  | .enter p _ => noLock p = false
  | .leave p => noLock p = false ∧ ∀ x es, s.entries p = ⟨x, true⟩ :: es →
      ∀ y, ⟨y, true⟩ ∈ es → file y ≠ file x
  | _ => True

/-- The lock of a file changes hands in favour of `p` or of nobody. -/
theorem Owned.setHolder (h : Owned file s) {p : P} {f : F} {held : Option P} {es : List (Entry S)}
    (hothers : ∀ q x, q ≠ p → s.Inside q x → file x = f → held = some q)
    (hin : ∀ x, ⟨x, true⟩ ∈ es → file x ≠ f → s.Inside p x)
    (hheld : ∀ x, ⟨x, true⟩ ∈ es → file x = f → held = some p) :
    Owned file ((s.setHolder f held).setEntries p es) := by
  intro q x hq
  unfold System.Inside at hq
  rw [System.holder_setEntries]
  by_cases hqp : q = p
  · rw [hqp, System.entries_setEntries_self] at hq
    rw [hqp]
    by_cases hf : file x = f
    · rw [hf, System.holder_setHolder_self]
      exact hheld x hq hf
    · rw [System.holder_setHolder_of_ne s hf]
      exact h p x (hin x hq hf)
  · rw [System.entries_setEntries_of_ne _ hqp, System.entries_setHolder] at hq
    by_cases hf : file x = f
    · rw [hf, System.holder_setHolder_self]
      exact hothers q x hqp hq hf
    · rw [System.holder_setHolder_of_ne s hf]
      exact h q x hq

theorem step_owned {a : Act P S} (h : Owned file s) (hkeep : Keeps file noLock s a)
    (hs : step file noLock s a = some s') : Owned file s' := by
  cases a with
  | enter p x =>
      have hlock : noLock p = false := hkeep
      simp only [step, hlock] at hs
      split at hs
      · cases hs
      · cases hs
        refine h.setEntries (fun y hy => ?_)
        simpa [System.Inside] using hy
  | interrupt p =>
      simp only [step] at hs
      split at hs
      · rename_i x es hes
        cases hs
        refine h.setEntries (fun y hy => ?_)
        rw [System.Inside, hes]
        exact List.mem_cons_of_mem _ hy
      · cases hs
  | lockf p =>
      simp only [step] at hs
      split at hs
      · rename_i x es hes
        split at hs
        · rename_i held hl
          cases hs
          obtain ⟨hnew, hold⟩ := tryLock_eq_some hl
          apply h.setHolder
          · intro q y hqp hq hfile
            -- the lock was free or already owned by `p`, so nobody else was inside
            have hown := h q y hq
            rw [hfile] at hown
            exact absurd (hold q hown) hqp
          · intro y hy hfile
            rw [System.Inside, hes]
            rcases List.mem_cons.mp hy with heq | hy
            · cases heq
              exact absurd rfl hfile
            · exact List.mem_cons_of_mem _ hy
          · intro _ _ _
            exact hnew
        · cases hs
          exact h
      · cases hs
  | leave p =>
      obtain ⟨hlock, hother⟩ := hkeep
      simp only [step, hlock] at hs
      split at hs
      · rename_i x es hes
        cases hs
        apply h.setHolder
        · intro q y hqp hq hfile
          have hown := h q y hq
          rw [hfile] at hown
          rw [if_neg Bool.false_ne_true, hown, closeFd_of_ne hqp]
        · intro y hy _
          rw [System.Inside, hes]
          exact List.mem_cons_of_mem _ hy
        · intro y hy hfile
          exact absurd hfile (hother x es hes y hy)
      · cases hs

theorem owned_of_reaches {C : System P F S → Act P S → Prop}
    (hC : ∀ s a, C s a → Keeps file noLock s a)
    (h : Reaches (step file noLock) C System.init s) : Owned file s :=
  h.invariant Owned.init fun s a _ hs hCs hstep => step_owned hs (hC s a hCs) hstep

/-- A process is in no section that it has not entered. -/
theorem step_secs {a : Act P S} (hs : step file noLock s a = some s') {q : P} {e : Entry S}
    (he : e ∈ s'.entries q) :
    a = .enter q e.sec ∨ ∃ e' ∈ s.entries q, e'.sec = e.sec := by
  cases a with
  | enter p x =>
      simp only [step] at hs
      split at hs
      · cases hs
      · cases hs
        by_cases hqp : q = p
        · rw [hqp, System.entries_setEntries_self] at he
          rw [hqp]
          rcases List.mem_cons.mp he with heq | he
          · rw [heq]
            exact Or.inl rfl
          · exact Or.inr ⟨e, he, rfl⟩
        · rw [System.entries_setEntries_of_ne s hqp] at he
          exact Or.inr ⟨e, he, rfl⟩
  | interrupt p =>
      right
      simp only [step] at hs
      split at hs
      · rename_i x es hes
        cases hs
        apply setEntries_secs he
        intro e' he'
        rw [hes]
        exact ⟨e', List.mem_cons_of_mem _ he', rfl⟩
      · cases hs
  | lockf p =>
      right
      simp only [step] at hs
      split at hs
      · rename_i x es hes
        split at hs
        · cases hs
          apply setEntries_secs (s := s.setHolder _ _) he
          intro e' he'
          rw [System.entries_setHolder, hes]
          rcases List.mem_cons.mp he' with heq | he'
          · exact ⟨⟨x, false⟩, List.mem_cons_self, by rw [heq]⟩
          · exact ⟨e', List.mem_cons_of_mem _ he', rfl⟩
        · cases hs
          exact ⟨e, he, rfl⟩
      · cases hs
  | leave p =>
      right
      simp only [step] at hs
      split at hs
      · rename_i x es hes
        cases hs
        apply setEntries_secs (s := s.setHolder _ _) he
        intro e' he'
        rw [System.entries_setHolder, hes]
        exact ⟨e', List.mem_cons_of_mem _ he', rfl⟩
      · cases hs

/-- What every section has that is entered, every section has that a process is in. -/
theorem secs_of_reaches {C : System P F S → Act P S → Prop} {Q : S → Prop}
    (hC : ∀ s p x, C s (.enter p x) → Q x)
    (h : Reaches (step file noLock) C System.init s) : ∀ p, ∀ e ∈ s.entries p, Q e.sec := by
  apply h.invariant
  · intro p e he
    cases he
  · intro s a s' hQ hCs hs p e he
    rcases step_secs hs he with heq | ⟨e', he', hsec⟩
    · rw [heq] at hCs
      exact hC s p e.sec hCs
    · rw [← hsec]
      exact hQ p e' he'

end

end Cbuild.Lib.FileLocks
