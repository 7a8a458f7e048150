import Mathlib.Data.List.Chain

/-! # Runs of a state machine and of a loop

`Reaches step C s₀ s` says that a run from `s₀` ends in `s` and that each of its
steps meets `C`, a condition on the state before the step and the action. What
holds initially and is preserved by such steps holds in every state reached, and
a machine whose steps are steps of another one, or none, has runs of that one.

`scanl` lists the states a loop goes through; a relation holds along them when every step of
the loop respects it.
-/

namespace Cbuild.Lib

section

variable {S A T B : Type*}

inductive Reaches (step : S → A → Option S) (C : S → A → Prop) (s₀ : S) : S → Prop
  | start : Reaches step C s₀ s₀
  | next {s s' : S} (a : A) (h : Reaches step C s₀ s) (hC : C s a) (hs : step s a = some s') :
      Reaches step C s₀ s'

namespace Reaches

variable {step : S → A → Option S} {C : S → A → Prop} {s₀ s : S}

theorem invariant {I : S → Prop} (h₀ : I s₀)
    (hstep : ∀ s a s', I s → C s a → step s a = some s' → I s') (h : Reaches step C s₀ s) :
    I s := by
  induction h with
  | start => exact h₀
  | next a _ hC hs ih => exact hstep _ a _ ih hC hs

/-- A run is one of the machine that `f` maps it to, if every step is a step there or leaves the
mapped state alone; `I` is an invariant of the run. -/
theorem refines {I : S → Prop} {f : S → T} {step' : T → B → Option T} {D : T → B → Prop}
    (h₀ : I s₀) (hI : ∀ s a s', I s → C s a → step s a = some s' → I s')
    (hstep : ∀ s a s', I s → C s a → step s a = some s' →
      f s' = f s ∨ ∃ b, D (f s) b ∧ step' (f s) b = some (f s'))
    (h : Reaches step C s₀ s) : Reaches step' D (f s₀) (f s) := by
  induction h with
  | start => exact .start
  | next a h hC hs ih =>
      rcases hstep _ a _ (h.invariant h₀ hI) hC hs with heq | ⟨b, hD, hb⟩
      · rw [heq]
        exact ih
      · exact ih.next b hD hb

end Reaches

end

variable {α β : Type*}

theorem isChain_scanl_iff {R : β → β → Prop} {f : β → α → β} (l : List α) (s : β) :
    (l.scanl f s).IsChain R ↔
      ∀ ps x rest, l = ps ++ x :: rest → R (ps.foldl f s) (f (ps.foldl f s) x) := by
  induction l generalizing s with
  | nil => simp
  | cons a l ih =>
      rw [List.scanl_cons, List.isChain_cons, ih]
      simp only [List.head?_scanl, Option.mem_some_iff, forall_eq']
      constructor
      · intro h ps x rest hl
        cases ps with
        | nil =>
            cases hl
            exact h.1
        | cons b ps =>
            cases hl
            exact h.2 ps x rest rfl
      · intro h
        refine ⟨h [] a l rfl, fun ps x rest hl => ?_⟩
        exact h (a :: ps) x rest (by rw [hl]; rfl)

end Cbuild.Lib
