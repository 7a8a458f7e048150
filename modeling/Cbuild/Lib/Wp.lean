import Mathlib.Logic.Basic

/-! # Weakest preconditions of stateful programs that raise

`wp x Q E s` says that the run of `x` from `s` ends in a state that meets `Q` with
the value returned, or `E` with the exception raised. The program is
deterministic, so every rule is an equivalence, and what a program does is
computed backwards, statement by statement.
-/

namespace Cbuild.Lib

variable {ε σ α β : Type}

def wp (x : EStateM ε σ α) (Q : α → σ → Prop) (E : ε → σ → Prop) (s : σ) : Prop :=
  match x.run s with
  | .ok a s' => Q a s'
  | .error e s' => E e s'

variable {Q : α → σ → Prop} {E : ε → σ → Prop} {s : σ}

@[simp] theorem wp_pure (a : α) : wp (pure a : EStateM ε σ α) Q E s ↔ Q a s := Iff.rfl

@[simp] theorem wp_throw (e : ε) : wp (throw e : EStateM ε σ α) Q E s ↔ E e s := Iff.rfl

@[simp] theorem wp_get {Q : σ → σ → Prop} : wp (get : EStateM ε σ σ) Q E s ↔ Q s s := Iff.rfl

@[simp] theorem wp_modify {Q : PUnit → σ → Prop} (f : σ → σ) :
    wp (modify f : EStateM ε σ PUnit) Q E s ↔ Q ⟨⟩ (f s) := Iff.rfl

@[simp] theorem wp_bind {Q : β → σ → Prop} (x : EStateM ε σ α) (f : α → EStateM ε σ β) :
    wp (x >>= f) Q E s ↔ wp x (fun a s' => wp (f a) Q E s') E s := by
  show wp (EStateM.bind x f) Q E s ↔ _
  unfold wp EStateM.run EStateM.bind
  cases x s <;> rfl

@[simp] theorem wp_map {Q : β → σ → Prop} (f : α → β) (x : EStateM ε σ α) :
    wp (f <$> x) Q E s ↔ wp x (fun a s' => Q (f a) s') E s := by
  show wp (EStateM.map f x) Q E s ↔ _
  unfold wp EStateM.run EStateM.map
  cases x s <;> rfl

@[simp] theorem wp_tryCatch (x : EStateM ε σ α) (handle : ε → EStateM ε σ α) :
    wp (tryCatch x handle) Q E s ↔ wp x Q (fun e s' => wp (handle e) Q E s') s := by
  show wp (EStateM.tryCatch x handle) Q E s ↔ _
  unfold wp EStateM.run EStateM.tryCatch
  cases x s <;> rfl

theorem wp_ite {c : Prop} [Decidable c] (x y : EStateM ε σ α) :
    wp (if c then x else y) Q E s ↔ (c → wp x Q E s) ∧ (¬ c → wp y Q E s) := by
  by_cases h : c <;> simp [h]

theorem wp_mono {Q' : α → σ → Prop} {E' : ε → σ → Prop} {x : EStateM ε σ α}
    (h : wp x Q E s) (hQ : ∀ a s', Q a s' → Q' a s') (hE : ∀ e s', E e s' → E' e s') :
    wp x Q' E' s := by
  unfold wp at h ⊢
  cases hx : x.run s with
  | ok a s' =>
      rw [hx] at h
      exact hQ a s' h
  | error e s' =>
      rw [hx] at h
      exact hE e s' h

theorem wp_of_ok {x : EStateM ε σ α} {a : α} {s' : σ} (h : x.run s = .ok a s') :
    wp x Q E s ↔ Q a s' := by
  unfold wp
  rw [h]

theorem wp_of_error {x : EStateM ε σ α} {e : ε} {s' : σ} (h : x.run s = .error e s') :
    wp x Q E s ↔ E e s' := by
  unfold wp
  rw [h]

end Cbuild.Lib
