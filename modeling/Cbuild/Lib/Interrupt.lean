import Cbuild.Lib.Wp

/-! # Programs that may be interrupted

A program changes a state step by step, and may be ended before any of its steps. How many steps
it makes is decided from outside. `Ends x s Q E` says that `x`, started in `s`, returns in a state
that meets `Q`, and that wherever it is ended the state meets `E` with the place it is at.
-/

namespace Cbuild.Lib

structure Machine (σ : Type) where
  state : σ
  /-- The steps that are made before the interruption. -/
  left : Nat

abbrev Proc (π σ α : Type) : Type := EStateM π (Machine σ) α

namespace Proc

variable {π σ α β γ : Type}

/-- The program is at `place` when it is ended before the step. -/
def step (place : π) (f : σ → σ) : Proc π σ Unit := fun m =>
  match m.left with
  | 0 => .error place m
  | left + 1 => .ok () ⟨f m.state, left⟩

def look : Proc π σ σ := fun m => .ok m.state m

/-- `if c: x` -/
def when (c : Bool) (x : Proc π σ Unit) : Proc π σ Unit := if c then x else pure ()

def Ends (x : Proc π σ α) (s : σ) (Q : α → σ → Prop) (E : π → σ → Prop) : Prop :=
  ∀ n, wp x (fun a m => Q a m.state) (fun e m => E e m.state) ⟨s, n⟩

variable {Q : α → σ → Prop} {E : π → σ → Prop} {s : σ}

theorem ends_pure {a : α} (h : Q a s) : Ends (pure a : Proc π σ α) s Q E := fun _ => h

theorem ends_throw {e : π} (h : E e s) : Ends (throw e : Proc π σ α) s Q E := fun _ => h

theorem ends_look {Q : σ → σ → Prop} (h : Q s s) : Ends (look : Proc π σ σ) s Q E := fun _ => h

theorem ends_step {Q : Unit → σ → Prop} {place : π} {f : σ → σ} (hE : E place s)
    (hQ : Q () (f s)) : Ends (step place f) s Q E := by
  intro n
  cases n with
  | zero => exact hE
  | succ n => exact hQ

theorem Ends.bind {Q : β → σ → Prop} {x : Proc π σ α} {f : α → Proc π σ β}
    (h : Ends x s (fun a s' => Ends (f a) s' Q E) E) : Ends (x >>= f) s Q E := by
  intro n
  rw [wp_bind]
  apply wp_mono (h n)
  · intro a m hm
    exact hm m.left
  · intro e m hm
    exact hm

theorem Ends.mono {Q' : α → σ → Prop} {E' : π → σ → Prop} {x : Proc π σ α} (h : Ends x s Q E)
    (hQ : ∀ a s', Q a s' → Q' a s') (hE : ∀ e s', E e s' → E' e s') : Ends x s Q' E' := by
  intro n
  apply wp_mono (h n)
  · intro a m
    exact hQ a m.state
  · intro e m
    exact hE e m.state

theorem ends_trivial (x : Proc π σ α) : Ends x s (fun _ _ => True) (fun _ _ => True) := by
  intro n
  unfold wp
  split
  · trivial
  · trivial

/-- The state is looked at before what follows. -/
theorem ends_look_bind {f : σ → Proc π σ α} (h : Ends (f s) s Q E) :
    Ends (look >>= f) s Q E := Ends.bind (ends_look h)

theorem ends_step_bind {place : π} {f : σ → σ} {k : Unit → Proc π σ α} (hE : E place s)
    (h : Ends (k ()) (f s) Q E) : Ends (step place f >>= k) s Q E :=
  Ends.bind (ends_step hE h)

theorem ends_ite {c : Prop} [Decidable c] {x y : Proc π σ α} (hx : c → Ends x s Q E)
    (hy : ¬ c → Ends y s Q E) : Ends (if c then x else y) s Q E := by
  by_cases h : c
  · rw [if_pos h]
    exact hx h
  · rw [if_neg h]
    exact hy h

theorem ends_when {Q : Unit → σ → Prop} {c : Bool} {x : Proc π σ Unit}
    (hx : c = true → Ends x s Q E) (h : c = false → Q () s) : Ends (when c x) s Q E := by
  apply ends_ite hx
  intro hc
  exact ends_pure (h (Bool.eq_false_iff.mpr hc))

/-! ## Invariants -/

/-- The program keeps `I`, and wherever it is ended meets `E`. -/
def Keeps (I : σ → Prop) (x : Proc π σ α) (E : π → σ → Prop) : Prop :=
  ∀ s, I s → Ends x s (fun _ => I) E

variable {I : σ → Prop}

theorem Keeps.ends {x : Proc π σ α} (h : Keeps I x E) (hs : I s) : Ends x s (fun _ => I) E :=
  h s hs

theorem Keeps.pure (a : α) : Keeps I (pure a : Proc π σ α) E := fun _ h => ends_pure h

theorem Keeps.throw {e : π} (hE : ∀ s, I s → E e s) : Keeps I (throw e : Proc π σ α) E :=
  fun s h => ends_throw (hE s h)

theorem Keeps.step {place : π} {f : σ → σ} (hE : ∀ s, I s → E place s)
    (hf : ∀ s, I s → I (f s)) : Keeps I (step place f) E :=
  fun s h => ends_step (hE s h) (hf s h)

theorem Keeps.bind {x : Proc π σ α} {f : α → Proc π σ β} (hx : Keeps I x E)
    (hf : ∀ a, Keeps I (f a) E) : Keeps I (x >>= f) E := by
  intro s h
  apply Ends.bind
  exact (hx s h).mono (fun a s' hs' => hf a s' hs') (fun _ _ he => he)

theorem Keeps.look {f : σ → Proc π σ α} (h : ∀ s, I s → Ends (f s) s (fun _ => I) E) :
    Keeps I (look >>= f) E := fun s hs => ends_look_bind (h s hs)

theorem Keeps.when {c : Bool} {x : Proc π σ Unit} (hx : c = true → Keeps I x E) :
    Keeps I (when c x) E := by
  intro s h
  exact ends_when (fun hc => hx hc s h) (fun _ => h)

theorem Keeps.ite {c : Prop} [Decidable c] {x y : Proc π σ α} (hx : c → Keeps I x E)
    (hy : ¬ c → Keeps I y E) : Keeps I (if c then x else y) E := by
  intro s h
  exact ends_ite (fun hc => hx hc s h) (fun hc => hy hc s h)

theorem Keeps.forM {f : γ → Proc π σ PUnit} (l : List γ) (hf : ∀ x ∈ l, Keeps I (f x) E) :
    Keeps I (l.forM f) E := by
  induction l with
  | nil => exact fun _ h => ends_pure h
  | cons x l ih =>
      show Keeps I (f x >>= fun _ => l.forM f) E
      apply Keeps.bind (hf x List.mem_cons_self)
      exact fun _ => ih fun y hy => hf y (List.mem_cons_of_mem _ hy)

/-- The states in which a run may end. -/
theorem Ends.of_ok {x : Proc π σ α} (h : Ends x s Q E) {n : Nat} {a : α} {m : Machine σ}
    (hrun : x.run ⟨s, n⟩ = .ok a m) : Q a m.state :=
  (wp_of_ok hrun).mp (h n)

theorem Ends.of_error {x : Proc π σ α} (h : Ends x s Q E) {n : Nat} {e : π} {m : Machine σ}
    (hrun : x.run ⟨s, n⟩ = .error e m) : E e m.state :=
  (wp_of_error hrun).mp (h n)

/-! ## Left alone -/

/-- The program needs no more than `k` steps to return or to raise one of the exceptions `T`, and
wherever it is ended before it meets `E`. -/
def Lands (x : Proc π σ α) (s : σ) (k : Nat) (Q : α → σ → Prop) (E : π → σ → Prop)
    (T : π → Prop := fun _ => False) : Prop :=
  ∀ n, wp x (fun a m => Q a m.state ∧ n ≤ m.left + k)
    (fun e m => E e m.state ∧ (n < k ∨ T e)) ⟨s, n⟩

variable {k k' : Nat} {T : π → Prop}

theorem lands_pure {a : α} (h : Q a s) : Lands (pure a : Proc π σ α) s 0 Q E T :=
  fun n => ⟨h, Nat.le_refl n⟩

theorem lands_step {Q : Unit → σ → Prop} {place : π} {f : σ → σ} (hE : E place s)
    (h : Q () (f s)) : Lands (step place f) s 1 Q E T := by
  intro n
  cases n with
  | zero => exact ⟨hE, Or.inl Nat.zero_lt_one⟩
  | succ n => exact ⟨h, Nat.le_refl _⟩

theorem lands_look_bind {f : σ → Proc π σ α} (h : Lands (f s) s k Q E T) :
    Lands (look >>= f) s k Q E T := by
  intro n
  rw [wp_bind]
  exact h n

theorem Lands.mono {Q' : α → σ → Prop} {E' : π → σ → Prop} {x : Proc π σ α}
    (h : Lands x s k Q E T) (hQ : ∀ a s', Q a s' → Q' a s') (hE : ∀ e s', E e s' → E' e s')
    (hk : k ≤ k') : Lands x s k' Q' E' T := by
  intro n
  apply wp_mono (h n)
  · rintro a m ⟨hm, hleft⟩
    exact ⟨hQ a _ hm, Nat.le_trans hleft (Nat.add_le_add_left hk _)⟩
  · rintro e m ⟨hm, hleft⟩
    exact ⟨hE e _ hm, hleft.imp (fun hlt => Nat.lt_of_lt_of_le hlt hk) id⟩

theorem Lands.bind {Q : β → σ → Prop} {x : Proc π σ α} {f : α → Proc π σ β}
    (h : Lands x s k (fun a s' => Lands (f a) s' k' Q E T) E T) :
    Lands (x >>= f) s (k + k') Q E T := by
  intro n
  rw [wp_bind]
  apply wp_mono (h n)
  · rintro a m ⟨hm, hleft⟩
    apply wp_mono (hm m.left)
    · rintro b m' ⟨hb, hleft'⟩
      exact ⟨hb, by omega⟩
    · rintro e m' ⟨he, hleft'⟩
      exact ⟨he, hleft'.imp (fun hlt => by omega) id⟩
  · rintro e m ⟨he, hleft⟩
    exact ⟨he, hleft.imp (Nat.lt_add_right k') id⟩

theorem Lands.imp {Q' : α → σ → Prop} {x : Proc π σ α} (h : Lands x s k Q E T)
    (hQ : ∀ a s', Q a s' → Q' a s') : Lands x s k Q' E T :=
  h.mono hQ (fun _ _ he => he) (Nat.le_refl k)

theorem Lands.seq {Q' : β → σ → Prop} {x : Proc π σ α} {f : α → Proc π σ β}
    (hx : Lands x s k Q E T) (hf : ∀ a s', Q a s' → Lands (f a) s' k' Q' E T) :
    Lands (x >>= f) s (k + k') Q' E T := (hx.imp hf).bind

theorem lands_step_bind {place : π} {g : σ → σ} {f : Unit → Proc π σ α} (hE : E place s)
    (h : Lands (f ()) (g s) k Q E T) : Lands (step place g >>= f) s (k + 1) Q E T := by
  rw [Nat.add_comm]
  exact Lands.bind (lands_step hE h)

theorem lands_when {Q : Unit → σ → Prop} {c : Bool} {x : Proc π σ Unit}
    (hx : c = true → Lands x s k Q E T) (h : c = false → Q () s) : Lands (when c x) s k Q E T := by
  cases c with
  | true => exact hx rfl
  | false => exact (lands_pure (h rfl)).mono (fun _ _ hQ => hQ) (fun _ _ hE => hE) (Nat.zero_le k)

/-- A check that is passed. -/
theorem lands_guard_bind {c : Bool} {x : Proc π σ Unit} {f : Unit → Proc π σ α} (hc : c = false)
    (h : Lands (f ()) s k Q E T) : Lands (when c x >>= f) s k Q E T := by
  rw [hc]
  exact h

/-- A check that is not passed. -/
theorem lands_raise_bind {e : π} {f : Unit → Proc π σ α} (hE : E e s) (hT : T e) :
    Lands (when true (throw e) >>= f) s k Q E T := fun _ => ⟨hE, Or.inr hT⟩

theorem Lands.ends {x : Proc π σ α} (h : Lands x s k Q E T) : Ends x s Q E := by
  intro n
  apply wp_mono (h n)
  · exact fun _ _ hm => hm.1
  · exact fun _ _ hm => hm.1

/-- With its steps granted, and no exception that it may raise possible, it returns. -/
theorem Lands.returns {x : Proc π σ α} (h : Lands x s k Q E T) (hT : ∀ e s', E e s' → ¬ T e) :
    ∃ a m, x.run ⟨s, k⟩ = .ok a m := by
  cases hrun : x.run ⟨s, k⟩ with
  | ok a m => exact ⟨a, m, rfl⟩
  | error e m =>
      have hended := (wp_of_error hrun).mp (h k)
      exact absurd hended.2 (not_or.mpr ⟨Nat.lt_irrefl k, hT e _ hended.1⟩)

end Proc

end Cbuild.Lib
