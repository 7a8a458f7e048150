import Mathlib.Logic.Basic

/-! # Programs that raise, with a bound on their recursion

A recursive program that may raise is modelled with fuel: it returns, it raises,
or the model stops before the program does. The lemmas say what each of the
three means for a program in `do` notation.
-/

namespace Cbuild.Lib

universe u

variable {ε α β : Type u}

/-- A program that may raise an `ε`; no result when the fuel is used up. -/
abbrev Fueled (ε α : Type u) : Type u := ExceptT ε Option α

namespace Fueled

def outOfFuel : Fueled ε α := ExceptT.mk none

def Returns (x : Fueled ε α) (a : α) : Prop := x.run = some (.ok a)

def Raises (x : Fueled ε α) (e : ε) : Prop := x.run = some (.error e)

/-- The fuel is used up before the program ends. -/
def Stops (x : Fueled ε α) : Prop := x.run = none

theorem ends_of_not_stops {x : Fueled ε α} (h : ¬ x.Stops) :
    (∃ a, x.Returns a) ∨ ∃ e, x.Raises e := by
  unfold Stops at h
  unfold Returns Raises
  cases hx : x.run with
  | none => exact absurd hx h
  | some r =>
      cases r with
      | ok a => exact Or.inl ⟨a, rfl⟩
      | error e => exact Or.inr ⟨e, rfl⟩

theorem Returns.unique {x : Fueled ε α} {a b : α} (h : x.Returns a) (h' : x.Returns b) : a = b := by
  have heq := h.symm.trans h'
  cases heq
  rfl

theorem Returns.not_raises {x : Fueled ε α} {a : α} {e : ε} (h : x.Returns a) : ¬ x.Raises e := by
  intro h'
  have heq := h.symm.trans h'
  cases heq

theorem Raises.unique {x : Fueled ε α} {e e' : ε} (h : x.Raises e) (h' : x.Raises e') : e = e' := by
  have heq := h.symm.trans h'
  cases heq
  rfl

/-- The program returns a value that passes the check. -/
def returnsWith (p : α → Bool) (x : Fueled ε α) : Bool :=
  match x.run with
  | some (.ok a) => p a
  | _ => false

theorem exists_returns {x : Fueled ε α} {p : α → Bool} (h : x.returnsWith p = true) :
    ∃ a, x.Returns a ∧ p a = true := by
  unfold returnsWith at h
  split at h
  · rename_i a hx
    exact ⟨a, hx, h⟩
  · contradiction

@[simp] theorem pure_returns {a b : α} : (pure a : Fueled ε α).Returns b ↔ a = b := by
  simp [Returns]

@[simp] theorem pure_stops {a : α} : ¬ (pure a : Fueled ε α).Stops := by simp [Stops]

@[simp] theorem throw_returns {e : ε} {a : α} : ¬ (throw e : Fueled ε α).Returns a := by
  simp [Returns]

@[simp] theorem throw_stops {e : ε} : ¬ (throw e : Fueled ε α).Stops := by simp [Stops]

@[simp] theorem lift_returns {x : Except ε α} {a : α} :
    (liftM x : Fueled ε α).Returns a ↔ x = .ok a := by
  change some x = some (.ok a) ↔ x = .ok a
  exact Option.some_inj

@[simp] theorem lift_stops {x : Except ε α} : ¬ (liftM x : Fueled ε α).Stops :=
  Option.some_ne_none x

theorem bind_returns {x : Fueled ε α} {f : α → Fueled ε β} {b : β} :
    (x >>= f).Returns b ↔ ∃ a, x.Returns a ∧ (f a).Returns b := by
  unfold Returns
  rw [ExceptT.run_bind]
  cases hx : x.run with
  | none => simp
  | some r => cases r <;> simp

theorem bind_stops {x : Fueled ε α} {f : α → Fueled ε β} :
    (x >>= f).Stops ↔ x.Stops ∨ ∃ a, x.Returns a ∧ (f a).Stops := by
  unfold Stops Returns
  rw [ExceptT.run_bind]
  cases hx : x.run with
  | none => simp
  | some r => cases r <;> simp

@[simp] theorem pure_raises {a : α} {e : ε} : ¬ (pure a : Fueled ε α).Raises e := by
  simp [Raises]

@[simp] theorem throw_raises {e e' : ε} : (throw e : Fueled ε α).Raises e' ↔ e = e' := by
  simp [Raises]

@[simp] theorem lift_raises {x : Except ε α} {e : ε} :
    (liftM x : Fueled ε α).Raises e ↔ x = .error e := by
  show some x = some (.error e) ↔ x = .error e
  exact Option.some_inj

theorem bind_raises {x : Fueled ε α} {f : α → Fueled ε β} {e : ε} :
    (x >>= f).Raises e ↔ x.Raises e ∨ ∃ a, x.Returns a ∧ (f a).Raises e := by
  unfold Raises Returns
  rw [ExceptT.run_bind]
  cases hx : x.run with
  | none => simp
  | some r => cases r <;> simp

/-- The same program, its exceptions inside those of another. -/
def mapError {ε' : Type u} (f : ε → ε') (x : Fueled ε α) : Fueled ε' α :=
  ExceptT.mk (x.run.map (Except.mapError f))

theorem mapError_of_returns {ε' : Type u} (f : ε → ε') {x : Fueled ε α} {a : α} (h : x.Returns a) :
    (x.mapError f).run = some (.ok a) := by
  show x.run.map (Except.mapError f) = some (.ok a)
  rw [show x.run = some (.ok a) from h]
  rfl

theorem mapError_of_raises {ε' : Type u} (f : ε → ε') {x : Fueled ε α} {e : ε} (h : x.Raises e) :
    (x.mapError f).Raises (f e) := by
  show x.run.map (Except.mapError f) = some (.error (f e))
  rw [show x.run = some (.error e) from h]
  rfl

section

variable {I : β → Prop} {f : β → α → Fueled ε β} {l : List α} {b : β}

/-- A loop that raises does so in one of its passes. -/
theorem foldlM_raises (hstep : ∀ b b' a, I b → (f b a).Returns b' → I b') (h₀ : I b) {e : ε}
    (h : Raises (l.foldlM f b) e) : ∃ a ∈ l, ∃ b', I b' ∧ (f b' a).Raises e := by
  induction l generalizing b with
  | nil => exact absurd h pure_raises
  | cons a l ih =>
      rw [List.foldlM_cons, bind_raises] at h
      obtain h | ⟨b₁, hfirst, hrest⟩ := h
      · exact ⟨a, List.mem_cons_self, b, h₀, h⟩
      · obtain ⟨a', ha', hb⟩ := ih (hstep b b₁ a h₀ hfirst) hrest
        exact ⟨a', List.mem_cons_of_mem a ha', hb⟩

/-- A loop that runs out of fuel does so in one of its passes. -/
theorem foldlM_stops (hstep : ∀ b b' a, I b → (f b a).Returns b' → I b') (h₀ : I b)
    (h : Stops (l.foldlM f b)) : ∃ a ∈ l, ∃ b', I b' ∧ (f b' a).Stops := by
  induction l generalizing b with
  | nil => exact absurd h pure_stops
  | cons a l ih =>
      rw [List.foldlM_cons, bind_stops] at h
      obtain h | ⟨b₁, hfirst, hrest⟩ := h
      · exact ⟨a, List.mem_cons_self, b, h₀, h⟩
      · obtain ⟨a', ha', hb⟩ := ih (hstep b b₁ a h₀ hfirst) hrest
        exact ⟨a', List.mem_cons_of_mem a ha', hb⟩

end

/-- A loop that returns has returned from each of its passes. -/
theorem foldlM_passes {f : β → α → Fueled ε β} {l : List α} {b b' : β}
    (h : Returns (l.foldlM f b) b') {a : α} (ha : a ∈ l) : ∃ c c', (f c a).Returns c' := by
  induction l generalizing b with
  | nil => exact absurd ha List.not_mem_nil
  | cons a₁ l ih =>
      rw [List.foldlM_cons, bind_returns] at h
      obtain ⟨b₁, hfirst, hrest⟩ := h
      rcases List.mem_cons.mp ha with rfl | ha
      · exact ⟨b, b₁, hfirst⟩
      · exact ih hrest ha

/-- A loop that returns is followed by another one, pass by pass. -/
theorem foldlM_follows {ε' γ : Type u} {R : β → γ → Prop} {f : β → α → Fueled ε β}
    {g : γ → α → Fueled ε' γ}
    (hstep : ∀ b c a b', R b c → (f b a).Returns b' → ∃ c', (g c a).Returns c' ∧ R b' c')
    (l : List α) {b b' : β} {c : γ} (hR : R b c) (h : Returns (l.foldlM f b) b') :
    ∃ c', Returns (l.foldlM g c) c' ∧ R b' c' := by
  induction l generalizing b c with
  | nil =>
      rw [List.foldlM_nil, pure_returns] at h
      subst h
      exact ⟨c, pure_returns.mpr rfl, hR⟩
  | cons a l ih =>
      rw [List.foldlM_cons, bind_returns] at h
      obtain ⟨b₁, hfirst, hrest⟩ := h
      obtain ⟨c₁, hc₁, hR₁⟩ := hstep b c a b₁ hR hfirst
      obtain ⟨c', hc', hR'⟩ := ih hR₁ hrest
      refine ⟨c', ?_, hR'⟩
      rw [List.foldlM_cons, bind_returns]
      exact ⟨c₁, hc₁, hc'⟩

end Fueled

/-- What a program without fuel returns. -/
theorem except_bind_eq_ok {x : Except ε α} {f : α → Except ε β} {b : β} :
    (x >>= f) = .ok b ↔ ∃ a, x = .ok a ∧ f a = .ok b := by
  cases x with
  | error e =>
      constructor
      · intro h
        nomatch h
      · intro ⟨_, h, _⟩
        nomatch h
  | ok a =>
      constructor
      · intro h
        exact ⟨a, rfl, h⟩
      · intro ⟨a', ha, hb⟩
        cases ha
        exact hb

theorem mapError_eq_ok {ε' : Type u} {x : Except ε α} {f : ε → ε'} {a : α} :
    x.mapError f = .ok a ↔ x = .ok a := by
  cases x with
  | error e => constructor <;> intro h <;> cases h
  | ok a' => exact ⟨fun h => by cases h; rfl, fun h => by cases h; rfl⟩

/-- What each pass of a loop preserves, the loop preserves. -/
theorem foldlM_invariant {I : β → Prop} {f : β → α → Except ε β} {l : List α} {b b' : β}
    (hstep : ∀ b b', ∀ a ∈ l, I b → f b a = .ok b' → I b') (h₀ : I b)
    (h : l.foldlM f b = .ok b') : I b' := by
  induction l generalizing b with
  | nil =>
      cases h
      exact h₀
  | cons a l ih =>
      rw [List.foldlM_cons] at h
      obtain ⟨b₁, hb₁, hrest⟩ := except_bind_eq_ok.mp h
      exact ih (fun b b' a' ha' => hstep b b' a' (List.mem_cons_of_mem a ha'))
        (hstep b b₁ a List.mem_cons_self h₀ hb₁) hrest

/-- What the pass over an item yields, and no other pass takes away, is there at the end. -/
theorem foldlM_yields {P : α → β → Prop} {f : β → α → Except ε β} {l : List α} {b b' : β}
    (hyields : ∀ b b' a, f b a = .ok b' → P a b')
    (hkeeps : ∀ b b' a a', f b a' = .ok b' → P a b → P a b')
    (h : l.foldlM f b = .ok b') : ∀ a ∈ l, P a b' := by
  induction l generalizing b with
  | nil => intro a ha; nomatch ha
  | cons x l ih =>
      rw [List.foldlM_cons] at h
      obtain ⟨b₁, hb₁, hrest⟩ := except_bind_eq_ok.mp h
      intro a ha
      rcases List.mem_cons.mp ha with rfl | ha
      · exact foldlM_invariant (fun b b' a' _ hP hb => hkeeps b b' a a' hb hP)
          (hyields b b₁ a hb₁) hrest
      · exact ih hrest a ha

end Cbuild.Lib
