import Cbuild.Apk.Token
import Cbuild.Lib.Fueled
import Cbuild.Lib.Search

/-! # The recursive dependency walk of bulk mode

`addDepsGraph` is `_add_deps_graph` of `runner.py`: it enters a template and its
build dependencies into the topological sorter, and recurses into every
dependency that is not yet in the shared visited set. Reading a dependency may
fail, and may change the state `env` of the caller. A template that has been read
may still raise when it is asked for its dependencies, which ends the walk. The
recursion is cut off by fuel; `addDepsGraph_not_stops` bounds the fuel a finite
tree of templates needs.
-/

namespace Cbuild.Bulk

open Lib

/-- What bulk mode looks at in a parsed template. -/
structure Tmpl where
  /-- The result of `get_build_deps`; `none` where it raises, as for a virtual dependency
  without a provider. The exception is never a `CbuildException`. -/
  buildDeps : Option (List Str)
  /-- Whether `broken` carries a reason. -/
  broken : Bool
  pkgver : Option Str
  pkgrel : Option Str
  deriving DecidableEq

/-- The dependencies that the template tells. -/
def Tmpl.deps (t : Tmpl) : List Str := t.buildDeps.getD []

/-- The `add` calls made on a `graphlib.TopologicalSorter`, in order. -/
structure DepGraph where
  adds : List (Str × List Str)
  deriving DecidableEq

namespace DepGraph

def empty : DepGraph := ⟨[]⟩

def add (g : DepGraph) (node : Str) (preds : List Str) : DepGraph := ⟨g.adds ++ [(node, preds)]⟩

/-- `d` has been declared a predecessor of `n`. -/
def Pred (g : DepGraph) (n d : Str) : Prop := ∃ ps, (n, ps) ∈ g.adds ∧ d ∈ ps

/-- Nodes enter the sorter in either position of an `add` call. -/
def Node (g : DepGraph) (n : Str) : Prop := ∃ a ∈ g.adds, n = a.1 ∨ n ∈ a.2

@[simp] theorem mem_add (g : DepGraph) (n : Str) (ps : List Str) (a : Str × List Str) :
    a ∈ (g.add n ps).adds ↔ a ∈ g.adds ∨ a = (n, ps) := by
  simp [add]

end DepGraph

/-- The sets and the sorter shared by all walks of a run. -/
structure Walk (σ : Type) where
  pvisit : Finset Str
  cbvisit : Option (Finset Str)
  depg : DepGraph
  env : σ

variable {σ : Type}

/-- The loop body for one dependency; `recurse` walks a dependency that parses. -/
def visitDep (rpkg : Str → σ → Option Tmpl × σ)
    (recurse : Str → Tmpl → Walk σ → Fueled σ (Bool × Walk σ))
    (acc : Bool × Walk σ) (d : Str) : Fueled σ (Bool × Walk σ) :=
  let succ := acc.1
  let s := { acc.2 with cbvisit := acc.2.cbvisit.map (insert d) }
  if d ∈ s.pvisit then pure (succ, s)
  else
    -- make sure that everything is parsed only once
    let s := { s with pvisit := insert d s.pvisit }
    match rpkg d s.env with
    | (none, env) => pure (false, { s with env := env })
    | (some dtp, env) => do
        let (ok, s) ← recurse d dtp { s with env := env }
        return (succ && ok, s)

/-- `_add_deps_graph`. What an exception leaves behind is the state of the caller. -/
def addDepsGraph (rpkg : Str → σ → Option Tmpl × σ) :
    Nat → Str → Tmpl → Walk σ → Fueled σ (Bool × Walk σ)
  | 0, _, _, _ => Fueled.outOfFuel
  | fuel + 1, pn, tp, s =>
      match tp.buildDeps with
      | none => throw s.env
      | some bdl =>
          bdl.foldlM (visitDep rpkg (addDepsGraph rpkg fuel))
            (true, { s with depg := s.depg.add pn bdl })

/-! ## What a walk does -/

/-- The graph the walk searches. -/
def depsOf (read : Str → Option Tmpl) (n : Str) : Option (List Str) := (read n).map Tmpl.deps

theorem depsOf_eq_some {read : Str → Option Tmpl} {n : Str} {t : Tmpl} (h : read n = some t) :
    depsOf read n = some t.deps := by
  simp [depsOf, h]

theorem depsOf_eq_none {read : Str → Option Tmpl} {n : Str} (h : read n = none) :
    depsOf read n = none := by
  simp [depsOf, h]

/-- The template can be read and does not tell its dependencies. -/
def Untold (read : Str → Option Tmpl) (n : Str) : Prop := ∃ t, read n = some t ∧ t.buildDeps = none

theorem Tmpl.deps_of_some {t : Tmpl} {ds : List Str} (h : t.buildDeps = some ds) : t.deps = ds := by
  rw [deps, h, Option.getD_some]

theorem not_untold {read : Str → Option Tmpl} {n : Str} {t : Tmpl} (h : read n = some t)
    (ht : t.buildDeps ≠ none) : ¬ Untold read n := by
  intro ⟨u, hu, hnone⟩
  rw [h] at hu
  cases hu
  exact ht hnone

/-- Newly visited between two states of the walk. -/
def Walk.New (s s' : Walk σ) (x : Str) : Prop := x ∈ s'.pvisit ∧ x ∉ s.pvisit

/-- The whole effect of walking the dependencies `ds` from `s`, with the success
flag going from `succ₀` to `succ`. -/
structure Walked (read : Str → Option Tmpl) (rpkg : Str → σ → Option Tmpl × σ) (s : Walk σ)
    (ds : List Str) (succ₀ succ : Bool) (s' : Walk σ) : Prop where
  explores : Explores (depsOf read) s.pvisit ds s'.pvisit
  succ_iff : succ = true ↔ succ₀ = true ∧ ∀ x, s.New s' x → read x ≠ none
  adds_iff : ∀ a, a ∈ s'.depg.adds ↔ a ∈ s.depg.adds ∨
    ∃ t, s.New s' a.1 ∧ read a.1 = some t ∧ a.2 = t.deps
  cbvisit_iff : ∀ c, s.cbvisit = some c → ∃ c', s'.cbvisit = some c' ∧
    ∀ x, x ∈ c' ↔ x ∈ c ∨ x ∈ ds ∨ ∃ n, s.New s' n ∧ Edge (depsOf read) n x
  reads : ∃ rs : List Str, rs.Nodup ∧ (∀ x, x ∈ rs ↔ s.New s' x) ∧
    s'.env = rs.foldl (fun e d => (rpkg d e).2) s.env
  told : ∀ x, s.New s' x → ¬ Untold read x

namespace Walked

variable {read : Str → Option Tmpl} {rpkg : Str → σ → Option Tmpl × σ} {s s₁ s₂ : Walk σ}
  {ds es : List Str} {b₀ b₁ b₂ : Bool} {d : Str}

theorem new_of_append (h₁ : Walked read rpkg s ds b₀ b₁ s₁) (h₂ : Walked read rpkg s₁ es b₁ b₂ s₂)
    (x : Str) : s.New s₂ x ↔ s.New s₁ x ∨ s₁.New s₂ x := by
  constructor
  · intro h
    by_cases hx : x ∈ s₁.pvisit
    · exact .inl ⟨hx, h.2⟩
    · exact .inr ⟨h.1, hx⟩
  · intro h
    rcases h with h | h
    · exact ⟨h₂.explores.mono h.1, h.2⟩
    · exact ⟨h.1, fun hx => h.2 (h₁.explores.mono hx)⟩

/-- Dependencies are walked one after the other. -/
theorem append (h₁ : Walked read rpkg s ds b₀ b₁ s₁) (h₂ : Walked read rpkg s₁ es b₁ b₂ s₂) :
    Walked read rpkg s (ds ++ es) b₀ b₂ s₂ where
  explores := h₁.explores.append h₂.explores
  succ_iff := by
    rw [h₂.succ_iff, h₁.succ_iff, and_assoc]
    simp only [new_of_append h₁ h₂, or_imp, forall_and]
  adds_iff := by
    intro a
    rw [h₂.adds_iff, h₁.adds_iff, new_of_append h₁ h₂]
    constructor
    · intro h
      rcases h with (h | ⟨t, hn, ht⟩) | ⟨t, hn, ht⟩
      · exact .inl h
      · exact .inr ⟨t, .inl hn, ht⟩
      · exact .inr ⟨t, .inr hn, ht⟩
    · intro h
      rcases h with h | ⟨t, hn | hn, ht⟩
      · exact .inl (.inl h)
      · exact .inl (.inr ⟨t, hn, ht⟩)
      · exact .inr ⟨t, hn, ht⟩
  cbvisit_iff := by
    intro c hc
    obtain ⟨c₁, hc₁, hm₁⟩ := h₁.cbvisit_iff c hc
    obtain ⟨c₂, hc₂, hm₂⟩ := h₂.cbvisit_iff c₁ hc₁
    refine ⟨c₂, hc₂, fun x => ?_⟩
    rw [hm₂, hm₁, List.mem_append]
    simp only [new_of_append h₁ h₂, or_and_right, exists_or, or_assoc, or_left_comm]
  reads := by
    obtain ⟨rs₁, hn₁, hm₁, he₁⟩ := h₁.reads
    obtain ⟨rs₂, hn₂, hm₂, he₂⟩ := h₂.reads
    refine ⟨rs₁ ++ rs₂, ?_, ?_, ?_⟩
    · refine List.nodup_append'.mpr ⟨hn₁, hn₂, ?_⟩
      intro x hx₁ hx₂
      exact ((hm₂ x).mp hx₂).2 ((hm₁ x).mp hx₁).1
    · intro x
      rw [List.mem_append, hm₁, hm₂, new_of_append h₁ h₂]
    · rw [he₂, he₁, List.foldl_append]
  told := by
    intro x hx
    rcases (new_of_append h₁ h₂ x).mp hx with hx | hx
    · exact h₁.told x hx
    · exact h₂.told x hx

theorem nil (read : Str → Option Tmpl) (rpkg : Str → σ → Option Tmpl × σ) (s : Walk σ) (b : Bool) :
    Walked read rpkg s [] b b s where
  explores := .nil _ _
  succ_iff := by simp [Walk.New]
  adds_iff := by simp [Walk.New]
  cbvisit_iff := by
    intro c hc
    exact ⟨c, hc, by simp [Walk.New]⟩
  reads := ⟨[], List.nodup_nil, by simp [Walk.New], rfl⟩
  told := fun _ hx => absurd hx.1 hx.2

/-- A dependency visited before is passed over. -/
theorem skip (hd : d ∈ s.pvisit) : Walked read rpkg s [d] b₀ b₀
    { s with cbvisit := s.cbvisit.map (insert d) } where
  explores := .skip hd
  succ_iff := by simp [Walk.New]
  adds_iff := by simp [Walk.New]
  cbvisit_iff := by
    intro c hc
    refine ⟨insert d c, by simp [hc], fun x => ?_⟩
    simp [Walk.New, or_comm]
  reads := ⟨[], List.nodup_nil, by simp [Walk.New], rfl⟩
  told := fun _ hx => absurd hx.1 hx.2

theorem new_insert (hd : d ∉ s.pvisit) (c : Option (Finset Str)) (g : DepGraph) (e : σ) (x : Str) :
    s.New ⟨insert d s.pvisit, c, g, e⟩ x ↔ x = d := by
  rw [Walk.New, Finset.mem_insert]
  constructor
  · intro h
    exact h.1.resolve_right h.2
  · intro h
    rw [h]
    exact ⟨.inl rfl, hd⟩

/-- A dependency that fails to parse is visited and fails the walk. -/
theorem leaf (hd : d ∉ s.pvisit) (hr : read d = none) : Walked read rpkg s [d] b₀ false
    ⟨insert d s.pvisit, s.cbvisit.map (insert d), s.depg, (rpkg d s.env).2⟩ where
  explores := .leaf hd (depsOf_eq_none hr)
  succ_iff := by
    simp only [Bool.false_eq_true, false_iff, not_and, new_insert hd]
    intro _ h
    exact h d rfl hr
  adds_iff := by
    intro a
    simp only [new_insert hd]
    constructor
    · exact .inl
    · intro h
      rcases h with h | ⟨t, had, ht, _⟩
      · exact h
      · rw [had, hr] at ht
        contradiction
  cbvisit_iff := by
    intro c hc
    refine ⟨insert d c, by simp [hc], fun x => ?_⟩
    have hno : ¬ Edge (depsOf read) d x := by
      intro h
      obtain ⟨l, hl, _⟩ := h
      rw [depsOf_eq_none hr] at hl
      contradiction
    simp only [new_insert hd, exists_eq_left, hno, or_false, Finset.mem_insert,
      List.mem_singleton]
    exact or_comm
  reads := ⟨[d], List.nodup_singleton d, fun x => by rw [new_insert hd, List.mem_singleton],
    rfl⟩
  told := by
    intro x hx hun
    obtain ⟨t, ht, _⟩ := hun
    rw [(new_insert hd _ _ _ x).mp hx, hr] at ht
    contradiction

/-- A dependency that parses is entered into the sorter and walked in turn. -/
theorem visit (hd : d ∉ s.pvisit) {t : Tmpl} (hr : read d = some t) (ht : t.buildDeps ≠ none)
    (h : Walked read rpkg ⟨insert d s.pvisit, s.cbvisit.map (insert d),
      s.depg.add d t.deps, (rpkg d s.env).2⟩ t.deps true b₁ s₁) :
    Walked read rpkg s [d] b₀ (b₀ && b₁) s₁ := by
  have hexp := Explores.visit hd (depsOf_eq_some hr) h.explores
  have hedge : ∀ x, Edge (depsOf read) d x ↔ x ∈ t.deps := by
    intro x
    simp [Edge, depsOf_eq_some hr]
  have hnew : ∀ x, s.New s₁ x ↔ x = d ∨ Walk.New (σ := σ) ⟨insert d s.pvisit,
      s.cbvisit.map (insert d), s.depg.add d t.deps, (rpkg d s.env).2⟩ s₁ x := by
    intro x
    simp only [Walk.New, Finset.mem_insert, not_or]
    constructor
    · intro hx
      by_cases hxd : x = d
      · exact .inl hxd
      · exact .inr ⟨hx.1, hxd, hx.2⟩
    · intro hx
      rcases hx with hx | hx
      · rw [hx]
        exact ⟨hexp.roots d (List.mem_singleton_self d), hd⟩
      · exact ⟨hx.1, hx.2.2⟩
  refine ⟨hexp, ?_, ?_, ?_, ?_, ?_⟩
  · simp only [Bool.and_eq_true, h.succ_iff, true_and, hnew, or_imp, forall_and, forall_eq]
    simp [hr]
  · intro a
    rw [h.adds_iff, DepGraph.mem_add]
    simp only [hnew]
    constructor
    · intro ha
      rcases ha with (ha | ha) | ⟨u, hn, hu⟩
      · exact .inl ha
      · exact .inr ⟨t, .inl (by rw [ha]), by rw [ha]; exact hr, by rw [ha]⟩
      · exact .inr ⟨u, .inr hn, hu⟩
    · intro ha
      rcases ha with ha | ⟨u, had | hn, hu, hps⟩
      · exact .inl (.inl ha)
      · rw [had, hr] at hu
        cases hu
        exact .inl (.inr (Prod.ext had hps))
      · exact .inr ⟨u, hn, hu, hps⟩
  · intro c hc
    obtain ⟨c', hc', hm⟩ := h.cbvisit_iff (insert d c) (by simp [hc])
    refine ⟨c', hc', fun x => ?_⟩
    rw [hm, Finset.mem_insert, List.mem_singleton]
    simp only [hnew, or_and_right, exists_or, exists_eq_left, hedge, or_assoc, or_left_comm]
  · obtain ⟨rs, hnd, hm, he⟩ := h.reads
    refine ⟨d :: rs, ?_, ?_, he⟩
    · refine List.nodup_cons.mpr ⟨?_, hnd⟩
      intro hmem
      exact ((hm d).mp hmem).2 (Finset.mem_insert_self d s.pvisit)
    · intro x
      rw [List.mem_cons, hm, hnew]
  · intro x hx
    rcases (hnew x).mp hx with rfl | hx
    · exact not_untold hr ht
    · exact h.told x hx

end Walked

section

variable {read : Str → Option Tmpl} {rpkg : Str → σ → Option Tmpl × σ}

/-- What is asked of the recursive call. -/
def WalksDeps (read : Str → Option Tmpl) (rpkg : Str → σ → Option Tmpl × σ)
    (recurse : Str → Tmpl → Walk σ → Fueled σ (Bool × Walk σ)) : Prop :=
  ∀ d t s b s', (recurse d t s).Returns (b, s') → t.buildDeps ≠ none ∧
    Walked read rpkg { s with depg := s.depg.add d t.deps } t.deps true b s'

/-- All that one iteration can do. -/
theorem visitDep_cases (hread : ∀ d e, (rpkg d e).1 = read d)
    (recurse : Str → Tmpl → Walk σ → Fueled σ (Bool × Walk σ)) (b : Bool) (s : Walk σ) (d : Str) :
    (d ∈ s.pvisit ∧ visitDep rpkg recurse (b, s) d =
      pure (b, { s with cbvisit := s.cbvisit.map (insert d) })) ∨ d ∉ s.pvisit ∧
      ((read d = none ∧ visitDep rpkg recurse (b, s) d = pure (false,
          ⟨insert d s.pvisit, s.cbvisit.map (insert d), s.depg, (rpkg d s.env).2⟩)) ∨
        ∃ t, read d = some t ∧ visitDep rpkg recurse (b, s) d =
          recurse d t ⟨insert d s.pvisit, s.cbvisit.map (insert d), s.depg, (rpkg d s.env).2⟩ >>=
            fun r => pure (b && r.1, r.2)) := by
  unfold visitDep
  dsimp only
  by_cases hd : d ∈ s.pvisit
  · rw [if_pos hd]
    exact .inl ⟨hd, rfl⟩
  rw [if_neg hd]
  refine .inr ⟨hd, ?_⟩
  have hr := hread d s.env
  cases hp : rpkg d s.env with
  | mk tp env =>
      rw [hp] at hr
      cases tp with
      | none => exact .inl ⟨hr.symm, rfl⟩
      | some t => exact .inr ⟨t, hr.symm, rfl⟩

/-- The effect of one iteration, given the effect of the recursive call. -/
theorem visitDep_walked (hread : ∀ d e, (rpkg d e).1 = read d)
    {recurse : Str → Tmpl → Walk σ → Fueled σ (Bool × Walk σ)} (hrec : WalksDeps read rpkg recurse)
    {acc acc' : Bool × Walk σ} {d : Str} (h : (visitDep rpkg recurse acc d).Returns acc') :
    Walked read rpkg acc.2 [d] acc.1 acc'.1 acc'.2 := by
  obtain ⟨b, s⟩ := acc
  obtain ⟨hd, heq⟩ | ⟨hd, ⟨hr, heq⟩ | ⟨t, hr, heq⟩⟩ := visitDep_cases hread recurse b s d
  · rw [heq, Fueled.pure_returns] at h
    subst h
    exact .skip hd
  · rw [heq, Fueled.pure_returns] at h
    subst h
    exact .leaf hd hr
  · rw [heq, Fueled.bind_returns] at h
    obtain ⟨⟨ok, s'⟩, hcall, h⟩ := h
    rw [Fueled.pure_returns] at h
    subst h
    obtain ⟨ht, hwalk⟩ := hrec _ _ _ _ _ hcall
    exact .visit hd hr ht hwalk

theorem foldlM_visitDep_walked (hread : ∀ d e, (rpkg d e).1 = read d)
    {recurse : Str → Tmpl → Walk σ → Fueled σ (Bool × Walk σ)} (hrec : WalksDeps read rpkg recurse)
    (ds : List Str) (acc acc' : Bool × Walk σ)
    (h : Fueled.Returns (ds.foldlM (visitDep rpkg recurse) acc) acc') :
    Walked read rpkg acc.2 ds acc.1 acc'.1 acc'.2 := by
  induction ds generalizing acc with
  | nil =>
      rw [List.foldlM_nil, Fueled.pure_returns] at h
      subst h
      exact .nil read rpkg acc.2 acc.1
  | cons d ds ih =>
      rw [List.foldlM_cons, Fueled.bind_returns] at h
      obtain ⟨mid, hmid, hrest⟩ := h
      exact (visitDep_walked hread hrec hmid).append (ih mid hrest)

/-- The effect of a walk that returns, when reading depends on the name alone. -/
theorem addDepsGraph_walked (hread : ∀ d e, (rpkg d e).1 = read d) (fuel : Nat) :
    WalksDeps read rpkg (addDepsGraph rpkg fuel) := by
  induction fuel with
  | zero =>
      intro d t s b s' h
      cases h
  | succ fuel ih =>
      intro d t s b s' h
      unfold addDepsGraph at h
      cases ht : t.buildDeps with
      | none =>
          rw [ht] at h
          exact absurd h Fueled.throw_returns
      | some ds =>
          rw [ht] at h
          rw [Tmpl.deps_of_some ht]
          exact ⟨Option.some_ne_none ds, foldlM_visitDep_walked hread ih ds _ (b, s') h⟩

/-! ## Walks that raise -/

/-- What is asked of a recursive call that raises: it has come to a template that does not tell
its dependencies. -/
def RaisesUntold (read : Str → Option Tmpl)
    (recurse : Str → Tmpl → Walk σ → Fueled σ (Bool × Walk σ)) : Prop :=
  ∀ d t s e, (recurse d t s).Raises e → t.buildDeps = none ∨
    ∃ d' ∈ t.deps, ∃ x, FreshReach (depsOf read) s.pvisit d' x ∧ Untold read x

theorem visitDep_raises (hread : ∀ d e, (rpkg d e).1 = read d)
    {recurse : Str → Tmpl → Walk σ → Fueled σ (Bool × Walk σ)} (hraise : RaisesUntold read recurse)
    {acc : Bool × Walk σ} {d : Str} {e : σ} (h : (visitDep rpkg recurse acc d).Raises e) :
    ∃ x, FreshReach (depsOf read) acc.2.pvisit d x ∧ Untold read x := by
  obtain ⟨b, s⟩ := acc
  obtain ⟨-, heq⟩ | ⟨hd, ⟨-, heq⟩ | ⟨t, hr, heq⟩⟩ := visitDep_cases hread recurse b s d
  · rw [heq] at h
    exact absurd h Fueled.pure_raises
  · rw [heq] at h
    exact absurd h Fueled.pure_raises
  · rw [heq, Fueled.bind_raises] at h
    obtain h | ⟨_, -, h⟩ := h
    · obtain hnone | ⟨d', hd', x, hreach, hx⟩ := hraise _ _ _ _ h
      · exact ⟨d, .refl hd, t, hr, hnone⟩
      · have hedge : Edge (depsOf read) d d' := ⟨t.deps, depsOf_eq_some hr, hd'⟩
        exact ⟨x, .head hd hedge (hreach.mono (Finset.subset_insert d s.pvisit)), hx⟩
    · exact absurd h Fueled.pure_raises

theorem addDepsGraph_raises (hread : ∀ d e, (rpkg d e).1 = read d) (fuel : Nat) :
    RaisesUntold read (addDepsGraph rpkg fuel) := by
  induction fuel with
  | zero =>
      intro d t s e h
      cases h
  | succ fuel ih =>
      intro d t s e h
      unfold addDepsGraph at h
      cases ht : t.buildDeps with
      | none => exact .inl rfl
      | some ds =>
          rw [ht] at h
          rw [Tmpl.deps_of_some ht]
          obtain ⟨d', hd', acc, hsub, h⟩ := Fueled.foldlM_raises
            (I := fun acc : Bool × Walk σ => s.pvisit ⊆ acc.2.pvisit)
            (fun acc acc' d' hsub h => hsub.trans
              (visitDep_walked hread (addDepsGraph_walked hread fuel) h).explores.mono)
            (Finset.Subset.refl s.pvisit) h
          obtain ⟨x, hreach, hx⟩ := visitDep_raises hread ih h
          exact .inr ⟨d', hd', x, hreach.mono hsub, hx⟩

/-! ## Termination -/

/-- One more unit of fuel than there are unvisited templates is enough. -/
theorem addDepsGraph_not_stops (hread : ∀ d e, (rpkg d e).1 = read d) {tree : Finset Str}
    (htree : ∀ d t, read d = some t → d ∈ tree) (fuel : Nat) (pn : Str) (tp : Tmpl) (s : Walk σ)
    (hfuel : (tree \ s.pvisit).card < fuel) : ¬ (addDepsGraph rpkg fuel pn tp s).Stops := by
  induction fuel generalizing pn tp s with
  | zero => omega
  | succ fuel ih =>
      intro h
      unfold addDepsGraph at h
      cases ht : tp.buildDeps with
      | none =>
          rw [ht] at h
          exact Fueled.throw_stops h
      | some ds =>
          rw [ht] at h
          obtain ⟨d, -, ⟨b, t⟩, hlt, h⟩ := Fueled.foldlM_stops
            (I := fun acc : Bool × Walk σ => (tree \ acc.2.pvisit).card < fuel + 1)
            (fun acc acc' d hlt h => by
              have hmono := (visitDep_walked hread (addDepsGraph_walked hread fuel) h).explores.mono
              have hle := Finset.card_le_card
                (Finset.sdiff_subset_sdiff (Finset.Subset.refl tree) hmono)
              exact Nat.lt_of_le_of_lt hle hlt) hfuel h
          obtain ⟨-, heq⟩ | ⟨hd, ⟨-, heq⟩ | ⟨u, hr, heq⟩⟩ :=
            visitDep_cases hread (addDepsGraph rpkg fuel) b t d
          · rw [heq] at h
            exact Fueled.pure_stops h
          · rw [heq] at h
            exact Fueled.pure_stops h
          · rw [heq, Fueled.bind_stops] at h
            obtain h | ⟨_, -, h⟩ := h
            · have hless := card_sdiff_insert_lt (htree d u hr) hd
              refine ih _ _ _ ?_ h
              exact Nat.lt_of_lt_of_le hless (Nat.le_of_lt_succ hlt)
            · exact Fueled.pure_stops h

end

end Cbuild.Bulk
