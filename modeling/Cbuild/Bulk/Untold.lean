import Cbuild.Bulk.Walk

/-! # What a walk has read when it is ended

The caller notes in a flag whether anything failed to parse. A walk that is ended by a template
that does not tell its dependencies leaves the flag as it was exactly when it met that template
before any that does not parse; `UntoldFirst` says so of the graph alone.
-/

namespace Cbuild.Bulk

open Lib

variable {read : Str → Option Tmpl} {rpkg : Str → Bool → Option Tmpl × Bool} {V V' : Finset Str}
  {d x : Str} {ds : List Str}

/-- The template can be read and tells its dependencies. -/
def Tells (read : Str → Option Tmpl) (x : Str) : Prop := read x ≠ none ∧ ¬ Untold read x

/-- Searched depth first from `ds` without entering `V`, a template that does not tell its
dependencies comes before any that does not parse. -/
inductive UntoldFirst (read : Str → Option Tmpl) : Finset Str → List Str → Prop
  | here {V : Finset Str} {d : Str} {ds : List Str} (hd : d ∉ V) (hun : Untold read d) :
      UntoldFirst read V (d :: ds)
  | inside {V : Finset Str} {d : Str} {ds : List Str} {t : Tmpl} (hd : d ∉ V)
      (hr : read d = some t) (h : UntoldFirst read (insert d V) t.deps) :
      UntoldFirst read V (d :: ds)
  | after {V : Finset Str} {d : Str} {ds : List Str}
      (hall : ∀ x, FreshReach (depsOf read) V d x → Tells read x) (h : UntoldFirst read V ds) :
      UntoldFirst read V (d :: ds)

theorem UntoldFirst.exists_untold (h : UntoldFirst read V ds) :
    ∃ d ∈ ds, ∃ x, FreshReach (depsOf read) V d x ∧ Untold read x := by
  induction h with
  | @here V d ds hd hun => exact ⟨d, List.mem_cons_self, d, .refl hd, hun⟩
  | @inside V d ds t hd hr h ih =>
      obtain ⟨d', hd', x, hreach, hx⟩ := ih
      have hedge : Edge (depsOf read) d d' := ⟨t.deps, depsOf_eq_some hr, hd'⟩
      exact ⟨d, List.mem_cons_self, x, .head hd hedge (hreach.mono (Finset.subset_insert d V)), hx⟩
  | after hall h ih =>
      obtain ⟨d', hd', hx⟩ := ih
      exact ⟨d', List.mem_cons_of_mem _ hd', hx⟩

/-- A larger visited set whose further members tell their dependencies, all visited too. -/
structure Grown (read : Str → Option Tmpl) (V V' : Finset Str) : Prop where
  mono : V ⊆ V'
  tells : ∀ x ∈ V', x ∉ V → Tells read x
  closed : ∀ x ∈ V', x ∉ V → ∀ y, Edge (depsOf read) x y → y ∈ V'

theorem Grown.insert (h : Grown read V V') (d : Str) : Grown read (insert d V) (insert d V') where
  mono := Finset.insert_subset_insert d h.mono
  tells := by
    intro x hx hn
    rw [Finset.mem_insert, not_or] at hn
    exact h.tells x ((Finset.mem_insert.mp hx).resolve_left hn.1) hn.2
  closed := by
    intro x hx hn y hxy
    rw [Finset.mem_insert, not_or] at hn
    have hx' := (Finset.mem_insert.mp hx).resolve_left hn.1
    exact Finset.mem_insert_of_mem (h.closed x hx' hn.2 y hxy)

/-- From a node of the larger set all that is reached outside the smaller one is in the larger. -/
theorem Grown.mem (h : Grown read V V') (hd : d ∈ V') (hx : FreshReach (depsOf read) V d x) :
    x ∈ V' := by
  by_contra hno
  exact (FreshReach.grow h.closed hx hno).1 hd

/-- Growing the visited set so makes no difference. -/
theorem Grown.untoldFirst_iff (h : Grown read V V') :
    UntoldFirst read V ds ↔ UntoldFirst read V' ds := by
  constructor
  · intro hun
    induction hun generalizing V' with
    | @here V d ds hd hun => exact .here (fun hd' => (h.tells d hd' hd).2 hun) hun
    | @inside V d ds t hd hr hinside ih =>
        refine .inside (fun hd' => ?_) hr (ih (h.insert d))
        -- what is not told below `d` would have been visited
        obtain ⟨d', hd₁, x, hreach, hx⟩ := hinside.exists_untold
        have hedge : Edge (depsOf read) d d' := ⟨t.deps, depsOf_eq_some hr, hd₁⟩
        have hfresh := FreshReach.head hd hedge (hreach.mono (Finset.subset_insert d V))
        exact (h.tells x (h.mem hd' hfresh) hfresh.end_notMem).2 hx
    | after hall _ ih => exact .after (fun x hx => hall x (hx.mono h.mono)) (ih h)
  · intro hun
    induction hun generalizing V with
    | here hd hun => exact .here (fun hd' => hd (h.mono hd')) hun
    | @inside V' d ds t hd hr hinside ih =>
        exact .inside (fun hd' => hd (h.mono hd')) hr (ih (h.insert d))
    | @after V' d ds hall _ ih =>
        refine .after (fun x hx => ?_) (ih h)
        by_cases hx' : x ∈ V'
        · exact h.tells x hx' hx.end_notMem
        · exact hall x (FreshReach.grow h.closed hx hx')

/-! ## The flag -/

/-- Reading a name notes whether it failed. -/
def Notes (read : Str → Option Tmpl) (rpkg : Str → Bool → Option Tmpl × Bool) : Prop :=
  ∀ d b, (rpkg d b).2 = true ↔ b = true ∨ read d = none

theorem Notes.foldl_iff (hnote : Notes read rpkg) (rs : List Str) (b : Bool) :
    rs.foldl (fun e d => (rpkg d e).2) b = true ↔ b = true ∨ ∃ x ∈ rs, read x = none := by
  induction rs generalizing b with
  | nil => simp
  | cons d rs ih => rw [List.foldl_cons, ih, hnote, List.exists_mem_cons_iff, or_assoc]

/-- A walk sets the flag exactly when it meets a template that fails to parse. -/
theorem Walked.env_iff {s s' : Walk Bool} {b₀ b : Bool} (hnote : Notes read rpkg)
    (h : Walked read rpkg s ds b₀ b s') :
    s'.env = true ↔ s.env = true ∨ ∃ x, s.New s' x ∧ read x = none := by
  obtain ⟨rs, _, hm, he⟩ := h.reads
  rw [he, hnote.foldl_iff]
  simp only [hm]

/-- A dependency that has been walked with the flag clear makes no difference to the rest. -/
theorem Walked.untoldFirst_iff {s s' : Walk Bool} {b₀ b : Bool} (hnote : Notes read rpkg)
    (h : Walked read rpkg s [d] b₀ b s') :
    s'.env = false ∧ UntoldFirst read s'.pvisit ds ↔
      s.env = false ∧ UntoldFirst read s.pvisit (d :: ds) := by
  have henv := h.env_iff hnote
  have hnew : ∀ x, FreshReach (depsOf read) s.pvisit d x ↔ s.New s' x := by
    intro x
    constructor
    · intro hx
      exact ⟨h.explores.complete (List.mem_singleton_self d) hx, hx.end_notMem⟩
    · intro hx
      obtain ⟨d', hd', hreach⟩ := h.explores.sound x hx.1 hx.2
      rwa [List.mem_singleton.mp hd'] at hreach
  have hgrown : (∀ x, s.New s' x → read x ≠ none) → Grown read s.pvisit s'.pvisit := fun hall =>
    ⟨h.explores.mono, fun x hx hn => ⟨hall x ⟨hx, hn⟩, h.told x ⟨hx, hn⟩⟩, h.explores.closed⟩
  constructor
  · intro ⟨hfalse, hun⟩
    rw [← Bool.not_eq_true, henv] at hfalse
    obtain ⟨hs, hno⟩ := not_or.mp hfalse
    have hall : ∀ x, s.New s' x → read x ≠ none := fun x hx hr => hno ⟨x, hx, hr⟩
    refine ⟨Bool.eq_false_iff.mpr hs, .after (fun x hx => ?_) ?_⟩
    · have hx' := (hnew x).mp hx
      exact ⟨hall x hx', h.told x hx'⟩
    · exact (hgrown hall).untoldFirst_iff.mpr hun
  · intro ⟨hs, hun⟩
    have hno : ∀ y, FreshReach (depsOf read) s.pvisit d y → ¬ Untold read y :=
      fun y hy => h.told y ((hnew y).mp hy)
    cases hun with
    | here hd hun => exact absurd hun (hno d (.refl hd))
    | @inside _ _ _ t hd hr hinside =>
        obtain ⟨d', hd', y, hreach, hy⟩ := hinside.exists_untold
        have hedge : Edge (depsOf read) d d' := ⟨t.deps, depsOf_eq_some hr, hd'⟩
        exact absurd hy
          (hno y (.head hd hedge (hreach.mono (Finset.subset_insert d s.pvisit))))
    | after hall hrest =>
        have hall' : ∀ x, s.New s' x → read x ≠ none := fun x hx => (hall x ((hnew x).mpr hx)).1
        refine ⟨Bool.eq_false_iff.mpr fun htrue => ?_, (hgrown hall').untoldFirst_iff.mp hrest⟩
        rcases henv.mp htrue with hset | ⟨x, hx, hr⟩
        · rw [hs] at hset
          contradiction
        · exact hall' x hx hr

/-- The flag that a walk is ended with. -/
theorem addDepsGraph_raises_iff (hread : ∀ d e, (rpkg d e).1 = read d) (hnote : Notes read rpkg)
    (fuel : Nat) (pn : Str) (tp : Tmpl) (s : Walk Bool) (e : Bool)
    (h : (addDepsGraph rpkg fuel pn tp s).Raises e) :
    e = false ↔ s.env = false ∧ (tp.buildDeps = none ∨ UntoldFirst read s.pvisit tp.deps) := by
  induction fuel generalizing pn tp s with
  | zero => cases h
  | succ fuel ih =>
      unfold addDepsGraph at h
      cases ht : tp.buildDeps with
      | none =>
          rw [ht, Fueled.throw_raises] at h
          simp [h]
      | some bdl =>
          rw [ht] at h
          have hloop : ∀ (l : List Str) (acc : Bool × Walk Bool),
              Fueled.Raises (l.foldlM (visitDep rpkg (addDepsGraph rpkg fuel)) acc) e →
              (e = false ↔ acc.2.env = false ∧ UntoldFirst read acc.2.pvisit l) := by
            intro l
            induction l with
            | nil =>
                intro acc hraise
                exact absurd hraise Fueled.pure_raises
            | cons d l ihl =>
                intro acc hraise
                rw [List.foldlM_cons, Fueled.bind_raises] at hraise
                obtain hraise | ⟨mid, hmid, hrest⟩ := hraise
                · obtain ⟨y, hreach, hy⟩ :=
                    visitDep_raises hread (addDepsGraph_raises hread fuel) hraise
                  obtain ⟨b, t⟩ := acc
                  obtain ⟨-, heq⟩ | ⟨hd, ⟨-, heq⟩ | ⟨u, hr, heq⟩⟩ :=
                    visitDep_cases hread (addDepsGraph rpkg fuel) b t d
                  · rw [heq] at hraise
                    exact absurd hraise Fueled.pure_raises
                  · rw [heq] at hraise
                    exact absurd hraise Fueled.pure_raises
                  · rw [heq, Fueled.bind_raises] at hraise
                    obtain hraise | ⟨_, -, hraise⟩ := hraise
                    · have hparsed : (rpkg d t.env).2 = false ↔ t.env = false := by
                        rw [← Bool.not_eq_true, hnote, hr, ← Bool.not_eq_true]
                        simp
                      rw [ih _ _ _ hraise, hparsed]
                      refine and_congr_right fun _ => ⟨fun hor => ?_, fun hun => ?_⟩
                      · rcases hor with hnone | hinside
                        · exact .here hd ⟨u, hr, hnone⟩
                        · exact .inside hd hr hinside
                      · cases hun with
                        | here _ hun =>
                            obtain ⟨u', hu', hnone⟩ := hun
                            rw [hr] at hu'
                            cases hu'
                            exact .inl hnone
                        | inside _ hr' hinside =>
                            rw [hr] at hr'
                            cases hr'
                            exact .inr hinside
                        | after hall _ => exact absurd hy (hall y hreach).2
                    · exact absurd hraise Fueled.pure_raises
                · rw [ihl mid hrest]
                  exact (visitDep_walked hread (addDepsGraph_walked hread fuel) hmid).untoldFirst_iff
                    hnote
          rw [hloop bdl _ h, Tmpl.deps_of_some ht]
          simp

end Cbuild.Bulk
