import Cbuild.Graph.Prepare
import Mathlib.Data.Set.Finite.Lattice

/-! # The graph of a selection

`_graph_prepare` walks from one selected template after the other. `Prepared` says where the
loop stands; at its end the graph has the build dependencies of exactly the templates that are
reached from the selection, and `cycle-check` finds a cycle in it when there is one among them.
-/

namespace Cbuild.Graph

open Lib Bulk

variable {w : World} {s s' : State} {done : List Str}

/-- Reached from the selection along the build dependencies. -/
def Reachable (w : World) (roots : List Str) (n : Str) : Prop := ∃ r ∈ roots, Reach w r n

theorem depsOf_bulkRead (w : World) : depsOf (bulkRead w) = deps w := by
  funext n
  unfold depsOf bulkRead
  cases deps w n <;> rfl

theorem bulkRead_eq_some {n : Str} {t : Tmpl} (h : bulkRead w n = some t) :
    deps w n = some t.deps := by
  rw [← depsOf_bulkRead]
  exact depsOf_eq_some h

/-! ## The loop over the selection -/

/-- The selected templates `done` have been looked at. -/
structure Prepared (w : World) (done : List Str) (s : State) : Prop where
  cached : Cached w s
  sound : ∀ x ∈ s.pvisit, Reachable w done x
  closed : ∀ x, x ∈ s.pvisit ∨ x ∈ done → ∀ y, Edge (deps w) x y → y ∈ s.pvisit
  adds : ∀ n ds, (n, ds) ∈ s.tg.adds ↔ (n ∈ s.pvisit ∨ n ∈ done) ∧ deps w n = some ds
  clean : ∀ x, x ∈ s.pvisit ∨ x ∈ done → ∀ e, ¬ RaisesAt w x e

theorem Prepared.init (w : World) : Prepared w [] .init where
  cached := .init w
  sound := by
    intro x hx
    exact absurd hx (Finset.notMem_empty x)
  closed := by
    intro x hx
    simp [State.init] at hx
  adds := by
    intro n ds
    simp [State.init, DepGraph.empty]
  clean := by
    intro x hx
    simp [State.init] at hx

/-- All that one selected template can do. -/
theorem visitRoot_cases (fuel : Nat) (hc : Cached w s) (r : Str) :
    (r ∈ s.pvisit ∧ visitRoot w fuel s r = pure s) ∨
      (∃ e, RaisesAt w r e ∧ visitRoot w fuel s r = throw e) ∨
      (w.template r = .error .package ∧ visitRoot w fuel s r = pure s) ∨
      ∃ tp t, w.template r = .ok tp ∧ Cached w t ∧ t.pvisit = s.pvisit ∧ t.tg = s.tg ∧
        visitRoot w fuel s r = addDepsGraph w fuel r tp t >>= fun b => pure b.2 := by
  unfold visitRoot
  by_cases hr : r ∈ s.pvisit
  · rw [if_pos hr]
    exact Or.inl ⟨hr, rfl⟩
  rw [if_neg hr]
  right
  obtain ⟨e, he, hraises⟩ | ⟨he, ht⟩ | ⟨tp, rtmpls, read, he, ht, hc'⟩ := readPkg_spec hc (n := r)
  · rw [he]
    exact Or.inl ⟨e, hraises, rfl⟩
  · rw [he]
    exact Or.inr (Or.inl ⟨ht, rfl⟩)
  · rw [he]
    exact Or.inr (Or.inr ⟨tp, _, ht, hc', rfl, rfl, rfl⟩)

theorem Reachable.append (h : Reachable w done n) (rs : List Str) : Reachable w (done ++ rs) n := by
  obtain ⟨r, hr, hn⟩ := h
  exact ⟨r, List.mem_append_left rs hr, hn⟩

/-- A root that adds nothing to the graph. -/
theorem Prepared.pass (h : Prepared w done s) {r : Str}
    (hr : r ∈ s.pvisit ∨ w.template r = .error .package) : Prepared w (done ++ [r]) s := by
  have hdeps : r ∈ s.pvisit ∨ deps w r = none := by
    obtain hr | ht := hr
    · exact Or.inl hr
    · right
      unfold deps
      rw [ht]
  refine ⟨h.cached, fun x hx => (h.sound x hx).append [r], ?_, ?_, ?_⟩
  · intro x hx y hxy
    rw [List.mem_append, List.mem_singleton] at hx
    obtain hx | hx | rfl := hx
    · exact h.closed x (Or.inl hx) y hxy
    · exact h.closed x (Or.inr hx) y hxy
    · obtain hr | hnone := hdeps
      · exact h.closed x (Or.inl hr) y hxy
      · obtain ⟨l, hl, -⟩ := hxy
        rw [hnone] at hl
        cases hl
  · intro n ds
    rw [h.adds, List.mem_append, List.mem_singleton]
    constructor
    · intro hn
      exact ⟨hn.1.imp_right Or.inl, hn.2⟩
    · intro hn
      obtain ⟨hn | hn | rfl, hds⟩ := hn
      · exact ⟨Or.inl hn, hds⟩
      · exact ⟨Or.inr hn, hds⟩
      · obtain hr | hnone := hdeps
        · exact ⟨Or.inl hr, hds⟩
        · rw [hnone] at hds
          cases hds
  · intro x hx
    rw [List.mem_append, List.mem_singleton] at hx
    obtain hx | hx | rfl := hx
    · exact h.clean x (Or.inl hx)
    · exact h.clean x (Or.inr hx)
    · obtain hr | ht := hr
      · exact h.clean x (Or.inl hr)
      · exact not_raisesAt_of_package ht

/-- A root whose dependencies are walked. -/
theorem Prepared.walk (h : Prepared w done s) {r : Str} {tp : Template} {ds : List Str} {b : Bool}
    (ht : w.template r = .ok tp) (hds : tp.getBuildDeps = .ok ds) (hc : Cached w s')
    (hclean : ∀ x ∈ s'.pvisit, x ∈ s.pvisit ∨ ∀ e, ¬ RaisesAt w x e)
    (hw : Walked (bulkRead w) (bulkPkg w) { s.walk with depg := s.tg.add r ds } ds true b s'.walk) :
    Prepared w (done ++ [r]) s' := by
  have hexp : Explores (deps w) s.pvisit ds s'.pvisit := by
    have := hw.explores
    rwa [depsOf_bulkRead] at this
  have hroot : deps w r = some ds := deps_of_ok ht hds
  refine ⟨hc, ?_, ?_, ?_, ?_⟩
  · intro x hx
    by_cases hold : x ∈ s.pvisit
    · exact (h.sound x hold).append [r]
    · obtain ⟨d, hd, hreach⟩ := hexp.sound x hx hold
      have hpath : Reach w d x := Relation.ReflTransGen.mono (fun _ _ hab => hab.1) d x hreach.2
      exact ⟨r, by simp, .head ⟨ds, hroot, hd⟩ hpath⟩
  · intro x hx y hxy
    rw [List.mem_append, List.mem_singleton] at hx
    obtain hx | hx | rfl := hx
    · by_cases hold : x ∈ s.pvisit
      · exact hexp.mono (h.closed x (Or.inl hold) y hxy)
      · exact hexp.closed x hx hold y hxy
    · exact hexp.mono (h.closed x (Or.inr hx) y hxy)
    · obtain ⟨l, hl, hy⟩ := hxy
      rw [hroot] at hl
      cases hl
      exact hexp.roots y hy
  · intro n ds'
    have hadds := hw.adds_iff (n, ds')
    rw [show s'.walk.depg = s'.tg from rfl, DepGraph.mem_add, h.adds, Prod.mk.injEq] at hadds
    rw [hadds, List.mem_append, List.mem_singleton]
    constructor
    · rintro ((⟨hn, hd⟩ | ⟨rfl, rfl⟩) | ⟨t, hnew, hread, rfl⟩)
      · exact ⟨hn.imp (fun hx => hexp.mono hx) Or.inl, hd⟩
      · exact ⟨Or.inr (Or.inr rfl), hroot⟩
      · exact ⟨Or.inl hnew.1, bulkRead_eq_some hread⟩
    · rintro ⟨hn | hn | rfl, hd⟩
      · by_cases hold : n ∈ s.pvisit
        · exact Or.inl (Or.inl ⟨Or.inl hold, hd⟩)
        · refine Or.inr ⟨⟨some ds', false, none, none⟩, ⟨hn, hold⟩, ?_, rfl⟩
          unfold bulkRead
          rw [hd]
          rfl
      · exact Or.inl (Or.inl ⟨Or.inr hn, hd⟩)
      · rw [hroot] at hd
        cases hd
        exact Or.inl (Or.inr ⟨rfl, rfl⟩)
  · intro x hx
    rw [List.mem_append, List.mem_singleton] at hx
    obtain hx | hx | rfl := hx
    · obtain hold | hno := hclean x hx
      · exact h.clean x (Or.inl hold)
      · exact hno
    · exact h.clean x (Or.inr hx)
    · exact not_raisesAt_of_ok ht hds

theorem visitRoot_prepared {fuel : Nat} {r : Str} (h : Prepared w done s)
    (hr : (visitRoot w fuel s r).Returns s') : Prepared w (done ++ [r]) s' := by
  obtain ⟨hmem, heq⟩ | ⟨e, -, heq⟩ | ⟨ht, heq⟩ | ⟨tp, t, ht, hct, hvisit, htg, heq⟩ :=
    visitRoot_cases fuel h.cached r
  · rw [heq, Fueled.pure_returns] at hr
    subst hr
    exact h.pass (Or.inl hmem)
  · rw [heq] at hr
    exact absurd hr Fueled.throw_returns
  · rw [heq, Fueled.pure_returns] at hr
    subst hr
    exact h.pass (Or.inr ht)
  · rw [heq, Fueled.bind_returns] at hr
    obtain ⟨⟨b, t'⟩, hcall, hr⟩ := hr
    rw [Fueled.pure_returns] at hr
    subst hr
    obtain ⟨ds, hds, hc', hclean, hw⟩ := addDepsGraph_returns hct ht hcall
    rw [hvisit] at hclean
    have hstart : t.walk = s.walk := by
      unfold State.walk
      rw [hvisit, htg]
    rw [hstart, htg] at hw
    exact h.walk ht hds hc' hclean hw

theorem graphPrepare_prepared {fuel : Nat} {rs : List Str} (h : Prepared w done s)
    (hr : Fueled.Returns (rs.foldlM (visitRoot w fuel) s) s') : Prepared w (done ++ rs) s' := by
  induction rs generalizing done s with
  | nil =>
      rw [List.foldlM_nil, Fueled.pure_returns] at hr
      subst hr
      rw [List.append_nil]
      exact h
  | cons r rs ih =>
      rw [List.foldlM_cons, Fueled.bind_returns] at hr
      obtain ⟨s₁, hfirst, hrest⟩ := hr
      have := ih (visitRoot_prepared h hfirst) hrest
      rwa [List.append_assoc] at this

theorem graphPrepare_raises {pkgn : Option Str} {fuel : Nat} {e : Exn}
    (h : (graphPrepare w pkgn fuel).Raises e) :
    ∃ n, Reachable w (collectTmpls w pkgn) n ∧ RaisesAt w n e := by
  obtain ⟨r, hr, s, ⟨done, hs⟩, h⟩ := Fueled.foldlM_raises (I := fun s => ∃ done, Prepared w done s)
    (fun s s' r hs h => hs.elim fun done hs => ⟨_, visitRoot_prepared hs h⟩) ⟨[], .init w⟩ h
  obtain ⟨-, heq⟩ | ⟨e', hraises, heq⟩ | ⟨-, heq⟩ | ⟨tp, t, ht, hct, -, -, heq⟩ :=
    visitRoot_cases fuel hs.cached r
  · rw [heq] at h
    exact absurd h Fueled.pure_raises
  · rw [heq] at h
    cases h
    exact ⟨r, ⟨r, hr, .refl⟩, hraises⟩
  · rw [heq] at h
    exact absurd h Fueled.pure_raises
  · rw [heq, Fueled.bind_raises] at h
    obtain h | ⟨_, -, h⟩ := h
    · obtain ⟨n, hn, hraises⟩ := addDepsGraph_raises hct ht h
      exact ⟨n, ⟨r, hr, hn⟩, hraises⟩
    · exact absurd h Fueled.pure_raises

theorem graphPrepare_not_stops {names : Finset Str} (hnames : ∀ n d, Edge (deps w) n d → d ∈ names)
    (pkgn : Option Str) {fuel : Nat} (hfuel : names.card < fuel) :
    ¬ (graphPrepare w pkgn fuel).Stops := by
  intro h
  obtain ⟨r, -, s, ⟨done, hs⟩, h⟩ := Fueled.foldlM_stops (I := fun s => ∃ done, Prepared w done s)
    (fun s s' r hs h => hs.elim fun done hs => ⟨_, visitRoot_prepared hs h⟩) ⟨[], .init w⟩ h
  obtain ⟨-, heq⟩ | ⟨e', -, heq⟩ | ⟨-, heq⟩ | ⟨tp, t, ht, hct, -, -, heq⟩ :=
    visitRoot_cases fuel hs.cached r
  · rw [heq] at h
    exact Fueled.pure_stops h
  · rw [heq] at h
    exact Fueled.throw_stops h
  · rw [heq] at h
    exact Fueled.pure_stops h
  · rw [heq, Fueled.bind_stops] at h
    obtain h | ⟨_, -, h⟩ := h
    · have hle := Finset.card_le_card (Finset.sdiff_subset (s := names) (t := t.pvisit))
      exact addDepsGraph_not_stops hnames hct ht (by omega) h
    · exact Fueled.pure_stops h

/-! ## What the graph holds -/

theorem Prepared.reachable_iff {roots : List Str} (h : Prepared w roots s) (n : Str) :
    Reachable w roots n ↔ n ∈ s.pvisit ∨ n ∈ roots := by
  constructor
  · intro hn
    obtain ⟨r, hr, hpath⟩ := hn
    induction hpath with
    | refl => exact Or.inr hr
    | tail _ hedge ih => exact Or.inl (h.closed _ ih _ hedge)
  · intro hn
    obtain hn | hn := hn
    · exact h.sound n hn
    · exact ⟨n, hn, .refl⟩

theorem Prepared.adds_iff {roots : List Str} (h : Prepared w roots s) (n : Str) (ds : List Str) :
    (n, ds) ∈ s.tg.adds ↔ Reachable w roots n ∧ deps w n = some ds := by
  rw [h.adds, h.reachable_iff]

theorem Prepared.pred_iff {roots : List Str} (h : Prepared w roots s) (n d : Str) :
    s.tg.Pred n d ↔ Reachable w roots n ∧ Edge (deps w) n d := by
  unfold DepGraph.Pred Edge
  simp only [h.adds_iff]
  constructor
  · intro hd
    obtain ⟨ds, ⟨hn, hds⟩, hd⟩ := hd
    exact ⟨hn, ds, hds, hd⟩
  · intro hd
    obtain ⟨hn, ds, hds, hd⟩ := hd
    exact ⟨ds, ⟨hn, hds⟩, hd⟩

/-- A template that depends on itself, directly or through others. -/
def OnCycle (w : World) (n : Str) : Prop := Relation.TransGen (Edge (deps w)) n n

/-- The graph has a cycle when there is one among the templates that are reached. -/
theorem Prepared.cycle_iff {roots : List Str} (h : Prepared w roots s) :
    (∃ n, Relation.TransGen s.tg.Pred n n) ↔ ∃ n, Reachable w roots n ∧ OnCycle w n := by
  constructor
  · intro hc
    obtain ⟨n, hn⟩ := hc
    obtain ⟨m, hm, -⟩ := Relation.TransGen.head'_iff.mp hn
    exact ⟨n, ((h.pred_iff n m).mp hm).1, 
      Relation.TransGen.mono (fun a b hab => ((h.pred_iff a b).mp hab).2) n n hn⟩
  · intro hc
    obtain ⟨n, ⟨r, hr, hrn⟩, hn⟩ := hc
    refine ⟨n, ?_⟩
    -- every template on the way is reached too
    have hpath : ∀ m, Relation.TransGen (Edge (deps w)) n m → Relation.TransGen s.tg.Pred n m := by
      intro m hm
      induction hm with
      | single hd => exact .single ((h.pred_iff n _).mpr ⟨⟨r, hr, hrn⟩, hd⟩)
      | tail hm hd ih =>
          exact ih.tail ((h.pred_iff _ _).mpr ⟨⟨r, hr, hrn.trans hm.to_reflTransGen⟩, hd⟩)
    exact hpath n hn

/-! ## `cycle-check` -/

inductive CheckExn
  | reading (e : Exn)
  | cycle (msg : Str)

def cycleMessage (cycle : List Str) : Str :=
  "cycle encountered: ".toList ++ List.intercalate " <= ".toList cycle

/-- `do_cycle_check`; `prepare` gives the cycle that the `CycleError` of the sorter names. -/
def doCycleCheck (prepare : DepGraph → Option (List Str)) (w : World) (pkgn : Option Str)
    (fuel : Nat) : Fueled CheckExn Unit := do
  let s ← (graphPrepare w pkgn fuel).mapError CheckExn.reading
  match prepare s.tg with
  | none => return ()
  | some cycle => throw (.cycle (cycleMessage cycle))

variable {prepare : DepGraph → Option (List Str)} {pkgn : Option Str} {fuel : Nat}

theorem doCycleCheck_of_raises {e : Exn} (h : (graphPrepare w pkgn fuel).Raises e) :
    (doCycleCheck prepare w pkgn fuel).Raises (.reading e) := by
  unfold doCycleCheck
  rw [Fueled.bind_raises]
  exact Or.inl (Fueled.mapError_of_raises _ h)

theorem doCycleCheck_of_returns (h : (graphPrepare w pkgn fuel).Returns s) :
    (doCycleCheck prepare w pkgn fuel).run = some (match prepare s.tg with
      | none => .ok ()
      | some cycle => .error (.cycle (cycleMessage cycle))) := by
  unfold doCycleCheck
  rw [ExceptT.run_bind, Fueled.mapError_of_returns _ h]
  cases hp : prepare s.tg <;> simp [hp]

theorem finite_deps (hfin : {tp | ∃ n, w.template n = .ok tp}.Finite) :
    ∃ names : Finset Str, ∀ n d, Edge (deps w) n d → d ∈ names := by
  have hnames : {d | ∃ n, Edge (deps w) n d}.Finite := by
    refine (hfin.biUnion (t := fun tp => {d | ∃ ds, tp.getBuildDeps = .ok ds ∧ d ∈ ds}) ?_).subset ?_
    · intro tp _
      cases hds : tp.getBuildDeps with
      | error e => simp
      | ok ds => simp
    · intro d hd
      obtain ⟨n, ds, hds, hd⟩ := hd
      unfold deps at hds
      cases ht : w.template n with
      | error e =>
          rw [ht] at hds
          cases hds
      | ok tp =>
          rw [ht] at hds
          dsimp only at hds
          simp only [Set.mem_iUnion]
          refine ⟨tp, ⟨n, ht⟩, ds, ?_, hd⟩
          cases hok : tp.getBuildDeps with
          | error e =>
              rw [hok] at hds
              cases hds
          | ok ds' =>
              rw [hok] at hds
              cases hds
              rfl
  exact ⟨hnames.toFinset, fun n d h => hnames.mem_toFinset.mpr ⟨n, h⟩⟩

/-- The walk over finitely many templates ends. Either it is ended by an exception of a template
that is reached, or the graph has the build dependencies of exactly the templates that are
reached, each name having been read once, and a cycle is reported if there is one among them. -/
theorem cycleCheck_exact (prepare : DepGraph → Option (List Str))
    (hprepare : ∀ g, (prepare g).isSome = true ↔ ∃ n, Relation.TransGen g.Pred n n) (w : World)
    (hfin : {tp | ∃ n, w.template n = .ok tp}.Finite) (pkgn : Option Str) :
    ∃ bound, ∀ fuel, bound ≤ fuel →
      (∃ n e, Reachable w (collectTmpls w pkgn) n ∧ RaisesAt w n e ∧
        (doCycleCheck prepare w pkgn fuel).Raises (.reading e)) ∨
      (∀ n, Reachable w (collectTmpls w pkgn) n → ∀ e, ¬ RaisesAt w n e) ∧
        ∃ s, (graphPrepare w pkgn fuel).Returns s ∧
          (∀ n ds, (n, ds) ∈ s.tg.adds ↔
            Reachable w (collectTmpls w pkgn) n ∧ deps w n = some ds) ∧
          (s.read.map Prod.fst).Nodup ∧ (∀ e ∈ s.read, w.template e.1 = .ok e.2) ∧
          ((∃ cycle, (doCycleCheck prepare w pkgn fuel).Raises (.cycle (cycleMessage cycle))) ↔
            ∃ n, Reachable w (collectTmpls w pkgn) n ∧ OnCycle w n) ∧
          ((doCycleCheck prepare w pkgn fuel).Returns () ↔
            ¬ ∃ n, Reachable w (collectTmpls w pkgn) n ∧ OnCycle w n) := by
  obtain ⟨names, hnames⟩ := finite_deps hfin
  refine ⟨names.card + 1, fun fuel hfuel => ?_⟩
  obtain ⟨s, hs⟩ | ⟨e, he⟩ := Fueled.ends_of_not_stops (graphPrepare_not_stops hnames pkgn hfuel)
  · right
    have hprep : Prepared w (collectTmpls w pkgn) s := graphPrepare_prepared (.init w) hs
    have hrun : (doCycleCheck prepare w pkgn fuel).run = _ := doCycleCheck_of_returns hs
    have hsome := hprepare s.tg
    rw [hprep.cycle_iff] at hsome
    refine ⟨fun n hn => hprep.clean n ((hprep.reachable_iff n).mp hn), s, hs, hprep.adds_iff, ?_,
      hprep.cached.read, ?_, ?_⟩
    · rw [hprep.cached.keys]
      exact hprep.cached.nodup
    · rw [← hsome]
      unfold Fueled.Raises
      rw [hrun]
      cases prepare s.tg with
      | none => simp
      | some cycle => exact ⟨fun _ => rfl, fun _ => ⟨cycle, rfl⟩⟩
    · rw [← hsome]
      unfold Fueled.Returns
      rw [hrun]
      cases prepare s.tg with
      | none => simp
      | some cycle => simp
  · left
    obtain ⟨n, hn, hraises⟩ := graphPrepare_raises he
    exact ⟨n, e, hn, hraises, doCycleCheck_of_raises he⟩

/-- Two templates that depend on each other; the first is also found by its name with a slash. -/
def slashed : World where
  scanned := ["main/a".toList, "main/b".toList]
  template n :=
    if n = "main/a".toList ∨ n = "main/a/".toList then .ok ⟨"main/a".toList, .ok ["main/b".toList]⟩
    else if n = "main/b".toList then .ok ⟨n, .ok ["main/a".toList]⟩
    else .error .package

theorem slashed_template {n : Str} {tp : Template} (h : slashed.template n = .ok tp) :
    tp = ⟨"main/a".toList, .ok ["main/b".toList]⟩ ∨ tp = ⟨"main/b".toList, .ok ["main/a".toList]⟩ := by
  unfold slashed at h
  dsimp only at h
  split at h
  · cases h
    exact .inl rfl
  · split at h
    · rename_i hn
      cases h
      exact .inr (by rw [hn])
    · cases h

theorem slashed_not_raisesAt (n : Str) (e : Exn) : ¬ RaisesAt slashed n e := by
  cases ht : slashed.template n with
  | ok tp =>
      rcases slashed_template ht with rfl | rfl
      · exact not_raisesAt_of_ok ht rfl e
      · exact not_raisesAt_of_ok ht rfl e
  | error e' =>
      have hpackage : e' = .package := by
        unfold slashed at ht
        dsimp only at ht
        split at ht
        · cases ht
        · split at ht
          · cases ht
          · exact (Except.error.inj ht).symm
      rw [hpackage] at ht
      exact not_raisesAt_of_package ht e

theorem slashed_onCycle : OnCycle slashed "main/a".toList :=
  .tail (.single (show Edge _ _ "main/b".toList from ⟨_, rfl, by decide⟩)) ⟨_, rfl, by decide⟩

/-- The cycle of the two is reported. -/
theorem cycleCheck_slashed : ∃ prepare : DepGraph → Option (List Str),
    (∀ g, (prepare g).isSome = true ↔ ∃ n, Relation.TransGen g.Pred n n) ∧
    ∃ bound, ∀ fuel, bound ≤ fuel →
      ∃ cycle, (doCycleCheck prepare slashed none fuel).Raises (.cycle (cycleMessage cycle)) := by
  classical
  let prepare (g : DepGraph) : Option (List Str) :=
    if ∃ n, Relation.TransGen g.Pred n n then
      some ["main/a".toList, "main/b".toList, "main/a".toList] else none
  have hprepare : ∀ g, (prepare g).isSome = true ↔ ∃ n, Relation.TransGen g.Pred n n := by
    intro g
    dsimp only [prepare]
    split <;> simp_all
  have hfin : {tp | ∃ n, slashed.template n = .ok tp}.Finite :=
    (Set.toFinite {⟨"main/a".toList, .ok ["main/b".toList]⟩,
      ⟨"main/b".toList, .ok ["main/a".toList]⟩}).subset fun _ ⟨_, ht⟩ => slashed_template ht
  have hreach : Reachable slashed (collectTmpls slashed none) "main/a".toList :=
    ⟨_, List.mem_mergeSort.mpr List.mem_cons_self, .refl⟩
  obtain ⟨bound, hbound⟩ := cycleCheck_exact prepare hprepare slashed hfin none
  refine ⟨prepare, hprepare, bound, fun fuel hfuel => ?_⟩
  obtain ⟨n, e, -, hraises, -⟩ | ⟨-, -, -, -, -, -, hcycle, -⟩ := hbound fuel hfuel
  · exact absurd hraises (slashed_not_raisesAt n e)
  · exact hcycle.mpr ⟨_, hreach, slashed_onCycle⟩

/-- The same with a third one that is no template of the language. -/
def unreadable : World where
  scanned := ["main/a".toList, "main/b".toList, "main/c".toList]
  template n :=
    if n = "main/b".toList then .ok ⟨n, .ok ["main/a".toList, "main/c".toList]⟩
    else if n = "main/c".toList then .ok ⟨n, .ok ["main/b".toList]⟩
    else .error .other

/-- A template selected by another name is read a second time by its own, and a cycle is not
reported if another exception comes first. -/
theorem slashed_readTwice : (¬ ∀ s, (graphPrepare slashed (some "main/a/".toList) 4).Returns s →
      (s.read.map fun e => e.2.fullPkgname).Nodup) ∧
    OnCycle unreadable "main/b".toList ∧
      ∀ prepare fuel msg, ¬ (doCycleCheck prepare unreadable (some "main/b".toList) fuel).Raises
        (.cycle msg) := by
  refine ⟨?_, ?_, ?_⟩
  · intro h
    have hrun : (graphPrepare slashed (some "main/a/".toList) 4).returnsWith
        (fun s => !decide (s.read.map fun e : Str × Template => e.2.fullPkgname).Nodup) = true := by
      decide
    obtain ⟨s, hs, hread⟩ := Fueled.exists_returns hrun
    rw [Bool.not_eq_true', decide_eq_false_iff_not] at hread
    exact hread (h s hs)
  · exact .tail (.single ⟨_, rfl, by decide⟩) (show Edge _ "main/c".toList _ from ⟨_, rfl, by decide⟩)
  · intro prepare fuel msg h
    cases fuel with
    | zero => cases h
    | succ fuel => cases h

end Cbuild.Graph
