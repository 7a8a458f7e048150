import Cbuild.Bulk.Finish

/-! # Requests whose dependency graph does not parse

Bulk mode is to record a request exactly when everything its dependency graph
reaches parses. A failure is reported to the first walk that meets it, and a
request that depends on another one is not told how that one fared; the record
is exact when every such request happens to be the first to meet some failure.
-/

namespace Cbuild.Bulk

open Lib

variable {o : Opts} {w : World} {R : Finset Str} {p : Str}

/-- What bulk mode reads for a name: a request is read to be built. -/
def World.view (w : World) (R : Finset Str) (n : Str) : Option Tmpl :=
  if n ∈ R then (w.bulkTemplate n).toOption else w.readDep n

/-- Every template in the transitive dependency graph of `p` parses. -/
def GraphParses (w : World) (R : Finset Str) (p : Str) : Prop :=
  ∀ x, Relation.ReflTransGen (Edge (depsOf (w.view R))) p x → w.view R x ≠ none

/-- What a run records and builds is what has a dependency graph that parses. -/
def RecordsExactly (o : Opts) (w : World) (pkgs : List Str) (run : Run) : Prop :=
  (∀ p ∈ requested o w pkgs, Walkable w p →
    ((∃ t, (p, t) ∈ run.templates) ↔ GraphParses w (requested o w pkgs) p)) ∧
  ∀ p ∈ run.attempts, GraphParses w (requested o w pkgs) p

theorem view_edge_of_notMem {a b : Str} (ha : a ∉ R) (h : DepEdge w a b) :
    Edge (depsOf (w.view R)) a b := by
  obtain ⟨l, hl, hb⟩ := h
  refine ⟨l, ?_, hb⟩
  simpa [depsOf, World.view, ha] using hl

/-- A chain is a path of the graph a run reads. -/
theorem Chain.path (hp : p ∈ R) {x : Str} (h : Chain w R p x) :
    Relation.ReflTransGen (Edge (depsOf (w.view R))) p x := by
  obtain ⟨d, ⟨t, ht, hd⟩, hdR, hpath⟩ := h
  have hfirst : Edge (depsOf (w.view R)) p d := by
    refine ⟨t.deps, ?_, hd⟩
    simp [depsOf, World.view, hp, ht, Except.toOption]
  refine .head hfirst ?_
  induction hpath with
  | refl => exact .refl
  | @tail a b hda hab ih =>
      have haR : a ∉ R := FreshReach.end_notMem ⟨hdR, hda⟩
      exact ih.tail (view_edge_of_notMem haR hab.1)

/-- Only requests with a bad dependency graph are turned away for it. -/
theorem DepFails.not_graphParses (hp : p ∈ R) (h : DepFails w R p) : ¬ GraphParses w R p := by
  intro hall
  obtain ⟨u, hchain, hu, _⟩ := h
  have hview : w.view R u = none := by
    rw [World.view, if_neg hchain.notMem, hu]
  exact hall u (hchain.path hp) hview

/-- The loop gets through the request `p`: neither the walk of `base-cbuild` nor one up to that
of `p` raises. -/
def Handled (o : Opts) (w : World) (R : Finset Str) (p : Str) : Prop :=
  (∃ base, w.depTemplate baseCbuild = .ok base) ∧ ¬ BaseRaises o w ∧
    ∀ q ∈ R, q ≤ p → ¬ Raises o w R q

/-- What a run that continues records. -/
theorem mem_templates_iff (hcont : o.bulkcont = true) (pkgs : List Str)
    (ordl : Option (List Str)) (q : Str) (t : Tmpl) :
    (q, t) ∈ (bulkpkg o w pkgs ordl).templates ↔ q ∈ requested o w pkgs ∧
      Handled o w (requested o w pkgs) q ∧ Accepted o w (requested o w pkgs) q ∧
        w.bulkTemplate q = .ok t := by
  cases hbase : w.depTemplate baseCbuild with
  | error e =>
      have hrun : bulkpkg o w pkgs ordl =
          ⟨(resolve o w pkgs).status, [], [], [], [], .baseError e⟩ := by
        simp only [bulkpkg, hbase]
      simp [hrun, Handled, hbase]
  | ok base =>
      rw [bulkpkg_templates hbase, parseAll_templates_iff hbase hcont, Handled, hbase]
      simp only [Except.ok.injEq, exists_eq', true_and, and_assoc, requested]

/-- A sorted run that continues records the requests that it gets through and that are not the
first to meet a failure. -/
theorem recorded_iff (hraw : o.doRaw = false) (hcont : o.bulkcont = true) (pkgs : List Str)
    (ordl : Option (List Str)) (hp : p ∈ requested o w pkgs) (hwalk : Walkable w p) :
    (∃ t, (p, t) ∈ (bulkpkg o w pkgs ordl).templates) ↔
      Handled o w (requested o w pkgs) p ∧ ¬ DepFails w (requested o w pkgs) p := by
  obtain ⟨t, ht, _⟩ := id hwalk
  have hacc : Accepted o w (requested o w pkgs) p ↔ ¬ DepFails w (requested o w pkgs) p := by
    simp [Accepted, hwalk, hraw]
  simp only [mem_templates_iff hcont, hacc, ht, hp, true_and, Except.ok.injEq]
  simp

/-- A request which the loop does not get through has no graph that parses, and every other bad
dependency graph is met first by its own request. -/
structure MetFirst (o : Opts) (w : World) (R : Finset Str) : Prop where
  handled : ∀ p ∈ R, Walkable w p → GraphParses w R p → Handled o w R p
  first : ∀ p ∈ R, Walkable w p → Handled o w R p → ¬ GraphParses w R p → DepFails w R p

/-- When the record of a sorted run with `bulk_continue` is exact. -/
theorem recordsExactly_iff (hraw : o.doRaw = false) (hcont : o.bulkcont = true)
    (pkgs : List Str) (ordl : Option (List Str)) :
    RecordsExactly o w pkgs (bulkpkg o w pkgs ordl) ↔ MetFirst o w (requested o w pkgs) := by
  have hrec := fun p hp hwalk => recorded_iff (w := w) (p := p) hraw hcont pkgs ordl hp hwalk
  constructor
  · intro h
    refine ⟨fun p hp hwalk hgood => ?_, fun p hp hwalk hhandled hbad => ?_⟩
    · exact ((hrec p hp hwalk).mp ((h.1 p hp hwalk).mpr hgood)).1
    · by_contra hno
      exact hbad ((h.1 p hp hwalk).mp ((hrec p hp hwalk).mpr ⟨hhandled, hno⟩))
  · intro h
    have hexact : ∀ p ∈ requested o w pkgs, Walkable w p →
        ((∃ t, (p, t) ∈ (bulkpkg o w pkgs ordl).templates) ↔
          GraphParses w (requested o w pkgs) p) := by
      intro p hp hwalk
      rw [hrec p hp hwalk]
      constructor
      · intro ⟨hhandled, hno⟩
        by_contra hbad
        exact hno (h.first p hp hwalk hhandled hbad)
      · intro hgood
        exact ⟨h.handled p hp hwalk hgood, fun hdep => hdep.not_graphParses hp hgood⟩
    refine ⟨hexact, fun p hp => ?_⟩
    obtain ⟨t, ht⟩ := bulkpkg_attempts pkgs ordl p hp
    obtain ⟨hpR, _, hacc, _⟩ := (mem_templates_iff hcont pkgs ordl p t).mp ht
    exact (hexact p hpR hacc.1).mp ⟨t, ht⟩

/-- `bulk-pkg` with `bulk_continue` and everything else at its default. -/
def continuing : Opts := ⟨true, false, false, false, .build⟩

/-- Nothing but `base-cbuild` parses as a dependency. -/
def baseOnly (d : Str) : Except Exn Tmpl :=
  if d = baseCbuild then .ok ⟨some [], false, none, none⟩ else .error .other

theorem baseOnly_mem (d : Str) (t : Tmpl) (h : baseOnly d = .ok t) :
    d ∈ ({baseCbuild} : Finset Str) := by
  unfold baseOnly at h
  split at h
  · rename_i hd
    exact Finset.mem_singleton.mpr hd
  · contradiction

/-- A tree without build dependencies. -/
def noDeps : World where
  sanitizePkgname := fun pn => .found "main".toList (pn.drop 5)
  bulkTemplate := fun _ => .ok ⟨some [], false, none, none⟩
  depTemplate := baseOnly
  tree := {baseCbuild}
  depTemplate_mem := baseOnly_mem
  isBuilt := fun _ => false
  build := fun _ _ => .ok ()

/-- `main/a` and `main/b` share the dependency `main/c`; `main/b` has one more, which does not
parse. -/
def sharedDep : World where
  sanitizePkgname := fun pn => .found "main".toList (pn.drop 5)
  bulkTemplate := fun pn =>
    .ok ⟨some (if pn = "main/a".toList then ["main/c".toList] else ["main/c".toList, "main/d".toList]),
      false, none, none⟩
  depTemplate := fun d =>
    if d = "main/c".toList then .ok ⟨some [], false, none, none⟩ else baseOnly d
  tree := {baseCbuild, "main/c".toList}
  depTemplate_mem := by
    intro d t h
    split at h
    · rename_i hd
      rw [hd]
      decide
    · exact Finset.mem_insert.mpr (.inl (Finset.mem_singleton.mp (baseOnly_mem d t h)))
  isBuilt := fun _ => false
  build := fun _ _ => .ok ()

def twoRequests : List Str := ["main/a".toList, "main/b".toList]

theorem tellsAll_sharedDep : TellsAll sharedDep where
  deps := by
    intro n ⟨t, ht, hnone⟩
    simp only [World.readDep, sharedDep, baseOnly] at ht
    split at ht <;> [skip; split at ht]
    all_goals cases ht
    all_goals contradiction
  requests := by
    intro p t ht
    cases ht
    exact Option.some_ne_none _

theorem requested_sharedDep :
    requested continuing sharedDep twoRequests = {"main/a".toList, "main/b".toList} := by
  decide

theorem chain_sharedDep {x : Str} (h : Chain sharedDep (requested continuing sharedDep twoRequests)
    "main/a".toList x) : x = "main/c".toList := by
  obtain ⟨d, ⟨t, ht, hd⟩, _, hpath⟩ := h
  cases ht
  have hdc : d = "main/c".toList := by simpa [Tmpl.deps] using hd
  rw [hdc] at hpath
  induction hpath with
  | refl => rfl
  | tail _ hstep ih =>
      obtain ⟨⟨l, hl, hmem⟩, _⟩ := hstep
      rw [ih] at hl
      cases hl
      contradiction

/-- `main/a` is recorded and `main/b`, which meets the failure, is not. -/
theorem recordsExactly_sharedDep : RecordsExactly continuing sharedDep twoRequests
    (bulkpkg continuing sharedDep twoRequests
      (some [baseCbuild, "main/c".toList, "main/d".toList, "main/a".toList, "main/b".toList])) := by
  have htold := tellsAll_sharedDep
  have hR := requested_sharedDep
  have hbase : ∀ x, ¬ InBase sharedDep x := by
    intro x ⟨d, ⟨l, hl, hd⟩, _⟩
    cases hl
    contradiction
  refine (recordsExactly_iff rfl rfl _ _).mpr
    ⟨fun p _ _ _ => ⟨⟨_, rfl⟩, htold.not_baseRaises, fun q _ _ => htold.not_raises⟩,
      fun p hp _ _ hbad => ?_⟩
  rw [hR, Finset.mem_insert, Finset.mem_singleton] at hp
  rcases hp with rfl | rfl
  · refine absurd (fun x hx => ?_) hbad
    have hstep : ∀ y, Edge (depsOf (sharedDep.view (requested continuing sharedDep twoRequests)))
        "main/a".toList y → y = "main/c".toList := by
      intro y ⟨l, hl, hy⟩
      cases hl
      simpa [Tmpl.deps] using hy
    rcases Relation.ReflTransGen.cases_head hx with heq | ⟨d, hd, hrest⟩
    · rw [← heq]
      decide
    · rw [hstep d hd] at hrest
      rcases Relation.ReflTransGen.cases_head hrest with heq | ⟨e, ⟨l, hl, he⟩, _⟩
      · rw [← heq]
        decide
      · cases hl
        contradiction
  · refine ⟨"main/d".toList, ⟨"main/d".toList, ⟨_, rfl, by decide⟩, .refl (by decide)⟩, by decide,
      hbase _, fun q hq hlt _ hchain => ?_⟩
    rw [hR, Finset.mem_insert, Finset.mem_singleton] at hq
    rcases hq with rfl | rfl
    · exact absurd (chain_sharedDep hchain) (by decide)
    · exact absurd hlt (lt_irrefl _)

/-- Two requests share a dependency that does not parse. -/
def sharedFailure : World where
  sanitizePkgname := fun pn => .found "main".toList (pn.drop 5)
  bulkTemplate := fun _ => .ok ⟨some ["main/c".toList], false, none, none⟩
  depTemplate := baseOnly
  tree := {baseCbuild}
  depTemplate_mem := baseOnly_mem
  isBuilt := fun _ => false
  build := fun _ _ => .ok ()

/-- `main/a` meets the failure first, and `main/b` is built in spite of it. -/
theorem sharedFailure_not_recordsExactly :
    ¬ RecordsExactly continuing sharedFailure ["main/a".toList, "main/b".toList]
      (bulkpkg continuing sharedFailure ["main/a".toList, "main/b".toList]
        (some [baseCbuild, "main/c".toList, "main/a".toList, "main/b".toList])) := by
  have hsorted : (resolve continuing sharedFailure ["main/a".toList, "main/b".toList]).sorted =
      ["main/a".toList, "main/b".toList] := sorted_eq _ (by decide) (by decide)
  intro h
  have hbuilt : "main/b".toList ∈ (bulkpkg continuing sharedFailure
      ["main/a".toList, "main/b".toList]
      (some [baseCbuild, "main/c".toList, "main/a".toList, "main/b".toList])).attempts := by
    simp only [bulkpkg, parseAll, hsorted]
    decide
  have hedge : Edge (depsOf (sharedFailure.view
      (requested continuing sharedFailure ["main/a".toList, "main/b".toList])))
      "main/b".toList "main/c".toList := ⟨["main/c".toList], by decide, by decide⟩
  exact h.2 _ hbuilt "main/c".toList (.single hedge) (by decide)

end Cbuild.Bulk
