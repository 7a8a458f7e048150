import Cbuild.Bulk.Closure
import Cbuild.Lib.Topo

/-! # The order of the bulk list

The sorter knows the edges the walks entered. The list is in dependency order
when every dependency path between two listed requests has a counterpart among
these edges; the walks leave out the dependencies of a request that is broken,
since it counts as visited and is never walked.
-/

namespace Cbuild.Bulk

open Lib

variable {o : Opts} {w : World} {R : Finset Str} {p q n d : Str}

/-- What `static_order` may yield. -/
def StaticOrder (g : DepGraph) (l : List Str) : Prop := TopoOrder g.Node g.Pred l

/-- A static order can be checked entry by entry. -/
theorem staticOrder_iff (g : DepGraph) (l : List Str) :
    StaticOrder g l ↔ l.Nodup ∧ (∀ n ∈ l, ∃ a ∈ g.adds, n = a.1 ∨ n ∈ a.2) ∧
      ∀ a ∈ g.adds, a.1 ∈ l ∧ ∀ d ∈ a.2, Precedes d a.1 l := by
  constructor
  · intro h
    refine ⟨h.nodup, fun n hn => (h.mem_iff n).mp hn, fun a ha => ?_⟩
    exact ⟨(h.mem_iff a.1).mpr ⟨a, ha, .inl rfl⟩, fun d hd => h.edges a.1 d ⟨a.2, ha, hd⟩⟩
  · intro h
    obtain ⟨hnd, hnodes, hadds⟩ := h
    refine ⟨hnd, fun n => ⟨fun hn => hnodes n hn, fun hn => ?_⟩, fun n d hd => ?_⟩
    · obtain ⟨a, ha, hna⟩ := hn
      rcases hna with rfl | hna
      · exact (hadds a ha).1
      · exact ((hadds a ha).2 n hna).mem_left
    · obtain ⟨ps, hps, hdps⟩ := hd
      exact (hadds (n, ps) hps).2 d hdps

instance (g : DepGraph) (l : List Str) : Decidable (StaticOrder g l) :=
  decidable_of_iff _ (staticOrder_iff g l).symm

/-- The nodes of a sorter as a finite set. -/
def DepGraph.nodes (g : DepGraph) : Finset Str := (g.adds.flatMap fun a => a.1 :: a.2).toFinset

theorem DepGraph.mem_nodes (g : DepGraph) (n : Str) : n ∈ g.nodes ↔ g.Node n := by
  simp [nodes, DepGraph.Node]

theorem DepGraph.pred_nodes (g : DepGraph) (h : g.Pred n d) : n ∈ g.nodes ∧ d ∈ g.nodes := by
  obtain ⟨ps, hps, hd⟩ := h
  exact ⟨(g.mem_nodes n).mpr ⟨_, hps, .inl rfl⟩, (g.mem_nodes d).mpr ⟨_, hps, .inr hd⟩⟩

/-- What `static_order` does in a run: it yields an order if there is one, and raises
`CycleError` if there is none. -/
def SorterYields (g : DepGraph) (ordl : Option (List Str)) : Prop :=
  match ordl with
  | some l => StaticOrder g l
  | none => ¬ ∃ l, StaticOrder g l

theorem sorterYields_none {g : DepGraph} (h : SorterYields g none) : ¬ Acyclic g.Pred := by
  intro hacyclic
  obtain ⟨l, hl⟩ := exists_topoOrder g.nodes hacyclic (fun n d hnd => g.pred_nodes hnd)
  exact h ⟨l, hl.nodup, fun n => by rw [hl.mem_iff, DepGraph.mem_nodes], hl.edges⟩

/-! ## The edges of the sorter -/

/-- The sorter once the parse loop is done. -/
def orderGraph (o : Opts) (w : World) (pkgs : List Str) : DepGraph :=
  match w.depTemplate baseCbuild with
  | .error _ => .empty
  | .ok base => (parseAll o w (resolve o w pkgs) base).walk.depg

/-- The edges the walks enter: out of `base-cbuild` and its closure, and for every request
that is walked its own dependencies, the one on `base-cbuild`, and those of what it
reaches without passing through a request. -/
def OrderEdge (w : World) (R : Finset Str) (n d : Str) : Prop :=
  ((n = baseCbuild ∨ InBase w n) ∧ DepEdge w n d) ∨
    ∃ q ∈ R, Walkable w q ∧ ((n = q ∧ BulkDep w q d) ∨
      (n = q ∧ d = baseCbuild ∧ Outside w R q) ∨ (Chain w R q n ∧ DepEdge w n d))

theorem enteredBy_iff : (∃ ps, EnteredBy w R q (n, ps) ∧ d ∈ ps) ↔
    (n = q ∧ BulkDep w q d) ∨ (n = q ∧ d = baseCbuild ∧ Outside w R q) ∨
      (Chain w R q n ∧ DepEdge w n d) := by
  simp only [EnteredBy, depEdge_iff, BulkDep]
  constructor
  · intro h
    obtain ⟨ps, ⟨t, ht, heq⟩ | ⟨heq, hout⟩ | ⟨hc, t, ht, hps⟩, hd⟩ := h
    · cases heq
      exact .inl ⟨rfl, t, ht, hd⟩
    · cases heq
      exact .inr (.inl ⟨rfl, List.mem_singleton.mp hd, hout⟩)
    · cases hps
      exact .inr (.inr ⟨hc, t, ht, hd⟩)
  · intro h
    rcases h with ⟨rfl, t, ht, hd⟩ | ⟨rfl, rfl, hout⟩ | ⟨hc, t, ht, hd⟩
    · exact ⟨t.deps, .inl ⟨t, ht, rfl⟩, hd⟩
    · exact ⟨[baseCbuild], .inr (.inl ⟨rfl, hout⟩), List.mem_singleton_self baseCbuild⟩
    · exact ⟨t.deps, .inr (.inr ⟨hc, t, ht, rfl⟩), hd⟩

theorem enteredByBase_iff : (∃ ps, EnteredByBase w (n, ps) ∧ d ∈ ps) ↔
    (n = baseCbuild ∨ InBase w n) ∧ DepEdge w n d := by
  simp only [EnteredByBase, depEdge_iff]
  constructor
  · intro h
    obtain ⟨ps, ⟨hn, t, ht, hps⟩, hd⟩ := h
    cases hps
    exact ⟨hn, t, ht, hd⟩
  · intro h
    obtain ⟨hn, t, ht, hd⟩ := h
    exact ⟨t.deps, ⟨hn, t, ht, rfl⟩, hd⟩

/-- The edges of a sorter once everything has been walked. -/
theorem Visited.pred_iff {ps : List Str} {s : Walk Bool} (h : Visited w R ps s)
    (hps : ∀ q, q ∈ ps ↔ q ∈ R) (n d : Str) : s.depg.Pred n d ↔ OrderEdge w R n d := by
  rw [OrderEdge, ← enteredByBase_iff]
  simp only [← enteredBy_iff, DepGraph.Pred, h.adds, hps]
  constructor
  · intro hx
    obtain ⟨l, hB | ⟨q, hq, hw, he⟩, hd⟩ := hx
    · exact .inl ⟨l, hB, hd⟩
    · exact .inr ⟨q, hq, hw, l, he, hd⟩
  · intro hx
    rcases hx with ⟨l, hB, hd⟩ | ⟨q, hq, hw, l, he, hd⟩
    · exact ⟨l, .inl hB, hd⟩
    · exact ⟨l, .inr ⟨q, hq, hw, he⟩, hd⟩

theorem orderGraph_pred_iff (hraw : o.doRaw = false) {base : Tmpl}
    (hbase : w.depTemplate baseCbuild = .ok base) {pkgs : List Str} (htold : ¬ Leaves o w pkgs)
    (hgo : o.bulkcont = true ∨ NoFailure o w (resolve o w pkgs)) (n d : Str) :
    (orderGraph o w pkgs).Pred n d ↔ OrderEdge w (requested o w pkgs) n d := by
  have hvisited := (parsed_all hbase (mt (leaves_iff o w pkgs).mpr htold) hgo).visited hraw
  rw [orderGraph, hbase]
  exact hvisited.pred_iff (fun q => mem_sorted _ q) n d

/-! ## What is listed -/

/-- A request that ends up on the list. -/
structure Listed (o : Opts) (w : World) (pkgs : List Str) (p : Str) : Prop where
  base : ∃ base, w.depTemplate baseCbuild = .ok base
  told : ¬ Leaves o w pkgs
  reached : o.bulkcont = true ∨ ¬ Failure o w pkgs (fun _ => True)
  requested : p ∈ requested o w pkgs
  accepted : Accepted o w (Bulk.requested o w pkgs) p
  toBuild : ¬ (o.force = false ∧ w.isBuilt p = true)

/-- What the third loop makes of an order, as a filter. -/
theorem filterMap_listed (hv : o.doBuild ≠ .print true) (templates : List (Str × Tmpl))
    (l : List Str) :
    l.filterMap (listed o w templates) = l.filter fun pn => (listed o w templates pn).isSome := by
  induction l with
  | nil => rfl
  | cons pn l ih =>
      cases hl : listed o w templates pn with
      | none => rw [List.filterMap_cons_none hl, List.filter_cons_of_neg (by simp [hl]), ih]
      | some q =>
          have hq := ((listed_eq_some_iff hv templates pn q).mp hl).1
          rw [List.filterMap_cons_some hl, List.filter_cons_of_pos (by simp [hl]), ih, hq]

/-- The list of a run whose sorter yields `l`. -/
def listOf (o : Opts) (w : World) (pkgs : List Str) (l : List Str) : List Str :=
  (bulkpkg o w pkgs (some l)).flist

theorem listOf_eq (hraw : o.doRaw = false) {base : Tmpl}
    (hbase : w.depTemplate baseCbuild = .ok base) {pkgs : List Str} (htold : ¬ Leaves o w pkgs)
    (hgo : o.bulkcont = true ∨ NoFailure o w (resolve o w pkgs)) (l : List Str) :
    listOf o w pkgs l = l.filterMap (listed o w (parseAll o w (resolve o w pkgs) base).templates) := by
  have hproceeds : Proceeds o (parseAll o w (resolve o w pkgs) base) :=
    (proceeds_iff hbase (mt (leaves_iff o w pkgs).mpr htold)).mpr hgo
  generalize hrun : bulkpkg o w pkgs (some l) = run
  have hcase := bulkpkg_cases o w pkgs (some l)
  rw [hrun] at hcase
  rw [listOf, hrun]
  cases hcase with
  | baseError e he =>
      rw [hbase] at he
      contradiction
  | escaped b hb hesc => exact absurd ((leaves_iff o w pkgs).mpr hesc) htold
  | raw b hb _ hr =>
      rw [hraw] at hr
      contradiction
  | stopped b hb _ _ hstop =>
      rw [hbase] at hb
      cases hb
      exact absurd hproceeds hstop
  | cycle b hb _ _ _ hordl => contradiction
  | sorted b hb _ _ _ l' hordl =>
      rw [hbase] at hb
      cases hb
      cases hordl
      exact congrArg Listing.flist (listing_eq hproceeds l)

/-- Nothing is listed by a run that does not get to the third loop. -/
theorem listOf_mem (hraw : o.doRaw = false) {pkgs l : List Str} (h : p ∈ listOf o w pkgs l) :
    (∃ base, w.depTemplate baseCbuild = .ok base) ∧ ¬ Leaves o w pkgs ∧
      (o.bulkcont = true ∨ NoFailure o w (resolve o w pkgs)) := by
  generalize hrun : bulkpkg o w pkgs (some l) = run at h
  have hcase := bulkpkg_cases o w pkgs (some l)
  rw [listOf, hrun] at h
  rw [hrun] at hcase
  cases hcase with
  | baseError e he => contradiction
  | escaped b hb _ => contradiction
  | raw b hb _ hr =>
      rw [hraw] at hr
      contradiction
  | stopped b hb _ _ hstop =>
      have hnil : (finish o w (parseAll o w (resolve o w pkgs) b) []).flist = [] :=
        congrArg Listing.flist (listing_stop hstop [])
      rw [hnil] at h
      contradiction
  | cycle b hb _ _ _ hordl => contradiction
  | sorted b hb hesc _ hgo _ _ =>
      exact ⟨⟨b, hb⟩, mt (leaves_iff o w pkgs).mp hesc, (proceeds_iff hb hesc).mp hgo⟩

/-- Accepted requests have been entered into the sorter. -/
theorem accepted_mem_order (hraw : o.doRaw = false) {base : Tmpl}
    (hbase : w.depTemplate baseCbuild = .ok base) {pkgs l : List Str} (htold : ¬ Leaves o w pkgs)
    (hgo : o.bulkcont = true ∨ NoFailure o w (resolve o w pkgs))
    (hl : StaticOrder (orderGraph o w pkgs) l) (hR : p ∈ requested o w pkgs)
    (hacc : Accepted o w (requested o w pkgs) p) : p ∈ l := by
  obtain ⟨t, ht, hbr⟩ := hacc.1
  rw [hl.mem_iff, orderGraph, hbase]
  have hvisited := (parsed_all hbase (mt (leaves_iff o w pkgs).mpr htold) hgo).visited hraw
  refine ⟨(p, t.deps), (hvisited.adds _).mpr (.inr ?_), .inl rfl⟩
  exact ⟨p, (mem_sorted _ p).mpr hR, ⟨t, ht, hbr⟩, .inl ⟨t, ht, rfl⟩⟩

/-- A static order lists what is accepted and not built. -/
theorem mem_listOf_iff (hraw : o.doRaw = false) (hv : o.doBuild ≠ .print true) {pkgs l : List Str}
    (hl : StaticOrder (orderGraph o w pkgs) l) (p : Str) :
    p ∈ listOf o w pkgs l ↔ Listed o w pkgs p := by
  have hmain : ∀ base, w.depTemplate baseCbuild = .ok base → ¬ Leaves o w pkgs →
      (o.bulkcont = true ∨ NoFailure o w (resolve o w pkgs)) →
      (p ∈ listOf o w pkgs l ↔ p ∈ requested o w pkgs ∧ Accepted o w (requested o w pkgs) p ∧
        ¬ (o.force = false ∧ w.isBuilt p = true)) := by
    intro base hbase htold hgo
    have hparsed := parsed_all hbase (mt (leaves_iff o w pkgs).mpr htold) hgo
    rw [listOf_eq hraw hbase htold hgo]
    simp only [List.mem_filterMap, listed_eq_some_iff hv, lookup_isSome_iff, hparsed.templates,
      mem_sorted]
    constructor
    · intro h
      obtain ⟨a, _, rfl, ⟨t, hR, hacc, _⟩, hnb⟩ := h
      exact ⟨hR, hacc, hnb⟩
    · intro h
      obtain ⟨hR, hacc, hnb⟩ := h
      obtain ⟨t, ht, _⟩ := hacc.1
      exact ⟨p, accepted_mem_order hraw hbase htold hgo hl hR hacc, rfl, ⟨t, hR, hacc, ht⟩, hnb⟩
  constructor
  · intro h
    obtain ⟨⟨base, hbase⟩, htold, hgo⟩ := listOf_mem hraw h
    obtain ⟨hR, hacc, hnb⟩ := (hmain base hbase htold hgo).mp h
    exact ⟨⟨base, hbase⟩, htold, hgo.imp_right (noFailure_iff o w pkgs).mp, hR, hacc, hnb⟩
  · intro h
    obtain ⟨base, hbase⟩ := h.base
    have hgo := h.reached.imp_right (noFailure_iff o w pkgs).mpr
    exact (hmain base hbase h.told hgo).mpr ⟨h.requested, h.accepted, h.toBuild⟩

theorem listOf_precedes_iff (hraw : o.doRaw = false) (hv : o.doBuild ≠ .print true)
    {pkgs l : List Str} (hp : p ∈ listOf o w pkgs l) (hq : q ∈ listOf o w pkgs l) :
    Precedes p q (listOf o w pkgs l) ↔ Precedes p q l := by
  obtain ⟨⟨base, hbase⟩, htold, hgo⟩ := listOf_mem hraw hp
  rw [listOf_eq hraw hbase htold hgo, filterMap_listed hv] at hp hq ⊢
  rw [precedes_filter_iff]
  exact ⟨fun h => h.1, fun h => ⟨h, (List.mem_filter.mp hp).2, (List.mem_filter.mp hq).2⟩⟩

/-! ## Dependency order -/

/-- Whatever static order the sorter yields, the list is in dependency order. -/
def BuildsInOrder (o : Opts) (w : World) (pkgs : List Str) : Prop :=
  ∀ l, StaticOrder (orderGraph o w pkgs) l → ∀ p ∈ listOf o w pkgs l, ∀ q ∈ listOf o w pkgs l,
    Relation.TransGen (Edge (depsOf (w.view (requested o w pkgs)))) p q →
    Precedes q p (listOf o w pkgs l)

/-- The list is in dependency order exactly when the sorter finds a cycle or every
dependency path between listed requests is matched by edges the walks entered. -/
theorem buildsInOrder_iff (hraw : o.doRaw = false) (hv : o.doBuild ≠ .print true)
    (pkgs : List Str) : BuildsInOrder o w pkgs ↔
      (Acyclic (OrderEdge w (requested o w pkgs)) →
        ∀ p q, Listed o w pkgs p → Listed o w pkgs q →
        Relation.TransGen (Edge (depsOf (w.view (requested o w pkgs)))) p q →
        Relation.TransGen (OrderEdge w (requested o w pkgs)) p q) := by
  have hedges : ∀ p, Listed o w pkgs p →
      (orderGraph o w pkgs).Pred = OrderEdge w (requested o w pkgs) := by
    intro p hp
    obtain ⟨base, hbase⟩ := hp.base
    funext n d
    exact propext (orderGraph_pred_iff hraw hbase hp.told
      (hp.reached.imp_right (noFailure_iff o w pkgs).mpr) n d)
  constructor
  · intro h hacyclic p q hp hq hview
    by_contra hno
    have hpred := hedges p hp
    rw [← hpred] at hacyclic hno
    have hex : ∃ l, StaticOrder (orderGraph o w pkgs) l ∧ (p ≠ q → Precedes p q l) := by
      have hpredNodes : ∀ n d, (orderGraph o w pkgs).Pred n d →
          n ∈ (orderGraph o w pkgs).nodes ∧ d ∈ (orderGraph o w pkgs).nodes :=
        fun n d hnd => (orderGraph o w pkgs).pred_nodes hnd
      have hstatic : ∀ l, TopoOrder (· ∈ (orderGraph o w pkgs).nodes)
          (orderGraph o w pkgs).Pred l → StaticOrder (orderGraph o w pkgs) l :=
        fun l hl => ⟨hl.nodup, fun n => by rw [hl.mem_iff, DepGraph.mem_nodes], hl.edges⟩
      obtain ⟨l₀, hl₀⟩ := exists_topoOrder _ hacyclic hpredNodes
      by_cases hpq : p = q
      · exact ⟨l₀, hstatic l₀ hl₀, fun hne => absurd hpq hne⟩
      · have hnode : ∀ x, Listed o w pkgs x → x ∈ (orderGraph o w pkgs).nodes := by
          intro x hx
          have hmem := (mem_listOf_iff hraw hv (hstatic l₀ hl₀) x).mpr hx
          obtain ⟨⟨base, hbase⟩, htold, hgo⟩ := listOf_mem hraw hmem
          rw [listOf_eq hraw hbase htold hgo, filterMap_listed hv] at hmem
          exact (hl₀.mem_iff x).mp (List.mem_filter.mp hmem).1
        have hpath : ¬ Relation.ReflTransGen (orderGraph o w pkgs).Pred p q := by
          intro hpath
          rcases Relation.reflTransGen_iff_eq_or_transGen.mp hpath with heq | htrans
          · exact hpq heq.symm
          · exact hno htrans
        obtain ⟨l, hl, hbefore⟩ := exists_topoOrder_before _ hacyclic hpredNodes (hnode p hp)
          (hnode q hq) hpath
        exact ⟨l, hstatic l hl, fun _ => hbefore⟩
    obtain ⟨l, hl, hbefore⟩ := hex
    have hpl := (mem_listOf_iff hraw hv hl p).mpr hp
    have hql := (mem_listOf_iff hraw hv hl q).mpr hq
    have hqp := (listOf_precedes_iff hraw hv hql hpl).mp (h l hl p hpl q hql hview)
    exact hqp.asymm hl.nodup (hbefore (hqp.ne hl.nodup).symm)
  · intro h l hl p hp q hq hview
    have hpl := (mem_listOf_iff hraw hv hl p).mp hp
    have hql := (mem_listOf_iff hraw hv hl q).mp hq
    have hpred := hedges p hpl
    have hacyclic := hl.acyclic
    rw [hpred] at hacyclic
    have hpath := h hacyclic p q hpl hql hview
    rw [← hpred] at hpath
    exact (listOf_precedes_iff hraw hv hq hp).mpr (hl.precedes hpath)

/-- Without broken requests every dependency path is made of edges the walks entered: each
template on it is a walked request, or reached from one without passing through a request. -/
theorem orderPath_of_not_broken (hno : ∀ p ∈ R, ¬ Broken w p) (hp : p ∈ R)
    (h : Relation.TransGen (Edge (depsOf (w.view R))) p q) :
    Relation.TransGen (OrderEdge w R) p q := by
  -- what holds of every template on the path
  have hstep : ∀ a b, (a ∈ R ∨ ∃ r ∈ R, Walkable w r ∧ Chain w R r a) →
      Edge (depsOf (w.view R)) a b →
      OrderEdge w R a b ∧ (b ∈ R ∨ ∃ r ∈ R, Walkable w r ∧ Chain w R r b) := by
    intro a b ha hab
    obtain ⟨l, hl, hb⟩ := hab
    by_cases haR : a ∈ R
    · cases ht : w.bulkTemplate a with
      | error e =>
          simp [depsOf, World.view, haR, ht, Except.toOption] at hl
      | ok t =>
          have hlt : t.deps = l := by
            simpa [depsOf, World.view, haR, ht, Except.toOption] using hl
          have hdep : BulkDep w a b := ⟨t, ht, by rw [hlt]; exact hb⟩
          have hwalk : Walkable w a := by
            refine ⟨t, ht, Bool.eq_false_iff.mpr fun hbr => ?_⟩
            exact hno a haR ⟨t, ht, hbr⟩
          refine ⟨.inr ⟨a, haR, hwalk, .inl ⟨rfl, hdep⟩⟩, ?_⟩
          by_cases hbR : b ∈ R
          · exact .inl hbR
          · exact .inr ⟨a, haR, hwalk, b, hdep, .refl hbR⟩
    · obtain ⟨r, hrR, hwalk, hchain⟩ := ha.resolve_left haR
      have hedge : DepEdge w a b := by
        refine ⟨l, ?_, hb⟩
        simpa [depsOf, World.view, haR] using hl
      refine ⟨.inr ⟨r, hrR, hwalk, .inr (.inr ⟨hchain, hedge⟩)⟩, ?_⟩
      by_cases hbR : b ∈ R
      · exact .inl hbR
      · exact .inr ⟨r, hrR, hwalk, hchain.edge hedge hbR⟩
  have hpath : Relation.TransGen (OrderEdge w R) p q ∧
      (q ∈ R ∨ ∃ r ∈ R, Walkable w r ∧ Chain w R r q) := by
    induction h with
    | single hpb =>
        obtain ⟨hedge, hnext⟩ := hstep _ _ (.inl hp) hpb
        exact ⟨.single hedge, hnext⟩
    | tail _ hbc ih =>
        obtain ⟨hedge, hnext⟩ := hstep _ _ ih.2 hbc
        exact ⟨ih.1.tail hedge, hnext⟩
  exact hpath.1

/-- `main/a` depends on `main/b`, and `main/b` on `main/c`. -/
def threeInARow : World where
  sanitizePkgname := fun pn => .found "main".toList (pn.drop 5)
  bulkTemplate := fun pn =>
    if pn = "main/a".toList then .ok ⟨some ["main/b".toList], false, none, none⟩
    else if pn = "main/b".toList then .ok ⟨some ["main/c".toList], false, none, none⟩
    else .ok ⟨some [], false, none, none⟩
  depTemplate := baseOnly
  tree := {baseCbuild}
  depTemplate_mem := baseOnly_mem
  isBuilt := fun _ => false
  build := fun _ _ => .ok ()

def threeNames : List Str := ["main/a".toList, "main/b".toList, "main/c".toList]

theorem buildsInOrder_threeInARow : BuildsInOrder continuing threeInARow threeNames := by
  refine (buildsInOrder_iff rfl (by decide) threeNames).mpr (fun _ p q hp _ hview => ?_)
  refine orderPath_of_not_broken (fun r hr hbr => ?_) hp.requested hview
  obtain ⟨t, ht, hb⟩ := hbr
  have hnone : ∀ pn u, threeInARow.bulkTemplate pn = .ok u → u.broken = false := by
    intro pn u hu
    simp only [threeInARow] at hu
    split at hu
    · cases hu
      rfl
    · split at hu
      · cases hu
        rfl
      · cases hu
        rfl
  rw [hnone r t ht] at hb
  contradiction

/-- A row of four, of which `main/b` is broken. -/
def fourInARow : World where
  sanitizePkgname := fun pn => .found "main".toList (pn.drop 5)
  bulkTemplate := fun pn =>
    if pn = "main/a".toList then .ok ⟨some ["main/b".toList], false, none, none⟩
    else if pn = "main/b".toList then .ok ⟨some ["main/c".toList], true, none, none⟩
    else if pn = "main/c".toList then .ok ⟨some ["main/d".toList], false, none, none⟩
    else .ok ⟨some [], false, none, none⟩
  depTemplate := baseOnly
  tree := {baseCbuild}
  depTemplate_mem := baseOnly_mem
  isBuilt := fun _ => false
  build := fun _ _ => .ok ()

def fourNames : List Str :=
  ["main/a".toList, "main/b".toList, "main/c".toList, "main/d".toList]

/-- The sorter is not told that `main/b` depends on `main/c`. It gives what is ready in the order
in which it was entered, and so `main/a` before `main/c`. -/
theorem fourInARow_not_buildsInOrder : ¬ BuildsInOrder continuing fourInARow fourNames := by
  have hsorted : (resolve continuing fourInARow fourNames).sorted = fourNames :=
    sorted_eq fourNames (by decide) (by decide)
  intro h
  have hstatic : StaticOrder (orderGraph continuing fourInARow fourNames)
      [baseCbuild, "main/b".toList, "main/d".toList, "main/a".toList, "main/c".toList] := by
    have hgraph : orderGraph continuing fourInARow fourNames =
        ⟨[(baseCbuild, []), ("main/a".toList, [baseCbuild]), ("main/a".toList, ["main/b".toList]),
          ("main/c".toList, [baseCbuild]), ("main/c".toList, ["main/d".toList]),
          ("main/d".toList, [])]⟩ := by
      simp only [orderGraph, parseAll, hsorted]
      decide
    rw [hgraph]
    decide
  have hlist : listOf continuing fourInARow fourNames
      [baseCbuild, "main/b".toList, "main/d".toList, "main/a".toList, "main/c".toList] =
      ["main/d".toList, "main/a".toList, "main/c".toList] := by
    simp only [listOf, bulkpkg, parseAll, hsorted]
    decide
  have hab : Edge (depsOf (fourInARow.view (requested continuing fourInARow fourNames)))
      "main/a".toList "main/b".toList := ⟨["main/b".toList], by decide, by decide⟩
  have hbc : Edge (depsOf (fourInARow.view (requested continuing fourInARow fourNames)))
      "main/b".toList "main/c".toList := ⟨["main/c".toList], by decide, by decide⟩
  have horder := h _ hstatic "main/a".toList (by rw [hlist]; decide) "main/c".toList
    (by rw [hlist]; decide) (.tail (.single hab) hbc)
  rw [hlist] at horder
  exact absurd horder (by decide)

end Cbuild.Bulk
