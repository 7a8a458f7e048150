import Cbuild.Bulk.Walk
import Cbuild.Lib.Dict
import Cbuild.Lib.Fueled
import Mathlib.Data.Char
import Mathlib.Data.List.Lex

/-! # The build graph of the commands that look at all templates

`_graph_prepare` of `runner.py`: every selected template is read and walked with
`_add_deps_graph`, the visited set and the cache of templates shared between the walks.
A `PackageException` makes a template one that is passed over; any other exception, and
any exception of `get_build_deps`, ends the command.
-/

namespace Cbuild.Graph

open Lib Bulk

inductive Exn
  | package
  | other
  deriving DecidableEq

structure Template where
  fullPkgname : Str
  getBuildDeps : Except Exn (List Str)

structure World where
  /-- The names that `_scan_cat` finds, in the order of the directories. -/
  scanned : List Str
  /-- `Template(pkgn, ...)` for the target `lint`. -/
  template : Str → Except Exn Template

structure State where
  rtmpls : Dict Str Template
  /-- The templates read with success so far, each with the name it was read by. -/
  read : List (Str × Template)
  pvisit : Finset Str
  tg : DepGraph

def State.init : State := ⟨[], [], ∅, .empty⟩

def readPkg (w : World) (pkgn : Str) (s : State) : Except Exn (Option Template × State) :=
  match s.rtmpls.get pkgn with
  | some tp => .ok (some tp, s)
  | none =>
      match w.template pkgn with
      | .ok tp =>
          .ok (some tp, { s with rtmpls := s.rtmpls.set pkgn tp, read := s.read ++ [(pkgn, tp)] })
      | .error .package => .ok (none, s)
      | .error e => .error e

/-- The loop body of `_add_deps_graph`, called without a `cbvisit`. -/
def visitDep (w : World) (recurse : Str → Template → State → Fueled Exn (Bool × State))
    (acc : Bool × State) (d : Str) : Fueled Exn (Bool × State) := do
  if d ∈ acc.2.pvisit then return acc
  -- make sure that everything is parsed only once
  let (dtp, s) ← readPkg w d { acc.2 with pvisit := insert d acc.2.pvisit }
  match dtp with
  | some dtp =>
      let (ok, s) ← recurse d dtp s
      return (acc.1 && ok, s)
  | none => return (false, s)

/-- `_add_deps_graph`. -/
def addDepsGraph (w : World) : Nat → Str → Template → State → Fueled Exn (Bool × State)
  | 0, _, _, _ => Fueled.outOfFuel
  | fuel + 1, pn, tp, s => do
      let bdl ← tp.getBuildDeps
      bdl.foldlM (visitDep w (addDepsGraph w fuel)) (true, { s with tg := s.tg.add pn bdl })

/-- `_collect_tmpls` without a category. -/
def collectTmpls (w : World) : Option Str → List Str
  | some (c :: pkgn) => [c :: pkgn]
  | _ => w.scanned.mergeSort fun a b => decide (a ≤ b)

def visitRoot (w : World) (fuel : Nat) (s : State) (tmpln : Str) : Fueled Exn State := do
  -- already added in another graph
  if tmpln ∈ s.pvisit then return s
  let (tp, s) ← readPkg w tmpln s
  match tp with
  | none => return s
  | some tp =>
      let (_, s) ← addDepsGraph w fuel tmpln tp s
      return s

def graphPrepare (w : World) (pkgn : Option Str) (fuel : Nat) : Fueled Exn State :=
  (collectTmpls w pkgn).foldlM (visitRoot w fuel) .init

/-! ## The relation that the walk follows -/

/-- The build dependencies of a template that can be read and that lists them. -/
def deps (w : World) (n : Str) : Option (List Str) :=
  match w.template n with
  | .ok tp => tp.getBuildDeps.toOption
  | .error _ => none

/-- What reading the name, or asking it for its dependencies, ends the command with. -/
def RaisesAt (w : World) (n : Str) (e : Exn) : Prop :=
  w.template n = .error e ∧ e ≠ .package ∨
    ∃ tp, w.template n = .ok tp ∧ tp.getBuildDeps = .error e

theorem deps_of_ok {w : World} {n : Str} {tp : Template} {ds : List Str}
    (ht : w.template n = .ok tp) (hd : tp.getBuildDeps = .ok ds) : deps w n = some ds := by
  unfold deps
  rw [ht]
  dsimp only
  rw [hd]
  rfl

/-! ## The walk of bulk mode -/

/-- What the cache and the log hold was read. -/
structure Cached (w : World) (s : State) : Prop where
  cache : ∀ n tp, s.rtmpls.get n = some tp → w.template n = .ok tp
  keys : s.read.map Prod.fst = s.rtmpls.keys
  nodup : s.rtmpls.keys.Nodup
  read : ∀ e ∈ s.read, w.template e.1 = .ok e.2

theorem Cached.init (w : World) : Cached w .init where
  cache := by
    intro n tp h
    cases h
  keys := rfl
  nodup := List.nodup_nil
  read := by
    intro e h
    cases h

variable {w : World} {s s' : State} {n : Str}

theorem Cached.push (h : Cached w s) {tp : Template} (hnone : s.rtmpls.get n = none)
    (ht : w.template n = .ok tp) :
    Cached w { s with rtmpls := s.rtmpls.set n tp, read := s.read ++ [(n, tp)] } := by
  have hn : n ∉ s.rtmpls.keys := Dict.get_eq_none_iff.mp hnone
  have hset : s.rtmpls.set n tp = s.rtmpls ++ [(n, tp)] := by
    unfold Dict.set
    rw [if_neg hn]
  have hkeys : Dict.keys (s.rtmpls ++ [(n, tp)]) = s.rtmpls.keys ++ [n] := by
    unfold Dict.keys
    rw [List.map_append]
    rfl
  refine ⟨?_, ?_, ?_, ?_⟩
  · intro m tq hm
    dsimp only at hm
    rw [Dict.get_set] at hm
    split at hm
    · rename_i heq
      cases hm
      rw [← heq]
      exact ht
    · exact h.cache m tq hm
  · dsimp only
    rw [hset, hkeys, List.map_append, h.keys]
    rfl
  · dsimp only
    rw [hset, hkeys, List.nodup_append]
    refine ⟨h.nodup, List.nodup_singleton n, ?_⟩
    intro a ha b hb
    rw [List.mem_singleton.mp hb]
    rintro rfl
    exact hn ha
  · intro e he
    rcases List.mem_append.mp he with he | he
    · exact h.read e he
    · rw [List.mem_singleton.mp he]
      exact ht

theorem Cached.visit (h : Cached w s) (d : Str) :
    Cached w { s with pvisit := insert d s.pvisit } := ⟨h.cache, h.keys, h.nodup, h.read⟩

theorem Cached.add (h : Cached w s) (pn : Str) (ds : List Str) :
    Cached w { s with tg := s.tg.add pn ds } := ⟨h.cache, h.keys, h.nodup, h.read⟩

/-- All outcomes of reading a name. -/
theorem readPkg_spec (h : Cached w s) : (∃ e, readPkg w n s = .error e ∧ RaisesAt w n e) ∨
    (readPkg w n s = .ok (none, s) ∧ w.template n = .error .package) ∨
      ∃ tp rtmpls read, readPkg w n s = .ok (some tp, { s with rtmpls := rtmpls, read := read }) ∧
        w.template n = .ok tp ∧ Cached w { s with rtmpls := rtmpls, read := read } := by
  unfold readPkg
  cases hget : s.rtmpls.get n with
  | some tp => exact Or.inr (Or.inr ⟨tp, s.rtmpls, s.read, rfl, h.cache n tp hget, h⟩)
  | none =>
      dsimp only
      cases ht : w.template n with
      | ok tp => exact Or.inr (Or.inr ⟨tp, _, _, rfl, rfl, h.push hget ht⟩)
      | error e =>
          cases e with
          | package => exact Or.inr (Or.inl ⟨rfl, rfl⟩)
          | other => exact Or.inl ⟨.other, rfl, Or.inl ⟨ht, by decide⟩⟩

/-- What bulk mode would read. -/
def bulkRead (w : World) (n : Str) : Option Tmpl :=
  (deps w n).map fun ds => ⟨some ds, false, none, none⟩

def bulkPkg (w : World) (n : Str) (e : Unit) : Option Tmpl × Unit := (bulkRead w n, e)

def State.walk (s : State) : Walk Unit := ⟨s.pvisit, none, s.tg, ()⟩

theorem bulkRead_of_ok {tp : Template} {ds : List Str} (ht : w.template n = .ok tp)
    (hd : tp.getBuildDeps = .ok ds) : bulkRead w n = some ⟨some ds, false, none, none⟩ := by
  unfold bulkRead
  rw [deps_of_ok ht hd]
  rfl

theorem bulkRead_of_error {e : Exn} (ht : w.template n = .error e) : bulkRead w n = none := by
  unfold bulkRead deps
  rw [ht]
  rfl

/-! ## One walk -/

theorem not_raisesAt_of_package (ht : w.template n = .error .package) (e : Exn) :
    ¬ RaisesAt w n e := by
  intro h
  obtain ⟨he, hne⟩ | ⟨tp, he, -⟩ := h
  · rw [ht] at he
    cases he
    exact hne rfl
  · rw [ht] at he
    cases he

theorem not_raisesAt_of_ok {tp : Template} {ds : List Str} (ht : w.template n = .ok tp)
    (hd : tp.getBuildDeps = .ok ds) (e : Exn) : ¬ RaisesAt w n e := by
  intro h
  obtain ⟨he, -⟩ | ⟨tp', he, hd'⟩ := h
  · rw [ht] at he
    cases he
  · rw [ht] at he
    cases he
    rw [hd] at hd'
    cases hd'

/-- Where a walk that has begun in `s` stands, beside the one of bulk mode. -/
structure Along (w : World) (s : State) (acc : Bool × State) (bulk : Bool × Walk Unit) :
    Prop where
  cached : Cached w acc.2
  bulk : bulk = (acc.1, acc.2.walk)
  grows : s.pvisit ⊆ acc.2.pvisit
  clean : ∀ x ∈ acc.2.pvisit, x ∈ s.pvisit ∨ ∀ e, ¬ RaisesAt w x e

/-- What is asked of a walk that returns. -/
def Follows (w : World) (recurse : Str → Template → State → Fueled Exn (Bool × State))
    (walk : Str → Tmpl → Walk Unit → Fueled Unit (Bool × Walk Unit)) : Prop :=
  ∀ d tp s r, Cached w s → w.template d = .ok tp → (recurse d tp s).Returns r → ∃ ds bulk,
    tp.getBuildDeps = .ok ds ∧ (walk d ⟨some ds, false, none, none⟩ s.walk).Returns bulk ∧
      Along w s r bulk

variable {recurse : Str → Template → State → Fueled Exn (Bool × State)}
  {walk : Str → Tmpl → Walk Unit → Fueled Unit (Bool × Walk Unit)}

/-- All that one iteration can do. -/
theorem visitDep_cases (recurse : Str → Template → State → Fueled Exn (Bool × State))
    (hc : Cached w s) (b : Bool) (d : Str) :
    (d ∈ s.pvisit ∧ visitDep w recurse (b, s) d = pure (b, s)) ∨ d ∉ s.pvisit ∧
      ((∃ e, RaisesAt w d e ∧ visitDep w recurse (b, s) d = throw e) ∨
        (w.template d = .error .package ∧ visitDep w recurse (b, s) d =
          pure (false, { s with pvisit := insert d s.pvisit })) ∨
        ∃ tp t, w.template d = .ok tp ∧ Cached w t ∧ t.pvisit = insert d s.pvisit ∧
          t.tg = s.tg ∧ visitDep w recurse (b, s) d =
            recurse d tp t >>= fun r => pure (b && r.1, r.2)) := by
  unfold visitDep
  dsimp only
  by_cases hd : d ∈ s.pvisit
  · rw [if_pos hd]
    exact Or.inl ⟨hd, rfl⟩
  rw [if_neg hd]
  refine Or.inr ⟨hd, ?_⟩
  obtain ⟨e, he, hraises⟩ | ⟨he, ht⟩ | ⟨tp, rtmpls, read, he, ht, hc'⟩ := readPkg_spec (hc.visit d)
  · rw [he]
    exact Or.inl ⟨e, hraises, rfl⟩
  · rw [he]
    exact Or.inr (Or.inl ⟨ht, rfl⟩)
  · rw [he]
    exact Or.inr (Or.inr ⟨tp, _, ht, hc', rfl, rfl, rfl⟩)

theorem visitDep_follows (hrec : Follows w recurse walk) (s₀ : State) (acc : Bool × State)
    (bulk : Bool × Walk Unit) (d : Str) (r : Bool × State) (ha : Along w s₀ acc bulk)
    (h : (visitDep w recurse acc d).Returns r) :
    ∃ bulk', (Bulk.visitDep (bulkPkg w) walk bulk d).Returns bulk' ∧ Along w s₀ r bulk' := by
  obtain ⟨hc, rfl, hgrows, hclean⟩ := ha
  obtain ⟨b, s⟩ := acc
  dsimp only at hc hgrows hclean
  unfold Bulk.visitDep
  show ∃ bulk', Fueled.Returns (if d ∈ s.pvisit then _ else _) bulk' ∧ _
  have hgrows' : s₀.pvisit ⊆ insert d s.pvisit := hgrows.trans (Finset.subset_insert d s.pvisit)
  have hclean' : (∀ e, ¬ RaisesAt w d e) → ∀ x ∈ insert d s.pvisit,
      x ∈ s₀.pvisit ∨ ∀ e, ¬ RaisesAt w x e := by
    intro hno x hx
    obtain rfl | hx := Finset.mem_insert.mp hx
    · exact Or.inr hno
    · exact hclean x hx
  obtain ⟨hd, heq⟩ | ⟨hd, ⟨e, -, heq⟩ | ⟨ht, heq⟩ | ⟨tp, t, ht, hct, hvisit, htg, heq⟩⟩ :=
    visitDep_cases recurse hc b d
  · rw [heq, Fueled.pure_returns] at h
    subst h
    rw [if_pos hd]
    exact ⟨_, Fueled.pure_returns.mpr rfl, hc, rfl, hgrows, hclean⟩
  · rw [heq] at h
    exact absurd h Fueled.throw_returns
  · rw [heq, Fueled.pure_returns] at h
    subst h
    rw [if_neg hd]
    simp only [bulkPkg, bulkRead_of_error ht]
    exact ⟨_, Fueled.pure_returns.mpr rfl, hc.visit d, rfl, hgrows',
      hclean' (not_raisesAt_of_package ht)⟩
  · rw [heq, Fueled.bind_returns] at h
    obtain ⟨⟨ok, t'⟩, hcall, h⟩ := h
    rw [Fueled.pure_returns] at h
    subst h
    obtain ⟨ds, bulk', hds, hwalk, hct', rfl, hmore, hrest⟩ := hrec d tp _ _ hct ht hcall
    have hstate : t.walk = ⟨insert d s.pvisit, none, s.tg, ()⟩ := by
      unfold State.walk
      rw [hvisit, htg]
    rw [hstate] at hwalk
    rw [hvisit] at hmore hrest
    rw [if_neg hd]
    simp only [bulkPkg, bulkRead_of_ok ht hds, State.walk, Option.map_none]
    refine ⟨(b && ok, t'.walk), ?_, hct', rfl, hgrows'.trans hmore, ?_⟩
    · rw [Fueled.bind_returns]
      exact ⟨_, hwalk, Fueled.pure_returns.mpr rfl⟩
    intro x hx
    obtain hx | hx := hrest x hx
    · exact hclean' (not_raisesAt_of_ok ht hds) x hx
    · exact Or.inr hx

/-- A walk that returns is the one of bulk mode. -/
theorem addDepsGraph_follows (fuel : Nat) :
    Follows w (addDepsGraph w fuel) (Bulk.addDepsGraph (bulkPkg w) fuel) := by
  induction fuel with
  | zero =>
      intro d tp s r _ _ h
      cases h
  | succ fuel ih =>
      intro d tp s r hc ht h
      unfold addDepsGraph at h
      rw [Fueled.bind_returns] at h
      obtain ⟨ds, hds, h⟩ := h
      rw [Fueled.lift_returns] at hds
      have hstart : Along w s (true, { s with tg := s.tg.add d ds }) _ :=
        ⟨hc.add d ds, rfl, Finset.Subset.refl _, fun x hx => Or.inl hx⟩
      obtain ⟨bulk, hbulk, ha⟩ := Fueled.foldlM_follows (visitDep_follows ih s) ds hstart h
      exact ⟨ds, bulk, hds, hbulk, ha⟩

/-- The effect of a walk that returns. -/
theorem addDepsGraph_returns {fuel : Nat} {pn : Str} {tp : Template} {b : Bool} (hc : Cached w s)
    (ht : w.template pn = .ok tp) (h : (addDepsGraph w fuel pn tp s).Returns (b, s')) :
    ∃ ds, tp.getBuildDeps = .ok ds ∧ Cached w s' ∧
      (∀ x ∈ s'.pvisit, x ∈ s.pvisit ∨ ∀ e, ¬ RaisesAt w x e) ∧
      Walked (bulkRead w) (bulkPkg w) { s.walk with depg := s.tg.add pn ds } ds true b s'.walk := by
  obtain ⟨ds, bulk, hds, hbulk, ha⟩ := addDepsGraph_follows fuel pn tp s _ hc ht h
  obtain ⟨hc', rfl, -, hclean⟩ := ha
  have hread : ∀ d e, (bulkPkg w d e).1 = bulkRead w d := fun _ _ => rfl
  exact ⟨ds, hds, hc', hclean, (Bulk.addDepsGraph_walked hread fuel pn _ _ _ _ hbulk).2⟩

theorem visitDep_cached (hrec : Follows w recurse walk) (acc r : Bool × State) (d : Str)
    (hc : Cached w acc.2) (h : (visitDep w recurse acc d).Returns r) :
    Cached w r.2 ∧ acc.2.pvisit ⊆ r.2.pvisit := by
  have ha : Along w acc.2 acc (acc.1, acc.2.walk) :=
    ⟨hc, rfl, Finset.Subset.refl _, fun x hx => Or.inl hx⟩
  obtain ⟨_, -, ha'⟩ := visitDep_follows hrec acc.2 acc _ d r ha h
  exact ⟨ha'.cached, ha'.grows⟩

/-! ## Exceptions -/

/-- Reached from `n` along the build dependencies. -/
def Reach (w : World) : Str → Str → Prop := Relation.ReflTransGen (Edge (deps w))

theorem edge_of_ok {tp : Template} {ds : List Str} {d : Str} (ht : w.template n = .ok tp)
    (hds : tp.getBuildDeps = .ok ds) (hd : d ∈ ds) : Edge (deps w) n d :=
  ⟨ds, deps_of_ok ht hds, hd⟩

/-- An exception that leaves the walk comes from a template on the way. -/
theorem addDepsGraph_raises {fuel : Nat} {pn : Str} {tp : Template} {e : Exn} (hc : Cached w s)
    (ht : w.template pn = .ok tp) (h : (addDepsGraph w fuel pn tp s).Raises e) :
    ∃ n, Reach w pn n ∧ RaisesAt w n e := by
  induction fuel generalizing pn tp s with
  | zero => cases h
  | succ fuel ih =>
      unfold addDepsGraph at h
      rw [Fueled.bind_raises] at h
      obtain h | ⟨ds, hds, h⟩ := h
      · rw [Fueled.lift_raises] at h
        exact ⟨pn, .refl, Or.inr ⟨tp, ht, h⟩⟩
      rw [Fueled.lift_returns] at hds
      obtain ⟨d, hd, ⟨b, t⟩, hct, h⟩ := Fueled.foldlM_raises (I := fun acc => Cached w acc.2)
        (fun acc r d hc h => (visitDep_cached (addDepsGraph_follows fuel) acc r d hc h).1)
        (hc.add pn ds) h
      have hedge := edge_of_ok ht hds hd
      obtain ⟨-, heq⟩ | ⟨-, ⟨e', hraises, heq⟩ | ⟨-, heq⟩ | ⟨tp', t', ht', hct', -, -, heq⟩⟩ :=
        visitDep_cases (addDepsGraph w fuel) hct b d
      · rw [heq] at h
        exact absurd h Fueled.pure_raises
      · rw [heq] at h
        cases h
        exact ⟨d, .single hedge, hraises⟩
      · rw [heq] at h
        exact absurd h Fueled.pure_raises
      · rw [heq, Fueled.bind_raises] at h
        obtain h | ⟨_, -, h⟩ := h
        · obtain ⟨n, hn, hraises⟩ := ih hct' ht' h
          exact ⟨n, .head hedge hn, hraises⟩
        · exact absurd h Fueled.pure_raises

/-! ## Termination -/

/-- One more unit of fuel than there are unvisited names is enough. -/
theorem addDepsGraph_not_stops {names : Finset Str} (hnames : ∀ n d, Edge (deps w) n d → d ∈ names)
    {fuel : Nat} {pn : Str} {tp : Template} (hc : Cached w s) (ht : w.template pn = .ok tp)
    (hfuel : (names \ s.pvisit).card < fuel) : ¬ (addDepsGraph w fuel pn tp s).Stops := by
  induction fuel generalizing pn tp s with
  | zero => omega
  | succ fuel ih =>
      intro h
      unfold addDepsGraph at h
      rw [Fueled.bind_stops] at h
      obtain h | ⟨ds, hds, h⟩ := h
      · exact Fueled.lift_stops h
      rw [Fueled.lift_returns] at hds
      let I : Bool × State → Prop := fun acc =>
        Cached w acc.2 ∧ (names \ acc.2.pvisit).card < fuel + 1
      have hstep : ∀ acc r d, I acc → (visitDep w (addDepsGraph w fuel) acc d).Returns r → I r := by
        intro acc r d hI h
        obtain ⟨hcr, hgrows⟩ := visitDep_cached (addDepsGraph_follows fuel) acc r d hI.1 h
        have hle := Finset.card_le_card (Finset.sdiff_subset_sdiff (Finset.Subset.refl names) hgrows)
        exact ⟨hcr, Nat.lt_of_le_of_lt hle hI.2⟩
      obtain ⟨d, hd, ⟨b, t⟩, ⟨hct, hlt⟩, h⟩ := Fueled.foldlM_stops hstep ⟨hc.add pn ds, hfuel⟩ h
      obtain ⟨-, heq⟩ | ⟨hnew, ⟨e', -, heq⟩ | ⟨-, heq⟩ | ⟨tp', t', ht', hct', hvisit, -, heq⟩⟩ :=
        visitDep_cases (addDepsGraph w fuel) hct b d
      · rw [heq] at h
        exact Fueled.pure_stops h
      · rw [heq] at h
        exact Fueled.throw_stops h
      · rw [heq] at h
        exact Fueled.pure_stops h
      · rw [heq, Fueled.bind_stops] at h
        have hless : (names \ insert d t.pvisit).card < (names \ t.pvisit).card :=
          card_sdiff_insert_lt (hnames pn d (edge_of_ok ht hds hd)) hnew
        obtain h | ⟨_, -, h⟩ := h
        · refine ih hct' ht' ?_ h
          rw [hvisit]
          exact Nat.lt_of_lt_of_le hless (Nat.le_of_lt_succ hlt)
        · exact Fueled.pure_stops h

end Cbuild.Graph
