import Cbuild.Bulk.Names

/-! # What the parse loop leaves behind

One iteration of the second loop of `_bulkpkg` ends in one of five ways, or is
left by an exception (`parseStep_cases`). From that: what has been visited, entered
into the sorter and recorded after any number of iterations, in terms of the template
graph and the order of the requested names alone (`Parsed`), and when the loop is left.
-/

namespace Cbuild.Bulk

open Lib

variable {o : Opts} {w : World}

/-! ## One iteration -/

/-- The ways an iteration over `p` can take `s`. -/
inductive ParseCase (o : Opts) (w : World) (s : Parsing) (p : Str) : Parsing → Prop
  | left (hout : s.escaped = true) : ParseCase o w s p s
  | untold (hlive : s.failed = false ∨ o.bulkcont = true) (t : Tmpl)
      (hp : w.bulkTemplate p = .ok t) (hb : t.broken = false) (failed : Bool)
      (hwalk : handleRecdeps o w p t false (s.setFailed false).walk = .error failed) :
      ParseCase o w s p (s.escape failed)
  | skipped (hfailed : s.failed = true) (hcont : o.bulkcont = false) :
      ParseCase o w s p (s.emit p .skipped)
  | unparsed (hlive : s.failed = false ∨ o.bulkcont = true) (e : Exn)
      (hp : w.bulkTemplate p = .error e) :
      ParseCase o w s p ((s.setFailed true).emit p .parse)
  | broken (hlive : s.failed = false ∨ o.bulkcont = true) (t : Tmpl)
      (hp : w.bulkTemplate p = .ok t) (hb : t.broken = true) :
      ParseCase o w s p ((s.setFailed false).emit p .broken)
  | depsUnparsed (hlive : s.failed = false ∨ o.bulkcont = true) (t : Tmpl)
      (hp : w.bulkTemplate p = .ok t) (hb : t.broken = false) (walk : Walk Bool)
      (hwalk : handleRecdeps o w p t false (s.setFailed false).walk = .ok (false, walk))
      (henv : walk.env = true) :
      ParseCase o w s p (({ s with walk := walk } : Parsing).emit p .parse)
  | accepted (hlive : s.failed = false ∨ o.bulkcont = true) (t : Tmpl)
      (hp : w.bulkTemplate p = .ok t) (hb : t.broken = false) (walk : Walk Bool)
      (hwalk : handleRecdeps o w p t false (s.setFailed false).walk = .ok (true, walk)) :
      ParseCase o w s p
        ⟨s.status, { walk with env := s.failed }, s.templates ++ [(p, t)], s.escaped⟩

theorem Walk.addBase_pvisit (s : Walk Bool) (p : Str) (c : Bool) :
    (s.addBase p c).pvisit = s.pvisit := by
  unfold Walk.addBase
  split <;> rfl

theorem Walk.addBase_cbvisit (s : Walk Bool) (p : Str) (c : Bool) :
    (s.addBase p c).cbvisit = s.cbvisit := by
  unfold Walk.addBase
  split <;> rfl

theorem Walk.addBase_env (s : Walk Bool) (p : Str) (c : Bool) : (s.addBase p c).env = s.env := by
  unfold Walk.addBase
  split <;> rfl

theorem Walk.addBase_adds (s : Walk Bool) (p : Str) (c : Bool) (a : Str × List Str) :
    a ∈ (s.addBase p c).depg.adds ↔ a ∈ s.depg.adds ∨
      (a = (p, [baseCbuild]) ∧ c = false ∧ p ∉ s.cbvisit.getD ∅ ∧ p ≠ baseCbuild) := by
  unfold Walk.addBase
  split
  · rename_i h
    simp [h]
  · rename_i h
    simp [h]

theorem handleRecdeps_raw (hraw : o.doRaw = true) (p : Str) (t : Tmpl) (c : Bool) (s : Walk Bool) :
    handleRecdeps o w p t c s = .ok (true, s) := if_pos hraw

theorem handleRecdeps_sorted (hraw : o.doRaw = false) (p : Str) (t : Tmpl) (c : Bool)
    (s : Walk Bool) : handleRecdeps o w p t c s = w.addDeps p t (s.addBase p c) :=
  if_neg (by simp [hraw])

theorem handleRecdeps_walked (hraw : o.doRaw = false) {p : Str} {t : Tmpl} {c b : Bool}
    {s s' : Walk Bool} (h : handleRecdeps o w p t c s = .ok (b, s')) :
    t.buildDeps ≠ none ∧ Walked w.readDep w.rpkg
      { s.addBase p c with depg := (s.addBase p c).depg.add p t.deps } t.deps true b s' := by
  rw [handleRecdeps_sorted hraw] at h
  exact World.addDeps_returns h

/-- What `handle_recdeps` reports agrees with the flag it leaves. -/
theorem handleRecdeps_env {p : Str} {t : Tmpl} {c b : Bool} {s s' : Walk Bool} (hs : s.env = false)
    (h : handleRecdeps o w p t c s = .ok (b, s')) : s'.env = !b := by
  cases hraw : o.doRaw with
  | true =>
      rw [handleRecdeps_raw hraw] at h
      cases h
      exact hs
  | false =>
      obtain ⟨_, hwalked⟩ := handleRecdeps_walked hraw h
      have henv := hwalked.env_iff w.rpkg_notes
      have hsucc := hwalked.succ_iff
      rw [Walk.addBase_env, hs] at henv
      cases hb : b with
      | true =>
          have hall := (hsucc.mp hb).2
          refine Bool.eq_false_iff.mpr (fun htrue => ?_)
          obtain hf | ⟨x, hx, hr⟩ := henv.mp htrue
          · contradiction
          · exact hall x hx hr
      | false =>
          refine henv.mpr (.inr ?_)
          by_contra hno
          have hok := hsucc.mpr ⟨rfl, fun x hx hr => hno ⟨x, hx, hr⟩⟩
          rw [hb] at hok
          contradiction

theorem parseStep_cases (o : Opts) (w : World) (s : Parsing) (p : Str) :
    ParseCase o w s p (parseStep o w s p) := by
  unfold parseStep
  by_cases hout : s.escaped = true
  · rw [if_pos hout]
    exact .left hout
  rw [if_neg hout]
  by_cases hskip : s.failed = true ∧ o.bulkcont = false
  · rw [if_pos hskip]
    exact .skipped hskip.1 hskip.2
  · rw [if_neg hskip]
    have hlive : s.failed = false ∨ o.bulkcont = true := by
      cases hf : s.failed with
      | false => exact .inl rfl
      | true =>
          refine .inr (Bool.eq_true_of_not_eq_false fun hc => hskip ⟨hf, hc⟩)
    cases hp : w.bulkTemplate p with
    | error e => exact .unparsed hlive e hp
    | ok t =>
        simp only [doWithExc_ok]
        cases hb : t.broken with
        | true => exact .broken hlive t hp hb
        | false =>
            cases hwalk : handleRecdeps o w p t false (s.setFailed false).walk with
            | error failed =>
                have hw : handleRecdeps o w p t false ((s.setFailed false).setFailed false).walk =
                    .error failed := hwalk
                simp only [Bool.false_eq_true, if_false, hw]
                exact .untold hlive t hp hb failed hwalk
            | ok res =>
                obtain ⟨ok, walk⟩ := res
                have henv := handleRecdeps_env rfl hwalk
                have hw : handleRecdeps o w p t false ((s.setFailed false).setFailed false).walk =
                    .ok (ok, walk) := hwalk
                simp only [Bool.false_eq_true, if_false, hw]
                cases ok with
                | true => exact .accepted hlive t hp hb walk hwalk
                | false =>
                    dsimp only
                    split
                    · exact .depsUnparsed hlive t hp hb walk hwalk henv
                    · rename_i hfailed
                      exact absurd henv hfailed

/-! ## The template graph a run sees -/

/-- A request that parses and is not broken has its dependencies walked. -/
def Walkable (w : World) (p : Str) : Prop := ∃ t, w.bulkTemplate p = .ok t ∧ t.broken = false

def Broken (w : World) (p : Str) : Prop := ∃ t, w.bulkTemplate p = .ok t ∧ t.broken = true

/-- `d` is a build dependency of the request `p`. -/
def BulkDep (w : World) (p d : Str) : Prop := ∃ t, w.bulkTemplate p = .ok t ∧ d ∈ t.deps

/-- `d` is a build dependency of `n`, read as a dependency. -/
abbrev DepEdge (w : World) (n d : Str) : Prop := Edge (depsOf w.readDep) n d

/-- In the dependency closure of `base-cbuild`. -/
def InBase (w : World) (x : Str) : Prop :=
  ∃ d, DepEdge w baseCbuild d ∧ FreshReach (depsOf w.readDep) ∅ d x

/-- Reached from the request `p` without passing through a request. -/
def Chain (w : World) (R : Finset Str) (p x : Str) : Prop :=
  ∃ d, BulkDep w p d ∧ FreshReach (depsOf w.readDep) R d x

/-- Met as a dependency while following the chains out of `p`. -/
def Seen (w : World) (R : Finset Str) (p x : Str) : Prop :=
  BulkDep w p x ∨ ∃ n, Chain w R p n ∧ DepEdge w n x

/-- The walk of `p` is the first to meet some template that fails to parse. -/
def DepFails (w : World) (R : Finset Str) (p : Str) : Prop :=
  ∃ u, Chain w R p u ∧ w.readDep u = none ∧ ¬ InBase w u ∧
    ∀ q ∈ R, q < p → Walkable w q → ¬ Chain w R q u

/-- A template that the walk of the request `p` follows does not tell its dependencies. -/
def Raises (o : Opts) (w : World) (R : Finset Str) (p : Str) : Prop :=
  o.doRaw = false ∧ ∃ t, w.bulkTemplate p = .ok t ∧ t.broken = false ∧
    (t.buildDeps = none ∨ ∃ x, Chain w R p x ∧ Untold w.readDep x)

/-- Neither `base-cbuild` nor met as a dependency by the time it is parsed. -/
def Outside (w : World) (R : Finset Str) (p : Str) : Prop :=
  p ≠ baseCbuild ∧ ¬ InBase w p ∧ ∀ q ∈ R, q < p → Walkable w q → ¬ Seen w R q p

/-- What the parse loop reports as `parse`. -/
def Fails (o : Opts) (w : World) (R : Finset Str) (p : Str) : Prop :=
  (∃ e, w.bulkTemplate p = .error e) ∨ Walkable w p ∧ o.doRaw = false ∧ DepFails w R p

/-- What the parse loop records. -/
def Accepted (o : Opts) (w : World) (R : Finset Str) (p : Str) : Prop :=
  Walkable w p ∧ (o.doRaw = false → ¬ DepFails w R p)

variable {R : Finset Str} {p q x y : Str}

theorem depEdge_iff (w : World) (n d : Str) :
    DepEdge w n d ↔ ∃ t, w.readDep n = some t ∧ d ∈ t.deps := by
  simp [Edge, depsOf]

theorem InBase.edge (h : InBase w x) (hxy : DepEdge w x y) : InBase w y := by
  obtain ⟨d, hd, hx⟩ := h
  exact ⟨d, hd, hx.tail hxy (Finset.notMem_empty y)⟩

theorem Chain.notMem (h : Chain w R p x) : x ∉ R := by
  obtain ⟨d, _, hx⟩ := h
  exact hx.end_notMem

theorem Chain.edge (h : Chain w R p x) (hxy : DepEdge w x y) (hy : y ∉ R) : Chain w R p y := by
  obtain ⟨d, hd, hx⟩ := h
  exact ⟨d, hd, hx.tail hxy hy⟩

theorem verdict (o : Opts) (w : World) (R : Finset Str) (p : Str) :
    Fails o w R p ∨ Broken w p ∨ Accepted o w R p := by
  cases hp : w.bulkTemplate p with
  | error e => exact .inl (.inl ⟨e, hp⟩)
  | ok t =>
      cases hb : t.broken with
      | true => exact .inr (.inl ⟨t, hp, hb⟩)
      | false =>
          have hwalk : Walkable w p := ⟨t, hp, hb⟩
          by_cases hfail : o.doRaw = false ∧ DepFails w R p
          · exact .inl (.inr ⟨hwalk, hfail⟩)
          · exact .inr (.inr ⟨hwalk, fun hraw hdep => hfail ⟨hraw, hdep⟩⟩)

theorem Broken.not_walkable (h : Broken w p) : ¬ Walkable w p := by
  intro hw
  obtain ⟨t, ht, hb⟩ := h
  obtain ⟨u, hu, hub⟩ := hw
  rw [ht] at hu
  cases hu
  rw [hb] at hub
  contradiction

theorem Fails.not_accepted (h : Fails o w R p) : ¬ Accepted o w R p := by
  intro ha
  rcases h with ⟨e, he⟩ | ⟨_, hraw, hdep⟩
  · obtain ⟨t, ht, _⟩ := ha.1
    rw [he] at ht
    contradiction
  · exact ha.2 hraw hdep

theorem Raises.walkable (h : Raises o w R p) : Walkable w p := by
  obtain ⟨_, t, ht, hb, _⟩ := h
  exact ⟨t, ht, hb⟩

theorem Broken.not_fails (h : Broken w p) : ¬ Fails o w R p := by
  intro hf
  rcases hf with ⟨e, he⟩ | ⟨hw, _⟩
  · obtain ⟨t, ht, _⟩ := h
    rw [he] at ht
    contradiction
  · exact h.not_walkable hw

/-! ## The walks -/

/-- The entries the walk of `q` makes in the sorter, up to those made before. -/
def EnteredBy (w : World) (R : Finset Str) (q : Str) (a : Str × List Str) : Prop :=
  (∃ t, w.bulkTemplate q = .ok t ∧ a = (q, t.deps)) ∨
    (a = (q, [baseCbuild]) ∧ Outside w R q) ∨
    (Chain w R q a.1 ∧ ∃ t, w.readDep a.1 = some t ∧ a.2 = t.deps)

/-- The entries of the walk of `base-cbuild`. -/
def EnteredByBase (w : World) (a : Str × List Str) : Prop :=
  (a.1 = baseCbuild ∨ InBase w a.1) ∧ ∃ t, w.readDep a.1 = some t ∧ a.2 = t.deps

/-- The shared state once the requests `ps` have been walked. -/
structure Visited (w : World) (R : Finset Str) (ps : List Str) (s : Walk Bool) : Prop where
  pvisit : ∀ x, x ∈ s.pvisit ↔ x ∈ R ∨ InBase w x ∨ ∃ q ∈ ps, Walkable w q ∧ Chain w R q x
  cbvisit : ∃ c, s.cbvisit = some c ∧
    ∀ x, x ∈ c ↔ InBase w x ∨ ∃ q ∈ ps, Walkable w q ∧ Seen w R q x
  adds : ∀ a, a ∈ s.depg.adds ↔
    EnteredByBase w a ∨ ∃ q ∈ ps, Walkable w q ∧ EnteredBy w R q a
  told : ∀ x ∈ s.pvisit, x ∉ R → ¬ Untold w.readDep x

namespace Visited

variable {ps : List Str} {s : Walk Bool}

theorem setEnv (h : Visited w R ps s) (b : Bool) : Visited w R ps { s with env := b } :=
  ⟨h.pvisit, h.cbvisit, h.adds, h.told⟩

/-- Visited templates that are not requested have had their dependencies visited. -/
theorem closed (h : Visited w R ps s) (hx : x ∈ s.pvisit) (hxR : x ∉ R) (hxy : DepEdge w x y) :
    y ∈ s.pvisit := by
  rw [h.pvisit] at hx ⊢
  rcases hx with hx | hx | ⟨q, hq, hw, hx⟩
  · exact absurd hx hxR
  · exact .inr (.inl (hx.edge hxy))
  · by_cases hy : y ∈ R
    · exact .inl hy
    · exact .inr (.inr ⟨q, hq, hw, hx.edge hxy hy⟩)

/-- What the walk of one more request visits. -/
theorem new_iff (h : Visited w R ps s) {t : Tmpl} (hp : w.bulkTemplate p = .ok t) {V : Finset Str}
    (hV : Explores (depsOf w.readDep) s.pvisit t.deps V) (x : Str) :
    (x ∈ V ∧ x ∉ s.pvisit) ↔ Chain w R p x ∧ x ∉ s.pvisit := by
  have hdep : ∀ d, BulkDep w p d ↔ d ∈ t.deps := by
    intro d
    simp [BulkDep, hp]
  rw [hV.mem_iff]
  constructor
  · intro hx
    obtain ⟨hmem, hnot⟩ := hx
    rcases hmem with hmem | ⟨d, hd, hreach⟩
    · exact absurd hmem hnot
    · have hsub : R ⊆ s.pvisit := fun y hy => (h.pvisit y).mpr (.inl hy)
      exact ⟨⟨d, (hdep d).mpr hd, hreach.mono hsub⟩, hnot⟩
  · intro hx
    obtain ⟨⟨d, hd, hreach⟩, hnot⟩ := hx
    have hclosed : ∀ a ∈ s.pvisit, a ∉ R → ∀ b, DepEdge w a b → b ∈ s.pvisit :=
      fun a ha haR b hab => h.closed ha haR hab
    exact ⟨.inr ⟨d, (hdep d).mp hd, hreach.grow hclosed hnot⟩, hnot⟩

theorem exists_snoc {P : Str → Prop} :
    (∃ q ∈ ps ++ [p], Walkable w q ∧ P q) ↔
      (∃ q ∈ ps, Walkable w q ∧ P q) ∨ (Walkable w p ∧ P p) := by
  simp only [List.mem_append, List.mem_singleton, or_and_right, exists_or, exists_eq_left]

/-- A request that is not walked changes nothing. -/
theorem pass (h : Visited w R ps s) (hp : ¬ Walkable w p) : Visited w R (ps ++ [p]) s := by
  obtain ⟨c, hc, hm⟩ := h.cbvisit
  refine ⟨fun x => ?_, ⟨c, hc, fun x => ?_⟩, fun a => ?_, h.told⟩
  · simp only [exists_snoc, hp, false_and, or_false]
    exact h.pvisit x
  · simp only [exists_snoc, hp, false_and, or_false]
    exact hm x
  · simp only [exists_snoc, hp, false_and, or_false]
    exact h.adds a

/-- What is already visited on a chain was reached by an earlier walk. -/
theorem visited_chain (h : Visited w R ps s) (hx : Chain w R p x) (hmem : x ∈ s.pvisit) :
    InBase w x ∨ ∃ q ∈ ps, Walkable w q ∧ Chain w R q x :=
  ((h.pvisit x).mp hmem).resolve_left hx.notMem

variable {t : Tmpl}

theorem mem_pvisit_walk (h : Visited w R ps s) (hp : w.bulkTemplate p = .ok t)
    (hb : t.broken = false) {V : Finset Str}
    (hV : Explores (depsOf w.readDep) s.pvisit t.deps V) (x : Str) :
    x ∈ V ↔ x ∈ R ∨ InBase w x ∨ ∃ q ∈ ps ++ [p], Walkable w q ∧ Chain w R q x := by
  have hnew := h.new_iff hp hV x
  have hw : Walkable w p := ⟨t, hp, hb⟩
  simp only [exists_snoc, hw, true_and]
  constructor
  · intro hx
    by_cases hs : x ∈ s.pvisit
    · rcases (h.pvisit x).mp hs with hR | hB | hq
      · exact .inl hR
      · exact .inr (.inl hB)
      · exact .inr (.inr (.inl hq))
    · exact .inr (.inr (.inr (hnew.mp ⟨hx, hs⟩).1))
  · intro hx
    by_cases hs : x ∈ s.pvisit
    · exact hV.mono hs
    · rcases hx with hR | hB | hq | hc
      · exact absurd ((h.pvisit x).mpr (.inl hR)) hs
      · exact absurd ((h.pvisit x).mpr (.inr (.inl hB))) hs
      · exact absurd ((h.pvisit x).mpr (.inr (.inr hq))) hs
      · exact (hnew.mpr ⟨hc, hs⟩).1

theorem mem_cbvisit_walk (h : Visited w R ps s) (hp : w.bulkTemplate p = .ok t)
    (hb : t.broken = false) {V c c' : Finset Str} (hc : s.cbvisit = some c)
    (hV : Explores (depsOf w.readDep) s.pvisit t.deps V)
    (hc' : ∀ x, x ∈ c' ↔ x ∈ c ∨ x ∈ t.deps ∨
      ∃ n, (n ∈ V ∧ n ∉ s.pvisit) ∧ DepEdge w n x) (x : Str) :
    x ∈ c' ↔ InBase w x ∨ ∃ q ∈ ps ++ [p], Walkable w q ∧ Seen w R q x := by
  have hw : Walkable w p := ⟨t, hp, hb⟩
  have hdep : x ∈ t.deps ↔ BulkDep w p x := by simp [BulkDep, hp]
  obtain ⟨c₀, hc₀, hm⟩ := h.cbvisit
  have hcc : c₀ = c := Option.some.inj (hc₀.symm.trans hc)
  subst hcc
  simp only [hc', hm, hdep, h.new_iff hp hV, exists_snoc, hw, true_and]
  constructor
  · intro hx
    rcases hx with (hB | hq) | hd | ⟨n, ⟨hn, _⟩, hnx⟩
    · exact .inl hB
    · exact .inr (.inl hq)
    · exact .inr (.inr (.inl hd))
    · exact .inr (.inr (.inr ⟨n, hn, hnx⟩))
  · intro hx
    rcases hx with hB | hq | hd | ⟨n, hn, hnx⟩
    · exact .inl (.inl hB)
    · exact .inl (.inr hq)
    · exact .inr (.inl hd)
    · by_cases hs : n ∈ s.pvisit
      · -- an earlier walk reached `n`, and saw what it depends on
        rcases h.visited_chain hn hs with hB | ⟨q, hq, hqw, hqn⟩
        · exact .inl (.inl (hB.edge hnx))
        · exact .inl (.inr ⟨q, hq, hqw, .inr ⟨n, hqn, hnx⟩⟩)
      · exact .inr (.inr ⟨n, ⟨hn, hs⟩, hnx⟩)

/-- Whether the implicit dependency on `base-cbuild` is added. -/
theorem notMem_cbvisit_iff (h : Visited w R ps s) (hps : ∀ q, q ∈ ps ↔ q ∈ R ∧ q < p) :
    (p ∉ s.cbvisit.getD ∅ ∧ p ≠ baseCbuild) ↔ Outside w R p := by
  obtain ⟨c, hc, hm⟩ := h.cbvisit
  rw [hc, Option.getD_some, hm, Outside]
  simp only [hps, not_or, not_exists, not_and]
  constructor
  · intro hout
    exact ⟨hout.2, hout.1.1, fun q hqR hqp => hout.1.2 q ⟨hqR, hqp⟩⟩
  · intro hout
    exact ⟨⟨hout.2.1, fun q hq => hout.2.2 q hq.1 hq.2⟩, hout.1⟩

theorem mem_adds_walk (h : Visited w R ps s) (hp : w.bulkTemplate p = .ok t)
    (hb : t.broken = false) {V : Finset Str}
    (hV : Explores (depsOf w.readDep) s.pvisit t.deps V)
    (hps : ∀ q, q ∈ ps ↔ q ∈ R ∧ q < p) {adds : List (Str × List Str)}
    (hadds : ∀ a, a ∈ adds ↔ a ∈ ((s.addBase p false).depg.add p t.deps).adds ∨
      ∃ u, (a.1 ∈ V ∧ a.1 ∉ s.pvisit) ∧ w.readDep a.1 = some u ∧ a.2 = u.deps)
    (a : Str × List Str) :
    a ∈ adds ↔ EnteredByBase w a ∨ ∃ q ∈ ps ++ [p], Walkable w q ∧ EnteredBy w R q a := by
  have hw : Walkable w p := ⟨t, hp, hb⟩
  simp only [hadds, DepGraph.mem_add, Walk.addBase_adds, true_and, h.adds, h.new_iff hp hV,
    h.notMem_cbvisit_iff hps, exists_snoc, hw]
  constructor
  · intro ha
    rcases ha with (((ha | ha) | himp) | hown) | ⟨u, hnew, hu⟩
    · exact .inl ha
    · exact .inr (.inl ha)
    · exact .inr (.inr (.inr (.inl himp)))
    · exact .inr (.inr (.inl ⟨t, hp, hown⟩))
    · exact .inr (.inr (.inr (.inr ⟨hnew.1, u, hu⟩)))
  · intro ha
    rcases ha with ha | ha | ⟨u, hu, ha⟩ | himp | ⟨hchain, u, hu⟩
    · exact .inl (.inl (.inl (.inl ha)))
    · exact .inl (.inl (.inl (.inr ha)))
    · rw [hp] at hu
      cases hu
      exact .inl (.inr ha)
    · exact .inl (.inl (.inr himp))
    · by_cases hs : a.1 ∈ s.pvisit
      · rcases h.visited_chain hchain hs with hB | ⟨q, hq, hqw, hqn⟩
        · exact .inl (.inl (.inl (.inl ⟨.inr hB, u, hu⟩)))
        · exact .inl (.inl (.inl (.inr ⟨q, hq, hqw, .inr (.inr ⟨hqn, u, hu⟩)⟩)))
      · exact .inr ⟨u, ⟨hchain, hs⟩, hu⟩

variable {b : Bool} {s' : Walk Bool}

/-- One more request is walked. -/
theorem walk (h : Visited w R ps s) (hraw : o.doRaw = false) (hp : w.bulkTemplate p = .ok t)
    (hb : t.broken = false) (hps : ∀ q, q ∈ ps ↔ q ∈ R ∧ q < p)
    (hwalk : handleRecdeps o w p t false s = .ok (b, s')) : Visited w R (ps ++ [p]) s' := by
  obtain ⟨_, hw⟩ := handleRecdeps_walked hraw hwalk
  have hV := hw.explores
  obtain ⟨c, hc, _⟩ := h.cbvisit
  obtain ⟨c', hc', hm⟩ := hw.cbvisit_iff c (by rw [Walk.addBase_cbvisit, hc])
  have hadds := hw.adds_iff
  have htold := hw.told
  simp only [Walk.New, Walk.addBase_pvisit] at hV hm hadds htold
  refine ⟨h.mem_pvisit_walk hp hb hV, ⟨c', hc', h.mem_cbvisit_walk hp hb hc hV hm⟩,
    h.mem_adds_walk hp hb hV hps hadds, fun x hx hxR => ?_⟩
  by_cases hold : x ∈ s.pvisit
  · exact h.told x hold hxR
  · exact htold x ⟨hx, hold⟩

/-- A walk fails when it is the first to meet a template that fails to parse. -/
theorem walk_fails_iff (h : Visited w R ps s) (hraw : o.doRaw = false)
    (hp : w.bulkTemplate p = .ok t) (hps : ∀ q, q ∈ ps ↔ q ∈ R ∧ q < p)
    (hwalk : handleRecdeps o w p t false s = .ok (b, s')) : b = false ↔ DepFails w R p := by
  obtain ⟨_, hw⟩ := handleRecdeps_walked hraw hwalk
  have hV := hw.explores
  have hsucc := hw.succ_iff
  simp only [Walk.New, Walk.addBase_pvisit] at hV hsucc
  rw [← Bool.not_eq_true, hsucc]
  simp only [true_and, not_forall, exists_prop, h.new_iff hp hV, ne_eq, not_not]
  simp only [h.pvisit, hps, DepFails]
  constructor
  · intro hx
    obtain ⟨x, ⟨hchain, hnot⟩, hr⟩ := hx
    exact ⟨x, hchain, hr, fun hB => hnot (.inr (.inl hB)),
      fun q hqR hqp hqw hq => hnot (.inr (.inr ⟨q, ⟨hqR, hqp⟩, hqw, hq⟩))⟩
  · intro hx
    obtain ⟨x, hchain, hr, hB, hq⟩ := hx
    refine ⟨x, ⟨hchain, fun hmem => ?_⟩, hr⟩
    rcases hmem with hR | hB' | ⟨q, ⟨hqR, hqp⟩, hqw, hqx⟩
    · exact hchain.notMem hR
    · exact hB hB'
    · exact hq q hqR hqp hqw hqx

/-- A walk that returns has found everything told. -/
theorem walk_not_raises (h : Visited w R ps s) (hraw : o.doRaw = false)
    (hp : w.bulkTemplate p = .ok t) (hwalk : handleRecdeps o w p t false s = .ok (b, s')) :
    ¬ Raises o w R p := by
  obtain ⟨ht, hw⟩ := handleRecdeps_walked hraw hwalk
  have hV := hw.explores
  have htold := hw.told
  simp only [Walk.New, Walk.addBase_pvisit] at hV htold
  intro hraises
  obtain ⟨_, u, hu, _, hraise⟩ := hraises
  rw [hp] at hu
  cases hu
  rcases hraise with hnone | ⟨x, hchain, hx⟩
  · exact ht hnone
  · by_cases hmem : x ∈ s.pvisit
    · exact h.told x hmem hchain.notMem hx
    · exact htold x ((h.new_iff hp hV x).mpr ⟨hchain, hmem⟩) hx

theorem walk_raises (h : Visited w R ps s) (hraw : o.doRaw = false)
    (hp : w.bulkTemplate p = .ok t) (hb : t.broken = false) {failed : Bool}
    (hwalk : handleRecdeps o w p t false s = .error failed) : Raises o w R p := by
  rw [handleRecdeps_sorted hraw] at hwalk
  refine ⟨hraw, t, hp, hb, ?_⟩
  rcases addDepsGraph_raises w.rpkg_fst _ _ _ _ _ (World.addDeps_raises hwalk) with
    hnone | ⟨d, hd, x, hreach, hx⟩
  · exact .inl hnone
  · rw [Walk.addBase_pvisit] at hreach
    have hsub : R ⊆ s.pvisit := fun y hy => (h.pvisit y).mpr (.inl hy)
    exact .inr ⟨x, ⟨d, ⟨t, hp, hd⟩, hreach.mono hsub⟩, hx⟩

end Visited

/-- A template in the closure of `base-cbuild` fails to parse. -/
def BaseFails (o : Opts) (w : World) : Prop :=
  o.doRaw = false ∧ ∃ x, InBase w x ∧ w.readDep x = none

variable {r : Resolve} {base : Tmpl}

theorem readDep_of_ok {n : Str} {t : Tmpl} (h : w.depTemplate n = .ok t) :
    w.readDep n = some t := by
  simp [World.readDep, h, Except.toOption]

theorem inBase_iff (hbase : w.depTemplate baseCbuild = .ok base) (x : Str) :
    InBase w x ↔ ∃ d ∈ base.deps, FreshReach (depsOf w.readDep) ∅ d x := by
  simp [InBase, depEdge_iff, readDep_of_ok hbase]

/-- The walk of `base-cbuild` visits its closure. -/
theorem mem_baseWalk_iff (hbase : w.depTemplate baseCbuild = .ok base) {V : Finset Str}
    (hV : Explores (depsOf w.readDep) ∅ base.deps V) (x : Str) : x ∈ V ↔ InBase w x := by
  rw [hV.mem_iff, inBase_iff hbase]
  simp

/-- `base-cbuild` or a template in its closure does not tell its dependencies. -/
def BaseRaises (o : Opts) (w : World) : Prop :=
  o.doRaw = false ∧ ∃ x, (x = baseCbuild ∨ InBase w x) ∧ Untold w.readDep x

theorem baseRaises_of_error (hbase : w.depTemplate baseCbuild = .ok base) {failed b : Bool}
    (hwalk : handleRecdeps o w baseCbuild base true (Walk.start b) = .error failed) :
    BaseRaises o w := by
  cases hraw : o.doRaw with
  | true =>
      rw [handleRecdeps_raw hraw] at hwalk
      contradiction
  | false =>
      rw [handleRecdeps_sorted hraw] at hwalk
      refine ⟨hraw, ?_⟩
      rcases addDepsGraph_raises w.rpkg_fst _ _ _ _ _ (World.addDeps_raises hwalk) with
        hnone | ⟨d, hd, x, hreach, hx⟩
      · exact ⟨baseCbuild, .inl rfl, base, readDep_of_ok hbase, hnone⟩
      · rw [Walk.addBase_pvisit] at hreach
        exact ⟨x, .inr ((inBase_iff hbase x).mpr ⟨d, hd, hreach⟩), hx⟩

/-- The walk of `base-cbuild`, where it returns. -/
theorem parseStart_cases (hbase : w.depTemplate baseCbuild = .ok base) :
    (BaseRaises o w ∧ ∃ failed, handleRecdeps o w baseCbuild base true (Walk.start r.failed) =
        .error failed ∧
      parseStart o w r base = Parsing.escape ⟨r.status, Walk.start r.failed, [], false⟩ failed) ∨
    ¬ BaseRaises o w ∧ ∃ b walk,
      handleRecdeps o w baseCbuild base true (Walk.start r.failed) = .ok (b, walk) ∧
      parseStart o w r base =
        ⟨r.status, { walk with pvisit := walk.pvisit ∪ r.rpkgs }, [], false⟩ := by
  unfold parseStart
  cases hwalk : handleRecdeps o w baseCbuild base true (Walk.start r.failed) with
  | error failed => exact .inl ⟨baseRaises_of_error hbase hwalk, failed, rfl, rfl⟩
  | ok res =>
      obtain ⟨b, walk⟩ := res
      refine .inr ⟨?_, b, walk, rfl, rfl⟩
      intro ⟨hraw, x, hx, hun⟩
      obtain ⟨ht, hw⟩ := handleRecdeps_walked hraw hwalk
      have hV := hw.explores
      have htold := hw.told
      have hstart : (Walk.start r.failed).pvisit = ∅ := rfl
      simp only [Walk.New, Walk.addBase_pvisit, hstart] at hV htold
      rcases hx with rfl | hx
      · exact not_untold (readDep_of_ok hbase) ht hun
      · exact htold x ⟨(mem_baseWalk_iff hbase hV x).mpr hx, Finset.notMem_empty x⟩ hun

theorem parseStart_escaped_iff (hbase : w.depTemplate baseCbuild = .ok base) :
    (parseStart o w r base).escaped = true ↔ BaseRaises o w := by
  rcases parseStart_cases (o := o) (r := r) hbase with ⟨h, _, _, heq⟩ | ⟨h, _, _, _, heq⟩
  · rw [heq]
    exact iff_of_true rfl h
  · rw [heq]
    exact iff_of_false Bool.false_ne_true h

theorem parseStart_status : (parseStart o w r base).status = r.status := by
  unfold parseStart
  split <;> rfl

theorem parseStart_templates : (parseStart o w r base).templates = [] := by
  unfold parseStart
  split <;> rfl

theorem parseStart_visited (hraw : o.doRaw = false) (hbase : w.depTemplate baseCbuild = .ok base)
    (htold : ¬ BaseRaises o w) : Visited w r.rpkgs [] (parseStart o w r base).walk := by
  obtain ⟨_, b, walk, hwalk, heq⟩ :=
    (parseStart_cases (o := o) (r := r) hbase).resolve_left fun h => htold h.1
  rw [heq]
  obtain ⟨_, hw⟩ := handleRecdeps_walked hraw hwalk
  have hV := hw.explores
  obtain ⟨c, hc, hm⟩ := hw.cbvisit_iff ∅ (by rw [Walk.addBase_cbvisit]; rfl)
  have hadds := hw.adds_iff
  have htold := hw.told
  have hstart : (Walk.start r.failed).pvisit = ∅ := rfl
  simp only [Walk.New, Walk.addBase_pvisit, hstart] at hV hm hadds htold
  have hmem := mem_baseWalk_iff hbase hV
  refine ⟨fun x => ?_, ⟨c, hc, fun x => ?_⟩, fun a => ?_, fun x hx hxR => ?_⟩
  · simp only [Finset.mem_union, hmem, List.not_mem_nil, false_and, exists_false, or_false]
    exact or_comm
  · simp only [hm, hmem, Finset.notMem_empty, not_false_eq_true, and_true, false_or,
      List.not_mem_nil, false_and, exists_false, or_false]
    constructor
    · intro hx
      rcases hx with hx | ⟨n, hn, hnx⟩
      · exact (inBase_iff hbase x).mpr ⟨x, hx, .refl (Finset.notMem_empty x)⟩
      · exact hn.edge hnx
    · intro hx
      obtain ⟨d, hd, _, hpath⟩ := (inBase_iff hbase x).mp hx
      cases hpath with
      | refl => exact .inl hd
      | @tail n _ hdn hnx =>
          exact .inr ⟨n, (inBase_iff hbase n).mpr ⟨d, hd, Finset.notMem_empty d, hdn⟩, hnx.1⟩
  · simp only [hadds, DepGraph.mem_add, Walk.addBase_adds, hmem, Finset.notMem_empty,
      not_false_eq_true, and_true, List.not_mem_nil, false_and, exists_false, or_false,
      Bool.true_eq_false, and_false, EnteredByBase]
    constructor
    · intro ha
      rcases ha with (ha | ha) | ⟨t, hB, ht⟩
      · exact absurd ha List.not_mem_nil
      · exact ⟨.inl (by rw [ha]), base, by rw [ha]; exact readDep_of_ok hbase, by rw [ha]⟩
      · exact ⟨.inr hB, t, ht⟩
    · intro ha
      obtain ⟨hn | hB, t, ht, hps⟩ := ha
      · rw [hn, readDep_of_ok hbase] at ht
        cases ht
        exact .inl (.inr (Prod.ext hn hps))
      · exact .inr ⟨t, hB, ht, hps⟩
  · rcases Finset.mem_union.mp hx with hx | hx
    · exact htold x ⟨hx, Finset.notMem_empty x⟩
    · exact absurd hx hxR

/-- The flag once `base-cbuild` has been walked. -/
theorem parseStart_failed (hbase : w.depTemplate baseCbuild = .ok base)
    (htold : ¬ BaseRaises o w) :
    (parseStart o w r base).failed = true ↔ r.failed = true ∨ BaseFails o w := by
  obtain ⟨_, b, walk, hwalk, heq⟩ :=
    (parseStart_cases (o := o) (r := r) hbase).resolve_left fun h => htold h.1
  rw [heq]
  change walk.env = true ↔ _
  cases hraw : o.doRaw with
  | true =>
      rw [handleRecdeps_raw hraw] at hwalk
      cases hwalk
      simp [BaseFails, hraw, Walk.start]
  | false =>
      obtain ⟨_, hw⟩ := handleRecdeps_walked hraw hwalk
      have hV := hw.explores
      have henv := hw.env_iff w.rpkg_notes
      have hstart : (Walk.start r.failed).pvisit = ∅ := rfl
      simp only [Walk.New, Walk.addBase_pvisit, Walk.addBase_env, hstart] at hV henv
      have hmem := mem_baseWalk_iff hbase hV
      simp only [hmem, Finset.notMem_empty, not_false_eq_true, and_true] at henv
      simp only [BaseFails, hraw, true_and]
      exact henv

/-! ## The loop -/

/-- The state once the requests `ps` have been handled without skipping. -/
structure Parsed (o : Opts) (w : World) (R : Finset Str) (ps : List Str) (s : Parsing) : Prop where
  inside : s.escaped = false
  visited : o.doRaw = false → Visited w R ps s.walk
  templates : ∀ q t, (q, t) ∈ s.templates ↔
    q ∈ ps ∧ Accepted o w R q ∧ w.bulkTemplate q = .ok t

/-- What handling `p` does to the flag, the status file and the record. -/
inductive Verdict (o : Opts) (w : World) (R : Finset Str) (p : Str) (s s' : Parsing) : Prop
  | fails (h : Fails o w R p) (hfailed : s'.failed = true)
      (hstatus : s'.status = s.status ++ [(p, .parse)]) (htemplates : s'.templates = s.templates)
  | broken (h : Broken w p) (hfailed : s'.failed = false)
      (hstatus : s'.status = s.status ++ [(p, .broken)]) (htemplates : s'.templates = s.templates)
  | accepted (h : Accepted o w R p) (t : Tmpl) (ht : w.bulkTemplate p = .ok t)
      (hfailed : s'.failed = s.failed) (hstatus : s'.status = s.status)
      (htemplates : s'.templates = s.templates ++ [(p, t)])

theorem Parsed.raises {ps : List Str} {s : Parsing} (h : Parsed o w R ps s) {t : Tmpl}
    (hp : w.bulkTemplate p = .ok t) (hb : t.broken = false) {failed : Bool}
    (hwalk : handleRecdeps o w p t false (s.setFailed false).walk = .error failed) :
    Raises o w R p := by
  have hraw : o.doRaw = false := by
    refine Bool.eq_false_iff.mpr (fun hraw => ?_)
    rw [handleRecdeps_raw hraw] at hwalk
    contradiction
  exact ((h.visited hraw).setEnv false).walk_raises hraw hp hb hwalk

/-- A request whose walk raises ends the loop. -/
theorem Parsed.step_raises {ps : List Str} {s : Parsing} (h : Parsed o w R ps s)
    (hlive : s.failed = false ∨ o.bulkcont = true) (hr : Raises o w R p) :
    ∃ t failed, w.bulkTemplate p = .ok t ∧
      handleRecdeps o w p t false (s.setFailed false).walk = .error failed ∧
      parseStep o w s p = s.escape failed := by
  have hv := fun hraw => (h.visited hraw).setEnv false
  obtain ⟨u, hu, hub⟩ := hr.walkable
  generalize hs' : parseStep o w s p = s'
  have hcase := parseStep_cases o w s p
  rw [hs'] at hcase
  cases hcase with
  | left hout =>
      rw [h.inside] at hout
      contradiction
  | untold _ t hp hb failed hwalk => exact ⟨t, failed, hp, hwalk, rfl⟩
  | skipped hfailed hcont =>
      rw [hfailed, hcont] at hlive
      simp at hlive
  | unparsed _ e hp =>
      rw [hp] at hu
      contradiction
  | broken _ t hp hb =>
      rw [hp] at hu
      cases hu
      rw [hb] at hub
      contradiction
  | depsUnparsed _ t hp hb walk hwalk _ => exact absurd hr ((hv hr.1).walk_not_raises hr.1 hp hwalk)
  | accepted _ t hp hb walk hwalk => exact absurd hr ((hv hr.1).walk_not_raises hr.1 hp hwalk)

/-- One more request is handled. -/
theorem Parsed.step {ps : List Str} {s : Parsing} (h : Parsed o w R ps s)
    (hps : ∀ q, q ∈ ps ↔ q ∈ R ∧ q < p) (hlive : s.failed = false ∨ o.bulkcont = true)
    (htold : ¬ Raises o w R p) :
    Parsed o w R (ps ++ [p]) (parseStep o w s p) ∧ Verdict o w R p s (parseStep o w s p) := by
  have hsame : ¬ Accepted o w R p → ∀ q t, (q, t) ∈ s.templates ↔
      q ∈ ps ++ [p] ∧ Accepted o w R q ∧ w.bulkTemplate q = .ok t := by
    intro hno q t
    rw [h.templates, List.mem_append, List.mem_singleton]
    constructor
    · intro hq
      exact ⟨.inl hq.1, hq.2⟩
    · intro hq
      obtain ⟨hmem | heq, hacc, ht⟩ := hq
      · exact ⟨hmem, hacc, ht⟩
      · exact absurd (heq ▸ hacc) hno
  generalize hs' : parseStep o w s p = s'
  have hcase := parseStep_cases o w s p
  rw [hs'] at hcase
  cases hcase with
  | left hout =>
      rw [h.inside] at hout
      contradiction
  | untold _ t hp hb failed hwalk => exact absurd (h.raises hp hb hwalk) htold
  | skipped hfailed hcont =>
      rw [hfailed, hcont] at hlive
      simp at hlive
  | unparsed _ e hp =>
      have hf : Fails o w R p := .inl ⟨e, hp⟩
      have hnw : ¬ Walkable w p := fun ⟨t, ht, _⟩ => by
        rw [hp] at ht
        contradiction
      exact ⟨⟨h.inside, fun hraw => ((h.visited hraw).setEnv true).pass hnw, hsame hf.not_accepted⟩,
        .fails hf rfl rfl rfl⟩
  | broken _ t hp hb =>
      have hbr : Broken w p := ⟨t, hp, hb⟩
      have hna : ¬ Accepted o w R p := fun ha => hbr.not_walkable ha.1
      exact ⟨⟨h.inside, fun hraw => ((h.visited hraw).setEnv false).pass hbr.not_walkable, hsame hna⟩,
        .broken hbr rfl rfl rfl⟩
  | depsUnparsed _ t hp hb walk hwalk henv =>
      have hraw : o.doRaw = false := by
        refine Bool.eq_false_iff.mpr (fun hraw => ?_)
        rw [handleRecdeps_raw hraw] at hwalk
        simp at hwalk
      have hv := (h.visited hraw).setEnv false
      have hdep := (hv.walk_fails_iff hraw hp hps hwalk).mp rfl
      have hf : Fails o w R p := .inr ⟨⟨t, hp, hb⟩, hraw, hdep⟩
      exact ⟨⟨h.inside, fun _ => hv.walk hraw hp hb hps hwalk, hsame hf.not_accepted⟩,
        .fails hf henv rfl rfl⟩
  | accepted _ t hp hb walk hwalk =>
      have hacc : Accepted o w R p := by
        refine ⟨⟨t, hp, hb⟩, fun hraw hdep => ?_⟩
        have hv := (h.visited hraw).setEnv false
        have hfalse := (hv.walk_fails_iff hraw hp hps hwalk).mpr hdep
        contradiction
      refine ⟨⟨h.inside, fun hraw => ?_, fun q u => ?_⟩, .accepted hacc t hp rfl rfl rfl⟩
      · exact (((h.visited hraw).setEnv false).walk hraw hp hb hps hwalk).setEnv s.failed
      · simp only [List.mem_append, List.mem_singleton, h.templates, Prod.mk.injEq]
        constructor
        · intro hq
          rcases hq with hq | ⟨heq, hu⟩
          · exact ⟨.inl hq.1, hq.2⟩
          · subst heq
            subst hu
            exact ⟨.inr rfl, hacc, hp⟩
        · intro hq
          obtain ⟨hmem | heq, ha, hu⟩ := hq
          · exact .inl ⟨hmem, ha, hu⟩
          · subst heq
            rw [hp] at hu
            cases hu
            exact .inr ⟨rfl, rfl⟩

theorem parsed_nil (hbase : w.depTemplate baseCbuild = .ok base) (htold : ¬ BaseRaises o w) :
    Parsed o w r.rpkgs [] (parseStart o w r base) where
  inside := Bool.eq_false_iff.mpr fun h => htold ((parseStart_escaped_iff hbase).mp h)
  visited := fun hraw => parseStart_visited hraw hbase htold
  templates := by simp [parseStart_templates]

theorem mem_sorted (r : Resolve) (q : Str) : q ∈ r.sorted ↔ q ∈ r.rpkgs := Finset.mem_sort _

/-- The order of the requests, where it is known. -/
theorem sorted_eq (l : List Str) (hr : r.rpkgs = l.toFinset) (hl : l.Pairwise (· < ·)) :
    r.sorted = l := by
  have hnd : l.Nodup := hl.imp (fun h => ne_of_lt h)
  have hle : l.Pairwise (· ≤ ·) := hl.imp (fun h => le_of_lt h)
  rw [Resolve.sorted, hr]
  exact (List.toFinset_sort (· ≤ ·) hnd).mpr hle

/-- Names before a point of a strictly sorted list are the smaller ones. -/
theorem mem_prefix_iff {ps rest : List Str} (hsplit : r.sorted = ps ++ p :: rest) (q : Str) :
    q ∈ ps ↔ q ∈ r.rpkgs ∧ q < p := by
  have hmem := mem_sorted r q
  have hlt : r.sorted.Pairwise (· < ·) := Finset.sortedLT_sort r.rpkgs |>.pairwise
  rw [hsplit] at hmem hlt
  obtain ⟨_, htail, hcross⟩ := List.pairwise_append.mp hlt
  rw [← hmem, List.mem_append, List.mem_cons]
  constructor
  · intro hq
    exact ⟨.inl hq, hcross q hq p (List.mem_cons_self ..)⟩
  · intro hq
    obtain ⟨hq | heq | hq, hqp⟩ := hq
    · exact hq
    · exact absurd (heq ▸ hqp) (lt_irrefl p)
    · have hpq := (List.pairwise_cons.mp htail).1 q hq
      exact absurd (hpq.trans hqp) (lt_irrefl p)

/-- Nothing that would make the loop skip has happened before the end of `ps`. -/
def Live (o : Opts) (w : World) (r : Resolve) (ps : List Str) : Prop :=
  o.bulkcont = true ∨ r.failed = false ∧ ¬ BaseFails o w ∧ ∀ q ∈ ps, ¬ Fails o w r.rpkgs q

theorem Live.mono {ps qs : List Str} (h : Live o w r ps) (hsub : ∀ q ∈ qs, q ∈ ps) :
    Live o w r qs := by
  rcases h with hc | ⟨hr, hB, hall⟩
  · exact .inl hc
  · exact .inr ⟨hr, hB, fun q hq => hall q (hsub q hq)⟩

/-- The walk of `base-cbuild` and those of `ps` return. -/
structure Told (o : Opts) (w : World) (R : Finset Str) (ps : List Str) : Prop where
  base : ¬ BaseRaises o w
  requests : ∀ q ∈ ps, ¬ Raises o w R q

theorem Told.mono {ps qs : List Str} (h : Told o w R ps) (hsub : ∀ q ∈ qs, q ∈ ps) :
    Told o w R qs := ⟨h.base, fun q hq => h.requests q (hsub q hq)⟩

theorem parsed_upTo (hbase : w.depTemplate baseCbuild = .ok base) (ps rest : List Str)
    (hsplit : r.sorted = ps ++ rest) (hlive : Live o w r ps) (htold : Told o w r.rpkgs ps) :
    Parsed o w r.rpkgs ps (ps.foldl (parseStep o w) (parseStart o w r base)) ∧
      (o.bulkcont = false →
        (ps.foldl (parseStep o w) (parseStart o w r base)).failed = false) := by
  induction ps using List.reverseRecOn generalizing rest with
  | nil =>
      refine ⟨parsed_nil hbase htold.base, fun hcont => ?_⟩
      rcases hlive with hc | ⟨hr, hB, _⟩
      · rw [hcont] at hc
        contradiction
      · refine Bool.eq_false_iff.mpr (fun hfailed => ?_)
        rcases (parseStart_failed hbase htold.base).mp hfailed with hf | hf
        · rw [hr] at hf
          contradiction
        · exact hB hf
  | append_singleton ps p ih =>
      have hlive' : Live o w r ps := hlive.mono fun q hq => List.mem_append_left [p] hq
      have htold' : Told o w r.rpkgs ps := htold.mono fun q hq => List.mem_append_left [p] hq
      have hsplit' : r.sorted = ps ++ p :: rest := by
        rw [hsplit, List.append_assoc]
        rfl
      obtain ⟨hparsed, hflag⟩ := ih (p :: rest) hsplit' hlive' htold'
      have hgo : (ps.foldl (parseStep o w) (parseStart o w r base)).failed = false ∨
          o.bulkcont = true := by
        cases hc : o.bulkcont with
        | true => exact .inr rfl
        | false => exact .inl (hflag hc)
      obtain ⟨hnext, hverdict⟩ :=
        hparsed.step (mem_prefix_iff hsplit') hgo (htold.requests p (by simp))
      rw [List.foldl_append, List.foldl_cons, List.foldl_nil]
      refine ⟨hnext, fun hcont => ?_⟩
      cases hverdict with
      | fails hf _ _ _ =>
          rcases hlive with hc | ⟨_, _, hall⟩
          · rw [hcont] at hc
            contradiction
          · exact absurd hf (hall p (by simp))
      | broken _ hfailed _ _ => exact hfailed
      | accepted _ _ _ hfailed _ _ => rw [hfailed, hflag hcont]

/-- What handling one request preserves holds after any number of them. -/
theorem prefix_induction (hbase : w.depTemplate baseCbuild = .ok base)
    {P : List Str → Parsing → Prop} (hnil : P [] (parseStart o w r base))
    (hstep : ∀ ps p s s', P ps s → Verdict o w r.rpkgs p s s' → P (ps ++ [p]) s')
    (ps rest : List Str) (hsplit : r.sorted = ps ++ rest) (hlive : Live o w r ps)
    (htold : Told o w r.rpkgs ps) :
    P ps (ps.foldl (parseStep o w) (parseStart o w r base)) := by
  induction ps using List.reverseRecOn generalizing rest with
  | nil => exact hnil
  | append_singleton ps p ih =>
      have hlive' : Live o w r ps := hlive.mono fun q hq => List.mem_append_left [p] hq
      have htold' : Told o w r.rpkgs ps := htold.mono fun q hq => List.mem_append_left [p] hq
      have hsplit' : r.sorted = ps ++ p :: rest := by
        rw [hsplit, List.append_assoc]
        rfl
      obtain ⟨hparsed, hflag⟩ := parsed_upTo hbase ps (p :: rest) hsplit' hlive' htold'
      have hgo : (ps.foldl (parseStep o w) (parseStart o w r base)).failed = false ∨
          o.bulkcont = true := by
        cases hc : o.bulkcont with
        | true => exact .inr rfl
        | false => exact .inl (hflag hc)
      rw [List.foldl_append, List.foldl_cons, List.foldl_nil]
      exact hstep ps p _ _ (ih (p :: rest) hsplit' hlive' htold')
        (hparsed.step (mem_prefix_iff hsplit') hgo (htold.requests p (by simp))).2

/-- The lines for the requests `ps`, of which the accepted ones have none yet. -/
def Lines (o : Opts) (w : World) (R : Finset Str) (ps : List Str) (a : Str × Status) : Prop :=
  a.1 ∈ ps ∧ ((Fails o w R a.1 ∧ a.2 = .parse) ∨ (Broken w a.1 ∧ a.2 = .broken))

theorem mem_status_upTo (hbase : w.depTemplate baseCbuild = .ok base) (ps rest : List Str)
    (hsplit : r.sorted = ps ++ rest) (hlive : Live o w r ps) (htold : Told o w r.rpkgs ps)
    (a : Str × Status) :
    a ∈ (ps.foldl (parseStep o w) (parseStart o w r base)).status ↔
      a ∈ r.status ∨ Lines o w r.rpkgs ps a := by
  refine prefix_induction hbase
    (P := fun ps s => a ∈ s.status ↔ a ∈ r.status ∨ Lines o w r.rpkgs ps a)
    (by simp [Lines, parseStart_status]) (fun ps p s s' ih hverdict => ?_) ps rest hsplit hlive htold
  simp only [Lines, List.mem_append, List.mem_singleton] at ih ⊢
  cases hverdict with
  | fails hf _ hstatus _ =>
      rw [hstatus, List.mem_append, List.mem_singleton, ih]
      constructor
      · intro h
        rcases h with (h | ⟨hmem, h⟩) | h
        · exact .inl h
        · exact .inr ⟨.inl hmem, h⟩
        · rw [h]
          exact .inr ⟨.inr rfl, .inl ⟨hf, rfl⟩⟩
      · intro h
        rcases h with h | ⟨hmem | heq, h⟩
        · exact .inl (.inl h)
        · exact .inl (.inr ⟨hmem, h⟩)
        · rcases h with ⟨_, hst⟩ | ⟨hbr, _⟩
          · exact .inr (Prod.ext heq hst)
          · exact absurd (heq ▸ hf) hbr.not_fails
  | broken hbr _ hstatus _ =>
      rw [hstatus, List.mem_append, List.mem_singleton, ih]
      constructor
      · intro h
        rcases h with (h | ⟨hmem, h⟩) | h
        · exact .inl h
        · exact .inr ⟨.inl hmem, h⟩
        · rw [h]
          exact .inr ⟨.inr rfl, .inr ⟨hbr, rfl⟩⟩
      · intro h
        rcases h with h | ⟨hmem | heq, h⟩
        · exact .inl (.inl h)
        · exact .inl (.inr ⟨hmem, h⟩)
        · rcases h with ⟨hf, _⟩ | ⟨_, hst⟩
          · exact absurd (heq ▸ hf) hbr.not_fails
          · exact .inr (Prod.ext heq hst)
  | accepted hacc t ht _ hstatus _ =>
      rw [hstatus, ih]
      constructor
      · intro h
        rcases h with h | ⟨hmem, h⟩
        · exact .inl h
        · exact .inr ⟨.inl hmem, h⟩
      · intro h
        rcases h with h | ⟨hmem | heq, h⟩
        · exact .inl h
        · exact .inr ⟨hmem, h⟩
        · rcases h with ⟨hf, _⟩ | ⟨hbr, _⟩
          · exact absurd (heq ▸ hacc) hf.not_accepted
          · exact absurd (heq ▸ hacc).1 hbr.not_walkable

/-! ## Stopping at the first failure -/

/-- No name is unresolved and nothing that is read fails to parse. -/
structure NoFailure (o : Opts) (w : World) (r : Resolve) : Prop where
  resolved : r.failed = false
  base : ¬ BaseFails o w
  requests : ∀ q ∈ r.rpkgs, ¬ Fails o w r.rpkgs q

theorem NoFailure.live (h : NoFailure o w r) : Live o w r r.sorted :=
  .inr ⟨h.resolved, h.base, fun q hq => h.requests q ((mem_sorted r q).mp hq)⟩

/-- After a failure the rest is skipped. -/
theorem foldl_parseStep_skip (hcont : o.bulkcont = false) (rest : List Str) (s : Parsing)
    (hin : s.escaped = false) (hfailed : s.failed = true) :
    rest.foldl (parseStep o w) s =
      ⟨s.status ++ rest.map (fun pn => (pn, .skipped)), s.walk, s.templates, false⟩ := by
  induction rest generalizing s with
  | nil => simp [← hin]
  | cons pn rest ih =>
      have hstep : parseStep o w s pn = s.emit pn .skipped := by
        unfold parseStep
        rw [hin, if_neg Bool.false_ne_true, if_pos ⟨hfailed, hcont⟩]
      rw [List.foldl_cons, hstep, ih (s.emit pn .skipped) hin hfailed]
      simp [Parsing.emit]

/-- Nothing happens in a loop that has been left. -/
theorem foldl_parseStep_left (rest : List Str) (s : Parsing) (hout : s.escaped = true) :
    rest.foldl (parseStep o w) s = s := by
  induction rest with
  | nil => rfl
  | cons pn rest ih =>
      have hstep : parseStep o w s pn = s := if_pos hout
      rw [List.foldl_cons, hstep, ih]

/-- A list with an element that satisfies `P` has a first one. -/
theorem exists_first {P : Str → Prop} (l : List Str) (h : ∃ x ∈ l, P x) :
    ∃ ps p rest, l = ps ++ p :: rest ∧ P p ∧ ∀ q ∈ ps, ¬ P q := by
  induction l with
  | nil =>
      obtain ⟨x, hx, _⟩ := h
      contradiction
  | cons a l ih =>
      by_cases ha : P a
      · exact ⟨[], a, l, rfl, ha, by simp⟩
      · obtain ⟨x, hx, hPx⟩ := h
        have hxl : x ∈ l := by
          rcases List.mem_cons.mp hx with heq | hxl
          · exact absurd (heq ▸ hPx) ha
          · exact hxl
        obtain ⟨ps, p, rest, hl, hPp, hps⟩ := ih ⟨x, hxl, hPx⟩
        refine ⟨a :: ps, p, rest, by rw [hl]; rfl, hPp, fun q hq => ?_⟩
        rcases List.mem_cons.mp hq with heq | hq
        · exact heq ▸ ha
        · exact hps q hq

/-- The loop gets to the request `p`. -/
def LiveAt (o : Opts) (w : World) (r : Resolve) (p : Str) : Prop :=
  o.bulkcont = true ∨ r.failed = false ∧ ¬ BaseFails o w ∧
    ∀ q ∈ r.rpkgs, q < p → ¬ Fails o w r.rpkgs q

/-- The walk of `base-cbuild` raises, or that of a request which the loop gets to. -/
def Escapes (o : Opts) (w : World) (r : Resolve) : Prop :=
  BaseRaises o w ∨ ∃ p ∈ r.rpkgs, Raises o w r.rpkgs p ∧ LiveAt o w r p

theorem liveAt_iff {ps rest : List Str} (hsplit : r.sorted = ps ++ p :: rest) :
    LiveAt o w r p ↔ Live o w r ps := by
  simp only [LiveAt, Live, mem_prefix_iff hsplit, and_imp]

/-- What the loop gets to without an exception. -/
theorem told_of_live (hesc : ¬ Escapes o w r) {ps rest : List Str} (hsplit : r.sorted = ps ++ rest)
    (hlive : Live o w r ps) : Told o w r.rpkgs ps := by
  obtain ⟨hB, hno⟩ := not_or.mp hesc
  refine ⟨hB, fun q hq hraise => ?_⟩
  obtain ⟨pre, post, rfl⟩ := List.append_of_mem hq
  have hsplit' : r.sorted = pre ++ q :: (post ++ rest) := by
    rw [hsplit, List.append_assoc]
    rfl
  have hqR : q ∈ r.rpkgs := (mem_sorted r q).mp (by rw [hsplit']; simp)
  exact hno ⟨q, hqR, hraise, (liveAt_iff hsplit').mpr
    (hlive.mono fun x hx => List.mem_append_left _ hx)⟩

/-- The requests handled before the loop starts to skip: all of them, those before the
first failure, or none. -/
inductive Stop (o : Opts) (w : World) (r : Resolve) (base : Tmpl) (b : Parsing) : Prop
  /-- Something failed before the loop. -/
  | before (h : r.failed = true ∨ BaseFails o w)
      (hb : b = ⟨r.status ++ r.sorted.map (fun pn => (pn, .skipped)),
        (parseStart o w r base).walk, [], false⟩)
  /-- `p` is the first request to fail. -/
  | first (ps : List Str) (p : Str) (rest : List Str) (hsplit : r.sorted = ps ++ p :: rest)
      (hlive : Live o w r ps) (hp : Fails o w r.rpkgs p) (s s' : Parsing)
      (hs : s = ps.foldl (parseStep o w) (parseStart o w r base))
      (hstep : Verdict o w r.rpkgs p s s') (hparsed : Parsed o w r.rpkgs (ps ++ [p]) s')
      (hb : b = ⟨s'.status ++ rest.map (fun pn => (pn, .skipped)), s'.walk, s'.templates, false⟩)

theorem parseAll_stop (hcont : o.bulkcont = false)
    (hbase : w.depTemplate baseCbuild = .ok base) (hesc : ¬ Escapes o w r)
    (hno : ¬ NoFailure o w r) :
    Stop o w r base (parseAll o w r base) ∧ (parseAll o w r base).failed = true ∧
      (parseAll o w r base).escaped = false := by
  have hB : ¬ BaseRaises o w := (not_or.mp hesc).1
  by_cases hinit : r.failed = true ∨ BaseFails o w
  · have hfailed := (parseStart_failed hbase hB).mpr hinit
    have hskip := foldl_parseStep_skip (w := w) hcont r.sorted
      (parseStart o w r base) (parsed_nil hbase hB).inside hfailed
    rw [parseStart_status, parseStart_templates] at hskip
    refine ⟨.before hinit hskip, ?_⟩
    rw [parseAll, hskip]
    exact ⟨hfailed, rfl⟩
  · obtain ⟨hr, hB⟩ := not_or.mp hinit
    have hr' : r.failed = false := Bool.eq_false_iff.mpr hr
    have hex : ∃ q ∈ r.sorted, Fails o w r.rpkgs q := by
      by_contra hall
      refine hno ⟨hr', hB, fun q hq hf => hall ⟨q, (mem_sorted r q).mpr hq, hf⟩⟩
    obtain ⟨ps, p, rest, hsplit, hp, hps⟩ := exists_first r.sorted hex
    have hlive : Live o w r ps := .inr ⟨hr', hB, hps⟩
    have htold := told_of_live hesc hsplit hlive
    have hreturns : ¬ Raises o w r.rpkgs p := by
      intro hraise
      have hpR : p ∈ r.rpkgs := (mem_sorted r p).mp (by rw [hsplit]; simp)
      exact hesc (.inr ⟨p, hpR, hraise, (liveAt_iff hsplit).mpr hlive⟩)
    obtain ⟨hparsed, hflag⟩ := parsed_upTo hbase ps (p :: rest) hsplit hlive htold
    obtain ⟨hnext, hverdict⟩ :=
      hparsed.step (mem_prefix_iff hsplit) (.inl (hflag hcont)) hreturns
    have hfailed : (parseStep o w
        (ps.foldl (parseStep o w) (parseStart o w r base)) p).failed = true := by
      cases hverdict with
      | fails _ hf _ _ => exact hf
      | broken hbr _ _ _ => exact absurd hp hbr.not_fails
      | accepted hacc _ _ _ _ _ => exact absurd hacc hp.not_accepted
    have hall : parseAll o w r base = rest.foldl (parseStep o w) (parseStep o w
        (ps.foldl (parseStep o w) (parseStart o w r base)) p) := by
      rw [parseAll, hsplit, List.foldl_append, List.foldl_cons]
    rw [foldl_parseStep_skip hcont rest _ hnext.inside hfailed] at hall
    refine ⟨.first ps p rest hsplit hlive hp _ _ rfl hverdict hnext hall, ?_⟩
    rw [hall]
    exact ⟨hfailed, rfl⟩

theorem live_sorted (hgo : o.bulkcont = true ∨ NoFailure o w r) : Live o w r r.sorted :=
  hgo.elim .inl NoFailure.live

/-- All requests have been handled once the third loop is entered. -/
theorem parsed_all (hbase : w.depTemplate baseCbuild = .ok base) (hesc : ¬ Escapes o w r)
    (hgo : o.bulkcont = true ∨ NoFailure o w r) :
    Parsed o w r.rpkgs r.sorted (parseAll o w r base) := by
  have hsplit : r.sorted = r.sorted ++ [] := (List.append_nil _).symm
  have hlive := live_sorted hgo
  exact (parsed_upTo hbase r.sorted [] hsplit hlive (told_of_live hesc hsplit hlive)).1

/-- Whether the third loop is entered, if the second is not left by an exception. -/
theorem proceeds_iff (hbase : w.depTemplate baseCbuild = .ok base) (hesc : ¬ Escapes o w r) :
    (parseAll o w r base).failed = false ∨ o.bulkcont = true ↔
      o.bulkcont = true ∨ NoFailure o w r := by
  cases hcont : o.bulkcont with
  | true => simp
  | false =>
      simp only [Bool.false_eq_true, or_false, false_or]
      constructor
      · intro hfailed
        by_contra hno
        rw [(parseAll_stop hcont hbase hesc hno).2.1] at hfailed
        contradiction
      · intro h
        have hsplit : r.sorted = r.sorted ++ [] := (List.append_nil _).symm
        exact (parsed_upTo hbase r.sorted [] hsplit h.live (told_of_live hesc hsplit h.live)).2 hcont

/-! ## Leaving the loop -/

/-- The first request that the loop gets to and whose walk raises. -/
theorem exists_first_raises (hB : ¬ BaseRaises o w) (hesc : Escapes o w r) :
    ∃ ps p rest, r.sorted = ps ++ p :: rest ∧ Live o w r ps ∧ Told o w r.rpkgs ps ∧
      Raises o w r.rpkgs p := by
  obtain ⟨p, hpR, hraise, hlive⟩ := hesc.resolve_left hB
  obtain ⟨pre, post, hsplit⟩ := List.append_of_mem ((mem_sorted r p).mpr hpR)
  obtain ⟨ps, q, rest, hfront, hq, hps⟩ :=
    exists_first (P := Raises o w r.rpkgs) (pre ++ [p]) ⟨p, by simp, hraise⟩
  have hsub : ∀ x ∈ ps, x ∈ pre := by
    intro x hx
    have hmem : x ∈ pre ++ [p] := by
      rw [hfront]
      exact List.mem_append_left _ hx
    rcases List.mem_append.mp hmem with hmem | hmem
    · exact hmem
    · rw [List.mem_singleton.mp hmem] at hx
      exact absurd hraise (hps p hx)
  refine ⟨ps, q, rest ++ post, ?_, ((liveAt_iff hsplit).mp hlive).mono hsub, ⟨hB, hps⟩, hq⟩
  have happend : pre ++ p :: post = (pre ++ [p]) ++ post := by simp
  rw [hsplit, happend, hfront]
  simp

/-- The loop is left by an exception of the walk of `p`, whatever comes after `p`. -/
theorem parseAll_left (hbase : w.depTemplate baseCbuild = .ok base) {ps rest : List Str}
    (hsplit : r.sorted = ps ++ p :: rest) (hlive : Live o w r ps) (htold : Told o w r.rpkgs ps)
    (hraise : Raises o w r.rpkgs p) :
    ∃ s t failed, s = ps.foldl (parseStep o w) (parseStart o w r base) ∧
      Parsed o w r.rpkgs ps s ∧ w.bulkTemplate p = .ok t ∧
      handleRecdeps o w p t false (s.setFailed false).walk = .error failed ∧
      ∀ post, (ps ++ p :: post).foldl (parseStep o w) (parseStart o w r base) = s.escape failed := by
  obtain ⟨hparsed, hflag⟩ := parsed_upTo hbase ps (p :: rest) hsplit hlive htold
  have hgo : (ps.foldl (parseStep o w) (parseStart o w r base)).failed = false ∨
      o.bulkcont = true := by
    cases hc : o.bulkcont with
    | true => exact .inr rfl
    | false => exact .inl (hflag hc)
  obtain ⟨t, failed, ht, hwalk, hstep⟩ := hparsed.step_raises hgo hraise
  refine ⟨_, t, failed, rfl, hparsed, ht, hwalk, fun post => ?_⟩
  rw [List.foldl_append, List.foldl_cons, hstep, foldl_parseStep_left _ _ rfl]

/-- When the second loop, or the walk of `base-cbuild` before it, is left by an exception. -/
theorem parseAll_escaped_iff (hbase : w.depTemplate baseCbuild = .ok base) :
    (parseAll o w r base).escaped = true ↔ Escapes o w r := by
  by_cases hesc : Escapes o w r
  · refine iff_of_true ?_ hesc
    by_cases hB : BaseRaises o w
    · have hout := (parseStart_escaped_iff (r := r) hbase).mpr hB
      rw [parseAll, foldl_parseStep_left _ _ hout]
      exact hout
    · obtain ⟨ps, p, rest, hsplit, hlive, htold, hraise⟩ := exists_first_raises hB hesc
      obtain ⟨s, t, failed, _, _, _, _, heq⟩ := parseAll_left hbase hsplit hlive htold hraise
      rw [parseAll, hsplit, heq]
      rfl
  · refine iff_of_false ?_ hesc
    rw [Bool.not_eq_true]
    by_cases hgo : o.bulkcont = true ∨ NoFailure o w r
    · exact (parsed_all hbase hesc hgo).inside
    · obtain ⟨hcont, hno⟩ := not_or.mp hgo
      exact (parseAll_stop (Bool.eq_false_iff.mpr hcont) hbase hesc hno).2.2

/-- What a run that continues records: the accepted requests before the first walk that raises. -/
theorem parseAll_templates_iff (hbase : w.depTemplate baseCbuild = .ok base)
    (hcont : o.bulkcont = true) (q : Str) (t : Tmpl) :
    (q, t) ∈ (parseAll o w r base).templates ↔ q ∈ r.rpkgs ∧ ¬ BaseRaises o w ∧
      (∀ x ∈ r.rpkgs, x ≤ q → ¬ Raises o w r.rpkgs x) ∧ Accepted o w r.rpkgs q ∧
        w.bulkTemplate q = .ok t := by
  by_cases hesc : Escapes o w r
  · by_cases hB : BaseRaises o w
    · have hout := (parseStart_escaped_iff (r := r) hbase).mpr hB
      rw [parseAll, foldl_parseStep_left _ _ hout, parseStart_templates]
      simp [hB]
    · obtain ⟨ps, p, rest, hsplit, hlive, htold, hraise⟩ := exists_first_raises hB hesc
      obtain ⟨s, _, failed, _, hparsed, _, _, heq⟩ := parseAll_left hbase hsplit hlive htold hraise
      have hpR : p ∈ r.rpkgs := (mem_sorted r p).mp (by rw [hsplit]; simp)
      rw [parseAll, hsplit, heq]
      refine (hparsed.templates q t).trans ?_
      rw [mem_prefix_iff hsplit]
      constructor
      · intro ⟨⟨hqR, hqp⟩, hacc⟩
        refine ⟨hqR, hB, fun x hxR hxq => ?_, hacc⟩
        exact htold.requests x ((mem_prefix_iff hsplit x).mpr ⟨hxR, lt_of_le_of_lt hxq hqp⟩)
      · intro ⟨hqR, _, hreturns, hacc⟩
        refine ⟨⟨hqR, lt_of_not_ge fun hpq => ?_⟩, hacc⟩
        exact hreturns p hpR hpq hraise
  · obtain ⟨hB, hno⟩ := not_or.mp hesc
    rw [(parsed_all hbase hesc (.inl hcont)).templates, mem_sorted]
    constructor
    · intro ⟨hqR, hacc⟩
      exact ⟨hqR, hB, fun x hxR _ hraise => hno ⟨x, hxR, hraise, .inl hcont⟩, hacc⟩
    · intro ⟨hqR, _, _, hacc⟩
      exact ⟨hqR, hacc⟩

/-- Every template that a run may read tells its dependencies. -/
structure TellsAll (w : World) : Prop where
  deps : ∀ n, ¬ Untold w.readDep n
  requests : ∀ p t, w.bulkTemplate p = .ok t → t.buildDeps ≠ none

theorem TellsAll.not_baseRaises (h : TellsAll w) : ¬ BaseRaises o w := by
  intro ⟨_, x, _, hx⟩
  exact h.deps x hx

theorem TellsAll.not_raises (h : TellsAll w) : ¬ Raises o w R p := by
  intro ⟨_, t, ht, _, hraise⟩
  rcases hraise with hnone | ⟨x, _, hx⟩
  · exact h.requests p t ht hnone
  · exact h.deps x hx

theorem TellsAll.not_escapes (h : TellsAll w) : ¬ Escapes o w r := by
  intro hesc
  rcases hesc with hB | ⟨p, _, hraise, _⟩
  · exact h.not_baseRaises hB
  · exact h.not_raises hraise

/-- Something goes wrong before the third loop: a name does not resolve, a template in the
closure of `base-cbuild` does not parse, or a request among `P` fails. -/
def Failure (o : Opts) (w : World) (pkgs : List Str) (P : Str → Prop) : Prop :=
  NameFails o w pkgs ∨ BaseFails o w ∨
    ∃ q ∈ requested o w pkgs, P q ∧ Fails o w (requested o w pkgs) q

theorem noFailure_iff (o : Opts) (w : World) (pkgs : List Str) :
    NoFailure o w (resolve o w pkgs) ↔ ¬ Failure o w pkgs (fun _ => True) := by
  rw [Failure, ← resolve_failed_iff]
  constructor
  · intro h hfail
    rcases hfail with hr | hB | ⟨q, hq, _, hf⟩
    · rw [h.resolved] at hr
      contradiction
    · exact h.base hB
    · exact h.requests q hq hf
  · intro h
    obtain ⟨hr, hrest⟩ := not_or.mp h
    obtain ⟨hB, hq⟩ := not_or.mp hrest
    exact ⟨Bool.eq_false_iff.mpr hr, hB, fun q hqR hf => hq ⟨q, hqR, trivial, hf⟩⟩

/-- The second loop is left by an exception: the walk of `base-cbuild` raises, or that of a request
before which nothing makes the loop skip. -/
def Leaves (o : Opts) (w : World) (pkgs : List Str) : Prop :=
  BaseRaises o w ∨ ∃ p ∈ requested o w pkgs, Raises o w (requested o w pkgs) p ∧
    (o.bulkcont = true ∨ ¬ Failure o w pkgs (· < p))

theorem leaves_iff (o : Opts) (w : World) (pkgs : List Str) :
    Leaves o w pkgs ↔ Escapes o w (resolve o w pkgs) := by
  have hlive : ∀ p, (o.bulkcont = true ∨ ¬ Failure o w pkgs (· < p)) ↔
      LiveAt o w (resolve o w pkgs) p := by
    intro p
    rw [Failure, ← resolve_failed_iff, LiveAt]
    simp only [not_or, not_exists, not_and, Bool.not_eq_true, requested]
  simp only [Leaves, Escapes, hlive, requested]

theorem TellsAll.not_leaves (h : TellsAll w) (pkgs : List Str) : ¬ Leaves o w pkgs := by
  rw [leaves_iff]
  exact h.not_escapes

end Cbuild.Bulk
