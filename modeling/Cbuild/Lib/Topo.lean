import Mathlib.Data.Finset.Sort
import Mathlib.Logic.Relation
import Mathlib.Order.Extension.Linear

/-! # Topological orders

`pred n d` says that `d` has to come before `n`. A topological order lists the
nodes of a finite graph, each after its predecessors. It exists exactly when the
graph has no cycle, and may then put any `a` before any `b` that `a` does not
depend on.
-/

namespace Cbuild.Lib

variable {N : Type*}

/-- `a` stands before `b` in `l`. -/
def Precedes (a b : N) (l : List N) : Prop := List.Sublist [a, b] l

instance [DecidableEq N] (a b : N) (l : List N) : Decidable (Precedes a b l) :=
  inferInstanceAs (Decidable (List.Sublist [a, b] l))

theorem Precedes.ne {a b : N} {l : List N} (hl : l.Nodup) (h : Precedes a b l) : a ≠ b := by
  intro hab
  have hnd := hl.sublist h
  simp [hab] at hnd

theorem precedes_cons_iff {a b c : N} {l : List N} :
    Precedes a b (c :: l) ↔ a = c ∧ b ∈ l ∨ Precedes a b l := by
  unfold Precedes
  constructor
  · intro h
    cases h with
    | cons _ h => exact .inr h
    | cons_cons _ h => exact .inl ⟨rfl, List.singleton_sublist.mp h⟩
  · intro h
    rcases h with ⟨rfl, hb⟩ | h
    · exact (List.singleton_sublist.mpr hb).cons_cons a
    · exact h.cons c

theorem Precedes.mem_left {a b : N} {l : List N} (h : Precedes a b l) : a ∈ l :=
  h.subset (List.mem_cons_self ..)

theorem Precedes.mem_right {a b : N} {l : List N} (h : Precedes a b l) : b ∈ l :=
  h.subset (List.mem_cons_of_mem a (List.mem_singleton_self b))

theorem Precedes.trans {a b c : N} {l : List N} (hl : l.Nodup) (hab : Precedes a b l)
    (hbc : Precedes b c l) : Precedes a c l := by
  induction l with
  | nil =>
      have := hab.mem_left
      contradiction
  | cons d l ih =>
      obtain ⟨hd, hl'⟩ := List.nodup_cons.mp hl
      rw [precedes_cons_iff] at hab hbc ⊢
      rcases hab with ⟨rfl, hbl⟩ | hab
      · rcases hbc with ⟨rfl, _⟩ | hbc
        · exact absurd hbl hd
        · exact .inl ⟨rfl, hbc.mem_right⟩
      · rcases hbc with ⟨rfl, _⟩ | hbc
        · exact absurd hab.mem_right hd
        · exact .inr (ih hl' hab hbc)

theorem Precedes.asymm {a b : N} {l : List N} (hl : l.Nodup) (hab : Precedes a b l) :
    ¬ Precedes b a l :=
  fun hba => (hab.trans hl hba).ne hl rfl

/-- Filtering keeps the order of what it keeps. -/
theorem precedes_filter_iff {P : N → Bool} {a b : N} {l : List N} :
    Precedes a b (l.filter P) ↔ Precedes a b l ∧ P a = true ∧ P b = true := by
  constructor
  · intro h
    exact ⟨List.Sublist.trans h List.filter_sublist, (List.mem_filter.mp h.mem_left).2,
      (List.mem_filter.mp h.mem_right).2⟩
  · intro h
    obtain ⟨hab, ha, hb⟩ := h
    have hsub : List.Sublist ([a, b].filter P) (l.filter P) := List.Sublist.filter P hab
    rwa [List.filter_cons_of_pos ha, List.filter_cons_of_pos hb, List.filter_nil] at hsub

/-- `l` lists the nodes, each one after its predecessors. -/
structure TopoOrder (node : N → Prop) (pred : N → N → Prop) (l : List N) : Prop where
  nodup : l.Nodup
  mem_iff : ∀ n, n ∈ l ↔ node n
  edges : ∀ n d, pred n d → Precedes d n l

def Acyclic (pred : N → N → Prop) : Prop := ∀ n, ¬ Relation.TransGen pred n n

namespace TopoOrder

variable {node : N → Prop} {pred : N → N → Prop} {l : List N}

theorem precedes (h : TopoOrder node pred l) {n d : N} (hnd : Relation.TransGen pred n d) :
    Precedes d n l := by
  induction hnd with
  | single hd => exact h.edges _ _ hd
  | tail _ hd ih => exact (h.edges _ _ hd).trans h.nodup ih

theorem acyclic (h : TopoOrder node pred l) : Acyclic pred :=
  fun _ hn => (h.precedes hn).ne h.nodup rfl

end TopoOrder

/-! ## Existence -/

/-- A path in a graph with one more edge uses the edge or does not. -/
theorem reflTransGen_or_edge {r : N → N → Prop} {p q a b : N}
    (h : Relation.ReflTransGen (fun x y => r x y ∨ x = p ∧ y = q) a b) :
    Relation.ReflTransGen r a b ∨
      Relation.ReflTransGen r a p ∧ Relation.ReflTransGen r q b := by
  induction h with
  | refl => exact .inl .refl
  | tail _ hlast ih =>
      rcases hlast with hr | ⟨rfl, rfl⟩
      · rcases ih with ih | ⟨hp, hq⟩
        · exact .inl (ih.tail hr)
        · exact .inr ⟨hp, hq.tail hr⟩
      · rcases ih with ih | ⟨hp, _⟩
        · exact .inr ⟨ih, .refl⟩
        · exact .inr ⟨hp, .refl⟩

/-- An edge that closes no path adds no cycle. -/
theorem Acyclic.insert {r : N → N → Prop} (hr : Acyclic r) {p q : N}
    (hqp : ¬ Relation.ReflTransGen r q p) : Acyclic (fun x y => r x y ∨ x = p ∧ y = q) := by
  intro n hn
  obtain ⟨m, hnm, hmn⟩ := Relation.TransGen.head'_iff.mp hn
  rcases hnm with hnm | ⟨rfl, rfl⟩
  · rcases reflTransGen_or_edge hmn with hmn | ⟨hmp, hqn⟩
    · exact hr n (.head' hnm hmn)
    · exact hqp ((hqn.tail hnm).trans hmp)
  · rcases reflTransGen_or_edge hmn with hmn | ⟨hmp, _⟩
    · exact hqp hmn
    · exact hqp hmp

/-- A relation without cycles lies in a linear order. -/
theorem Acyclic.exists_linearOrder {r : N → N → Prop} (hr : Acyclic r) :
    ∃ s : N → N → Prop, IsLinearOrder N s ∧ ∀ a b, r a b → s a b := by
  have hpo : IsPartialOrder N (Relation.ReflTransGen r) :=
    { refl := fun _ => .refl
      trans := fun _ _ _ => .trans
      antisymm := by
        intro a b hab hba
        rcases Relation.reflTransGen_iff_eq_or_transGen.mp hab with heq | hlt
        · exact heq.symm
        · exact absurd (hlt.trans_left hba) (hr a) }
  obtain ⟨s, hs, hle⟩ := extend_partialOrder (Relation.ReflTransGen r)
  exact ⟨s, hs, fun a b hab => hle a b (.single hab)⟩

theorem exists_topoOrder (nodes : Finset N) {pred : N → N → Prop} (hpred : Acyclic pred)
    (hnodes : ∀ n d, pred n d → n ∈ nodes ∧ d ∈ nodes) :
    ∃ l, TopoOrder (· ∈ nodes) pred l := by
  classical
  have hflip : Acyclic (fun d n => pred n d) := by
    intro n hn
    exact hpred n (Relation.transGen_swap.mp hn)
  obtain ⟨s, hs, hle⟩ := hflip.exists_linearOrder
  have hsort : (nodes.sort s).Pairwise s := Finset.pairwise_sort nodes s
  have hnd : (nodes.sort s).Nodup := Finset.sort_nodup nodes s
  refine ⟨nodes.sort s, hnd, fun n => Finset.mem_sort s, fun n d hd => ?_⟩
  have hne : d ≠ n := by
    intro heq
    subst heq
    exact hpred d (.single hd)
  have hmem : ∀ a, a ∈ nodes.sort s ↔ a ∈ nodes := fun a => Finset.mem_sort s
  obtain ⟨hn, hdn⟩ := hnodes n d hd
  -- of two different members one stands before the other, and `s` says which
  have htotal : ∀ l : List N, l.Pairwise s → d ∈ l → n ∈ l → Precedes d n l := by
    intro l hl hdl hnl
    induction l with
    | nil => contradiction
    | cons c l ih =>
        obtain ⟨hc, hl'⟩ := List.pairwise_cons.mp hl
        rw [precedes_cons_iff]
        rcases List.mem_cons.mp hdl with rfl | hdl'
        · exact .inl ⟨rfl, (List.mem_cons.mp hnl).resolve_left hne.symm⟩
        · rcases List.mem_cons.mp hnl with rfl | hnl'
          · exact absurd (hs.antisymm _ _ (hle _ _ hd) (hc d hdl')) hne
          · exact .inr (ih hl' hdl' hnl')
  exact htotal _ hsort ((hmem d).mpr hdn) ((hmem n).mpr hn)

/-- A topological order may put `p` before what `p` does not depend on. -/
theorem exists_topoOrder_before (nodes : Finset N) {pred : N → N → Prop} (hpred : Acyclic pred)
    (hnodes : ∀ n d, pred n d → n ∈ nodes ∧ d ∈ nodes) {p q : N} (hp : p ∈ nodes) (hq : q ∈ nodes)
    (hpq : ¬ Relation.ReflTransGen pred p q) :
    ∃ l, TopoOrder (· ∈ nodes) pred l ∧ Precedes p q l := by
  obtain ⟨l, hl⟩ := exists_topoOrder nodes (hpred.insert (p := q) (q := p) hpq) (by
    intro n d hd
    rcases hd with hd | ⟨rfl, rfl⟩
    · exact hnodes n d hd
    · exact ⟨hq, hp⟩)
  exact ⟨l, ⟨hl.nodup, hl.mem_iff, fun n d hd => hl.edges n d (.inl hd)⟩,
    hl.edges q p (.inr ⟨rfl, rfl⟩)⟩

end Cbuild.Lib
