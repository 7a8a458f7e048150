import Mathlib.Data.Finset.Basic
import Mathlib.Data.Finset.Card
import Mathlib.Logic.Relation

/-! # Depth-first search with a shared visited set

A graph is read node by node; reading may fail, and a node that cannot be read
has no successors. `Explores g V ds V'` says that a search from the roots `ds`,
started with visited set `V`, has ended with `V'`. The rules below build such a
search one root at a time. Whatever order the search took, `V'` holds exactly
what can be reached from the roots without entering `V`.
-/

namespace Cbuild.Lib

variable {N : Type*}

/-- A readable node and one of its successors. -/
def Edge (g : N → Option (List N)) (a b : N) : Prop := ∃ l, g a = some l ∧ b ∈ l

/-- Reachable from `a` without entering `V`, `a` included. -/
def FreshReach (g : N → Option (List N)) (V : Finset N) (a b : N) : Prop :=
  a ∉ V ∧ Relation.ReflTransGen (fun x y => Edge g x y ∧ y ∉ V) a b

theorem FreshReach.refl {g : N → Option (List N)} {V : Finset N} {a : N} (ha : a ∉ V) :
    FreshReach g V a a := ⟨ha, .refl⟩

theorem FreshReach.end_notMem {g : N → Option (List N)} {V : Finset N} {a b : N}
    (h : FreshReach g V a b) : b ∉ V := by
  obtain ⟨ha, hpath⟩ := h
  cases hpath with
  | refl => exact ha
  | tail _ hlast => exact hlast.2

/-- Shrinking the forbidden set keeps paths. -/
theorem FreshReach.mono {g : N → Option (List N)} {V W : Finset N} (hVW : V ⊆ W) {a b : N}
    (h : FreshReach g W a b) : FreshReach g V a b :=
  ⟨fun ha => h.1 (hVW ha),
    Relation.ReflTransGen.mono (fun _ _ hxy => ⟨hxy.1, fun hy => hxy.2 (hVW hy)⟩) a b h.2⟩

theorem FreshReach.head {g : N → Option (List N)} {V : Finset N} {a b c : N} (ha : a ∉ V)
    (hab : Edge g a b) (hbc : FreshReach g V b c) : FreshReach g V a c :=
  ⟨ha, .head ⟨hab, hbc.1⟩ hbc.2⟩

theorem FreshReach.tail {g : N → Option (List N)} {V : Finset N} {a b c : N}
    (hab : FreshReach g V a b) (hbc : Edge g b c) (hc : c ∉ V) : FreshReach g V a c :=
  ⟨hab.1, .tail hab.2 ⟨hbc, hc⟩⟩

/-- Growing the forbidden set to one that is closed outside `R` loses only paths that
end in it. -/
theorem FreshReach.grow {g : N → Option (List N)} {R V : Finset N}
    (hclosed : ∀ x ∈ V, x ∉ R → ∀ y, Edge g x y → y ∈ V) {a b : N}
    (h : FreshReach g R a b) (hb : b ∉ V) : FreshReach g V a b := by
  obtain ⟨ha, hpath⟩ := h
  induction hpath with
  | refl => exact .refl hb
  | @tail c d hac hcd ih =>
      have hcR : c ∉ R := FreshReach.end_notMem ⟨ha, hac⟩
      have hcV : c ∉ V := fun hc => hb (hclosed c hc hcR d hcd.1)
      exact (ih hcV).tail hcd.1 hb

/-- A search from `ds` that started with `V` visited has ended with `V'` visited. -/
structure Explores (g : N → Option (List N)) (V : Finset N) (ds : List N) (V' : Finset N) :
    Prop where
  mono : V ⊆ V'
  sound : ∀ x ∈ V', x ∉ V → ∃ d ∈ ds, FreshReach g V d x
  roots : ∀ d ∈ ds, d ∈ V'
  closed : ∀ x ∈ V', x ∉ V → ∀ y, Edge g x y → y ∈ V'

namespace Explores

variable {g : N → Option (List N)} {V V₁ V₂ : Finset N} {d : N} {ds es : List N}

theorem nil (g : N → Option (List N)) (V : Finset N) : Explores g V [] V where
  mono := Finset.Subset.refl V
  sound := fun _ hx hn => (hn hx).elim
  roots := by simp
  closed := fun _ hx hn => (hn hx).elim

/-- A root that has been visited is passed over. -/
theorem skip (hd : d ∈ V) : Explores g V [d] V where
  mono := Finset.Subset.refl V
  sound := fun _ hx hn => (hn hx).elim
  roots := by simpa using hd
  closed := fun _ hx hn => (hn hx).elim

variable [DecidableEq N]

/-- A fresh root that cannot be read is visited and left. -/
theorem leaf (hd : d ∉ V) (hg : g d = none) : Explores g V [d] (insert d V) where
  mono := Finset.subset_insert d V
  sound := by
    intro x hx hn
    have hxd : x = d := (Finset.mem_insert.mp hx).resolve_right hn
    rw [hxd]
    exact ⟨d, List.mem_singleton_self d, FreshReach.refl hd⟩
  roots := by simp
  closed := by
    intro x hx hn y hxy
    have hxd : x = d := (Finset.mem_insert.mp hx).resolve_right hn
    obtain ⟨l, hl, _⟩ := hxy
    rw [hxd, hg] at hl
    contradiction

/-- A fresh readable root is visited, and then its successors are searched. -/
theorem visit (hd : d ∉ V) (hg : g d = some ds) (h : Explores g (insert d V) ds V₁) :
    Explores g V [d] V₁ where
  mono := (Finset.subset_insert d V).trans h.mono
  sound := by
    intro x hx hn
    refine ⟨d, List.mem_singleton_self d, ?_⟩
    by_cases hxd : x = d
    · rw [hxd]
      exact FreshReach.refl hd
    · have hnew : x ∉ insert d V := by simp [hxd, hn]
      obtain ⟨e, he, hreach⟩ := h.sound x hx hnew
      have hedge : Edge g d e := ⟨ds, hg, he⟩
      exact FreshReach.head hd hedge (hreach.mono (Finset.subset_insert d V))
  roots := by
    intro e he
    rw [List.mem_singleton.mp he]
    exact h.mono (Finset.mem_insert_self d V)
  closed := by
    intro x hx hn y hxy
    by_cases hxd : x = d
    · obtain ⟨l, hl, hy⟩ := hxy
      rw [hxd, hg] at hl
      cases hl
      exact h.roots y hy
    · exact h.closed x hx (by simp [hxd, hn]) y hxy

omit [DecidableEq N] in
/-- Searches from two lists of roots follow one another. -/
theorem append (h₁ : Explores g V ds V₁) (h₂ : Explores g V₁ es V₂) :
    Explores g V (ds ++ es) V₂ where
  mono := h₁.mono.trans h₂.mono
  sound := by
    intro x hx hn
    by_cases hx₁ : x ∈ V₁
    · obtain ⟨d, hd, hreach⟩ := h₁.sound x hx₁ hn
      exact ⟨d, List.mem_append_left es hd, hreach⟩
    · obtain ⟨d, hd, hreach⟩ := h₂.sound x hx hx₁
      exact ⟨d, List.mem_append_right ds hd, hreach.mono h₁.mono⟩
  roots := by
    intro d hd
    rcases List.mem_append.mp hd with hd | hd
    · exact h₂.mono (h₁.roots d hd)
    · exact h₂.roots d hd
  closed := by
    intro x hx hn y hxy
    by_cases hx₁ : x ∈ V₁
    · exact h₂.mono (h₁.closed x hx₁ hn y hxy)
    · exact h₂.closed x hx hx₁ y hxy

omit [DecidableEq N] in
/-- What is reachable without entering the visited set ends up visited. -/
theorem complete (h : Explores g V ds V₁) (hd : d ∈ ds) {x : N} (hx : FreshReach g V d x) :
    x ∈ V₁ := by
  obtain ⟨hdV, hpath⟩ := hx
  induction hpath with
  | refl => exact h.roots d hd
  | @tail b c hdb hbc ih =>
      have hb : FreshReach g V d b := ⟨hdV, hdb⟩
      exact h.closed b ih hb.end_notMem c hbc.1

omit [DecidableEq N] in
/-- The visited set after a search, in terms of reachability alone. -/
theorem mem_iff (h : Explores g V ds V₁) (x : N) :
    x ∈ V₁ ↔ x ∈ V ∨ ∃ d ∈ ds, FreshReach g V d x := by
  constructor
  · intro hx
    by_cases hV : x ∈ V
    · exact .inl hV
    · exact .inr (h.sound x hx hV)
  · intro hx
    rcases hx with hx | ⟨d, hd, hreach⟩
    · exact h.mono hx
    · exact h.complete hd hreach

end Explores

/-- Visiting one more node of a finite universe leaves fewer to visit. -/
theorem card_sdiff_insert_lt [DecidableEq N] {U V : Finset N} {d : N} (hU : d ∈ U) (hV : d ∉ V) :
    (U \ insert d V).card < (U \ V).card := by
  apply Finset.card_lt_card
  refine ⟨Finset.sdiff_subset_sdiff (Finset.Subset.refl U) (Finset.subset_insert d V), ?_⟩
  intro hsub
  have hd := hsub (Finset.mem_sdiff.mpr ⟨hU, hV⟩)
  exact (Finset.mem_sdiff.mp hd).2 (Finset.mem_insert_self d V)

end Cbuild.Lib
