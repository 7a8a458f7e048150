import Mathlib.Data.List.Pairwise

/-! # A cache by key

A function is asked for many queries in a row, and answers are kept under a key of the query.
The key may say less than the function depends on: then an answer that was kept for one query
is given for another.
-/

namespace Cbuild.Lib

variable {Q K V R : Type*} [BEq K]

/-- What a cache needs to know of the function `ask`. -/
structure Keyed (Q K V R : Type*) where
  ask : Q → R
  key : Q → K
  /-- What is kept of an answer, if it is kept. -/
  keep : R → Option V
  give : V → R
  /-- What is kept gives the answer back. -/
  give_keep : ∀ r v, keep r = some v → give v = r

namespace Keyed

variable (c : Keyed Q K V R)

/-- One query, with the entries kept so far. -/
def query (tab : List (K × V)) (q : Q) : R × List (K × V) :=
  match tab.lookup (c.key q) with
  | some v => (c.give v, tab)
  | none =>
      match c.keep (c.ask q) with
      | some v => (c.ask q, (c.key q, v) :: tab)
      | none => (c.ask q, tab)

def queries : List (K × V) → List Q → List R
  | _, [] => []
  | tab, q :: qs => (c.query tab q).1 :: queries (c.query tab q).2 qs

/-- What is kept of the answer to `q` would be the answer to `q'` as well. -/
def Agrees (q q' : Q) : Prop :=
  c.key q = c.key q' → ∀ v, c.keep (c.ask q) = some v → c.ask q' = c.ask q

variable {c} {tab : List (K × V)} {q : Q} {qs : List Q}

/-- No entry gives a wrong answer to one of the queries. -/
def Fits (c : Keyed Q K V R) (tab : List (K × V)) (qs : List Q) : Prop :=
  ∀ q ∈ qs, ∀ v, tab.lookup (c.key q) = some v → c.ask q = c.give v

theorem query_of_kept {v : V} (h : tab.lookup (c.key q) = some v) :
    c.query tab q = (c.give v, tab) := by
  unfold query
  rw [h]

theorem query_of_keep {v : V} (h : tab.lookup (c.key q) = none) (hv : c.keep (c.ask q) = some v) :
    c.query tab q = (c.ask q, (c.key q, v) :: tab) := by
  unfold query
  rw [h]
  dsimp only
  rw [hv]

theorem query_of_drop (h : tab.lookup (c.key q) = none) (hv : c.keep (c.ask q) = none) :
    c.query tab q = (c.ask q, tab) := by
  unfold query
  rw [h]
  dsimp only
  rw [hv]

variable [LawfulBEq K]

/-- An entry that is put in fits the later queries if it agrees with those of its key. -/
theorem fits_cons {v : V} (h : tab.lookup (c.key q) = none) (hv : c.keep (c.ask q) = some v) :
    c.Fits ((c.key q, v) :: tab) qs ↔ c.Fits tab qs ∧ ∀ q' ∈ qs, c.Agrees q q' := by
  have hgive : c.give v = c.ask q := c.give_keep _ v hv
  constructor
  · intro hfits
    constructor
    · intro q' hq' w hw
      have hne : c.key q' ≠ c.key q := by
        intro hkey
        rw [hkey, h] at hw
        cases hw
      apply hfits q' hq' w
      rw [List.lookup_cons, beq_false_of_ne hne]
      exact hw
    · intro q' hq' hkey w _
      rw [← hgive]
      apply hfits q' hq' v
      rw [← hkey]
      exact List.lookup_cons_self
  · intro h'
    obtain ⟨hfits, hagree⟩ := h'
    intro q' hq' w hw
    by_cases hkey : c.key q' = c.key q
    · rw [hkey, List.lookup_cons_self] at hw
      cases hw
      rw [hgive]
      exact hagree q' hq' hkey.symm v hv
    · rw [List.lookup_cons, beq_false_of_ne hkey] at hw
      exact hfits q' hq' w hw

theorem queries_eq_map_iff_of_tab (tab : List (K × V)) (qs : List Q) :
    c.queries tab qs = qs.map c.ask ↔ c.Fits tab qs ∧ qs.Pairwise c.Agrees := by
  induction qs generalizing tab with
  | nil => simp [queries, Fits]
  | cons q qs ih =>
      have hcons : c.Fits tab (q :: qs) ↔
          (∀ v, tab.lookup (c.key q) = some v → c.ask q = c.give v) ∧ c.Fits tab qs :=
        List.forall_mem_cons
      rw [queries, List.map_cons, List.cons.injEq, ih, hcons, List.pairwise_cons]
      cases hl : tab.lookup (c.key q) with
      | some v =>
          rw [query_of_kept hl]
          constructor
          · intro h
            obtain ⟨hgive, hfits, hpair⟩ := h
            refine ⟨⟨fun w hw => ?_, hfits⟩, fun q' hq' hkey w _ => ?_, hpair⟩
            · rw [← Option.some.inj hw]
              exact hgive.symm
            · rw [← hgive]
              apply hfits q' hq' v
              rw [← hkey]
              exact hl
          · intro h
            obtain ⟨⟨hgive, hfits⟩, -, hpair⟩ := h
            exact ⟨(hgive v rfl).symm, hfits, hpair⟩
      | none =>
          have hvacuous : ∀ v, (none : Option V) = some v → c.ask q = c.give v := by
            intro v hv
            cases hv
          cases hv : c.keep (c.ask q) with
          | some v =>
              rw [query_of_keep hl hv, fits_cons hl hv]
              constructor
              · intro h
                obtain ⟨-, ⟨hfits, hagree⟩, hpair⟩ := h
                exact ⟨⟨hvacuous, hfits⟩, hagree, hpair⟩
              · intro h
                obtain ⟨⟨-, hfits⟩, hagree, hpair⟩ := h
                exact ⟨rfl, ⟨hfits, hagree⟩, hpair⟩
          | none =>
              have hagree : ∀ q' ∈ qs, c.Agrees q q' := by
                intro q' _ _ w hw
                rw [hv] at hw
                cases hw
              rw [query_of_drop hl hv]
              constructor
              · intro h
                exact ⟨⟨hvacuous, h.2.1⟩, hagree, h.2.2⟩
              · intro h
                exact ⟨rfl, h.1.2, h.2.2⟩

/-- The answers are those of the function itself exactly when no query of a key was answered,
and the answer kept, before another one of that key to which it is not the answer. -/
theorem queries_eq_map_iff (qs : List Q) :
    c.queries [] qs = qs.map c.ask ↔ qs.Pairwise c.Agrees := by
  rw [queries_eq_map_iff_of_tab]
  constructor
  · exact fun h => h.2
  · intro h
    refine ⟨fun q _ v hv => ?_, h⟩
    cases hv

end Keyed

end Cbuild.Lib
