import Mathlib

/-! # Three-way comparisons

Comparison functions of programs are usually total preorders because they
compare keys. `transCmp_comap` pulls the laws back along the key, the list
lemmas let a lexicographic comparison change its comparison of elements, and
what is sorted by a key comes out in one order if no two elements share a key.
-/

namespace Cbuild.Lib

variable {α β : Type*}

/-- A comparison of keys is lawful on whatever has these keys. -/
theorem transCmp_comap {cmp : β → β → Ordering} [Std.TransCmp cmp] (f : α → β) :
    Std.TransCmp (fun a b => cmp (f a) (f b)) where
  eq_swap := Std.OrientedCmp.eq_swap
  isLE_trans := Std.TransCmp.isLE_trans

theorem compareLex_map (cmp : β → β → Ordering) (f : α → β) (l m : List α) :
    (l.map f).compareLex cmp (m.map f) = l.compareLex (fun a b => cmp (f a) (f b)) m := by
  induction l generalizing m with
  | nil => cases m <;> rfl
  | cons a l ih =>
      cases m with
      | nil => rfl
      | cons b m => simp only [List.map_cons, List.compareLex_cons_cons, ih]

theorem compareLex_congr {c d : α → α → Ordering} {l m : List α}
    (h : ∀ a ∈ l, ∀ b ∈ m, c a b = d a b) : l.compareLex c m = l.compareLex d m := by
  induction l generalizing m with
  | nil => cases m <;> rfl
  | cons a l ih =>
      cases m with
      | nil => rfl
      | cons b m =>
          have hhead := h a List.mem_cons_self b List.mem_cons_self
          have htail := ih (m := m) fun x hx y hy =>
            h x (List.mem_cons_of_mem a hx) y (List.mem_cons_of_mem b hy)
          rw [List.compareLex_cons_cons, List.compareLex_cons_cons, hhead, htail]

/-- Comparing by `<` after testing equality is lawful for a linear order. -/
theorem transCmp_ofLinearOrder [LinearOrder α] [DecidableEq α] [DecidableLT α] :
    Std.TransCmp (fun a b : α => if a = b then .eq else if a < b then .lt else .gt) := by
  have h : (fun a b : α => if a = b then Ordering.eq else if a < b then .lt else .gt) =
      fun a b => compareOfLessAndEq a b := by
    funext a b
    unfold compareOfLessAndEq
    by_cases hab : a = b
    · subst hab
      simp
    · simp [hab]
  rw [h]
  exact Std.TransOrd.compareOfLessAndEq_of_lt_trans_of_lt_iff lt_trans
    fun x y => by rw [not_lt, lt_iff_le_and_ne]

/-- The order in which the elements are given does not matter if their keys differ. -/
theorem mergeSort_eq_of_perm [LinearOrder β] {le : α → α → Bool} {l l' : List α} (f : α → β)
    (hle : ∀ a ∈ l, ∀ b ∈ l, le a b = decide (f a ≤ f b))
    (hinj : ∀ a ∈ l, ∀ b ∈ l, f a = f b → a = b) (hperm : l.Perm l') :
    l.mergeSort le = l'.mergeSort le := by
  have hsorted : ∀ m : List α, m.Perm l →
      (m.mergeSort le).Pairwise fun a b => decide (f a ≤ f b) = true := by
    intro m hm
    have hkey : m.mergeSort le = m.mergeSort fun a b => decide (f a ≤ f b) := by
      have hmap : (m.mergeSort le).map id =
          (m.map id).mergeSort fun a b => decide (f a ≤ f b) :=
        List.map_mergeSort fun a ha b hb => hle a (hm.mem_iff.mp ha) b (hm.mem_iff.mp hb)
      rw [List.map_id, List.map_id] at hmap
      exact hmap
    rw [hkey]
    apply List.pairwise_mergeSort
    · intro a b c hab hbc
      rw [decide_eq_true_eq] at hab hbc ⊢
      exact le_trans hab hbc
    · intro a b
      rw [Bool.or_eq_true, decide_eq_true_eq, decide_eq_true_eq]
      exact le_total (f a) (f b)
  have hmem : ∀ {m : List α}, m.Perm l → ∀ {a}, a ∈ m.mergeSort le → a ∈ l := by
    intro m hm a ha
    exact hm.mem_iff.mp (List.mem_mergeSort.mp ha)
  apply List.Perm.eq_of_pairwise _ (hsorted l (List.Perm.refl l)) (hsorted l' hperm.symm)
    ((List.mergeSort_perm l le).trans (hperm.trans (List.mergeSort_perm l' le).symm))
  intro a b ha hb hab hba
  rw [decide_eq_true_eq] at hab hba
  exact hinj a (hmem (List.Perm.refl l) ha) b (hmem hperm.symm hb) (le_antisymm hab hba)

/-- Two elements that are not told apart come out in the order in which they are given. -/
theorem mergeSort_pair {le : α → α → Bool} {a b : α} (h : le a b = true) :
    [a, b].mergeSort le = [a, b] :=
  List.mergeSort_of_pairwise (List.pairwise_pair.mpr h)

end Cbuild.Lib
