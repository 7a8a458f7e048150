import Cbuild.Update.VerCompare

/-! # The order of versions

The order that the comparison of versions follows, and where it does not: the comparison is a total
preorder on a set of versions, and sorts them in one way only, exactly when no two of the versions
clash and no two have the same runs.
-/

namespace Cbuild.Update

variable {a b : Str}

/-- Letters come before other characters. -/
def rank (c : Char) : ℕ ×ₗ ℕ := toLex (if c.isAlpha then 0 else 1, c.toNat)

theorem rank_lt_iff {c c' : Char} :
    rank c < rank c' ↔ (c.isAlpha = true ∧ c'.isAlpha = false) ∨
      (c.isAlpha = c'.isAlpha ∧ c < c') := by
  have hlt : c < c' ↔ c.toNat < c'.toNat := Iff.rfl
  unfold rank
  rw [Prod.Lex.toLex_lt_toLex, hlt]
  cases c.isAlpha
  · cases c'.isAlpha
    · simp
    · simp
  · cases c'.isAlpha
    · simp
    · simp

theorem rank_ne {c c' : Char} (h : c ≠ c') : rank c ≠ rank c' := by
  intro heq
  have htoNat : c.toNat = c'.toNat := congrArg (fun r => (ofLex r).2) heq
  exact h (Char.toNat_inj.mp htoNat)

/-- `x` is the sign of a comparison. -/
def IsCmp {α : Type*} [LT α] (x : Int) (p q : α) : Prop := (p < q ∧ x < 0) ∨ (q < p ∧ 0 < x)

theorem isAlpha_lt_tilde {c : Char} (h : c.isAlpha = true) : c < '~' := by
  have hlt : c < '~' ↔ c.toNat < 126 := Iff.rfl
  rw [hlt]
  unfold Char.isAlpha Char.isUpper Char.isLower at h
  rw [Bool.or_eq_true, Bool.and_eq_true, decide_eq_true_eq, decide_eq_true_eq,
    decide_eq_true_eq] at h
  have hval : c.toNat = c.val.toNat := rfl
  rw [hval]
  rcases h with ⟨_, h⟩ | ⟨_, h⟩
  · have h : c.val.toNat ≤ 90 := h
    omega
  · have h : c.val.toNat ≤ 122 := h
    omega

/-- Two characters that differ, none of which is lower than a letter that it is against. -/
theorem isCmp_chars {c c' : Char} (hne : c ≠ c')
    (hclash : (c'.isAlpha && !c.isAlpha && decide (c < c')) = false) :
    IsCmp (if (c.isAlpha ∧ ¬ c'.isAlpha) ∨ c < c' then -1 else 1) (rank c) (rank c') := by
  unfold IsCmp
  rw [rank_lt_iff, rank_lt_iff]
  rcases lt_or_gt_of_ne hne with hlt | hgt
  · have hnot : ¬ c' < c := lt_asymm hlt
    cases hc : c.isAlpha
    · cases hc' : c'.isAlpha
      · simp [hlt, hnot]
      · rw [hc, hc', decide_eq_true hlt] at hclash
        cases hclash
    · cases hc' : c'.isAlpha
      · simp
      · simp [hlt, hnot]
  · have hnot : ¬ c < c' := lt_asymm hgt
    cases hc : c.isAlpha
    · cases hc' : c'.isAlpha
      · simp [hgt, hnot]
      · simp [hnot]
    · cases hc' : c'.isAlpha
      · simp
      · simp [hgt, hnot]

theorem isCmp_cons_of_ne {c c' : Char} (hne : c ≠ c')
    (hclash : strClash (c :: a) (c' :: b) = false) :
    IsCmp (scmp (c :: a) (c' :: b)) (rank c) (rank c') := by
  unfold strClash at hclash
  rw [if_neg hne] at hclash
  rw [scmp_cons_of_ne hne]
  by_cases htilde : c = '~'
  · rw [if_pos htilde] at hclash
    have hnot : ¬ c' < '~' := of_decide_eq_false hclash
    have halpha : c'.isAlpha = false := by
      rw [Bool.eq_false_iff]
      exact fun h => hnot (isAlpha_lt_tilde h)
    have hlt : c < c' := by
      rw [htilde] at hne ⊢
      exact lt_of_le_of_ne (not_lt.mp hnot) hne
    rw [if_pos (Or.inl htilde)]
    left
    refine ⟨?_, by omega⟩
    rw [rank_lt_iff, halpha, htilde]
    exact Or.inr ⟨rfl, htilde ▸ hlt⟩
  · rw [if_neg htilde] at hclash
    have hlower : (c'.isAlpha && !c.isAlpha && decide (c < c')) = false := by
      by_cases htilde' : c' = '~'
      · rw [htilde']
        rfl
      · rw [if_neg htilde', Bool.or_eq_false_iff] at hclash
        exact hclash.2
    have hor : (c = '~' ∨ (c.isAlpha = true ∧ ¬ c'.isAlpha = true) ∨ c < c') ↔
        (c.isAlpha = true ∧ ¬ c'.isAlpha = true) ∨ c < c' := or_iff_right htilde
    simp only [hor]
    exact isCmp_chars hne hlower

/-- Parts that do not clash are compared character by character, by rank. -/
theorem scmp_spec (hne : a ≠ b) (hclash : strClash a b = false) :
    IsCmp (scmp a b) (a.map rank) (b.map rank) := by
  induction a generalizing b with
  | nil =>
      left
      rw [scmp_nil_left hne.symm]
      cases b with
      | nil => exact absurd rfl hne
      | cons c b => exact ⟨List.nil_lt_cons _ _, by omega⟩
  | cons c a ih =>
      cases b with
      | nil =>
          right
          rw [scmp_nil_right hne]
          have htilde : ¬ (c :: a).head? = some '~' := of_decide_eq_false hclash
          rw [if_neg htilde]
          exact ⟨List.nil_lt_cons _ _, by omega⟩
      | cons c' b =>
          have hmap : ∀ {x : Int}, IsCmp x (rank c) (rank c') ∨
              (c = c' ∧ IsCmp x (a.map rank) (b.map rank)) →
              IsCmp x ((c :: a).map rank) ((c' :: b).map rank) := by
            intro x h
            unfold IsCmp
            rw [List.map_cons, List.map_cons, List.cons_lt_cons_iff, List.cons_lt_cons_iff]
            rcases h with h | ⟨rfl, h⟩
            · exact h.imp (And.imp_left Or.inl) (And.imp_left Or.inl)
            · exact h.imp (And.imp_left fun h => Or.inr ⟨rfl, h⟩)
                (And.imp_left fun h => Or.inr ⟨rfl, h⟩)
          apply hmap
          by_cases heq : c = c'
          · subst heq
            unfold strClash at hclash
            rw [if_pos rfl] at hclash
            have hrest : a ≠ b := fun h => hne (congrArg (c :: ·) h)
            by_cases htilde : c = '~'
            · rw [if_pos htilde] at hclash
              exact absurd hrest (of_decide_eq_false hclash)
            · rw [if_neg htilde] at hclash
              rw [scmp_cons_self, if_neg htilde]
              exact Or.inr ⟨rfl, ih hrest hclash⟩
          · exact Or.inl (isCmp_cons_of_ne heq hclash)

/-- Two characters that clash. -/
theorem scmp_of_clash_chars {c c' : Char} (hne : c ≠ c')
    (hclash : strClash (c :: a) (c' :: b) = true) :
    scmp (c :: a) (c' :: b) = -1 ∧ scmp (c' :: b) (c :: a) = -1 := by
  unfold strClash at hclash
  rw [if_neg hne] at hclash
  rw [scmp_cons_of_ne hne, scmp_cons_of_ne hne.symm]
  by_cases htilde : c = '~'
  · rw [if_pos htilde] at hclash
    have hlt : c' < c := htilde ▸ of_decide_eq_true hclash
    exact ⟨if_pos (Or.inl htilde), if_pos (Or.inr (Or.inr hlt))⟩
  · rw [if_neg htilde] at hclash
    by_cases htilde' : c' = '~'
    · rw [if_pos htilde'] at hclash
      have hlt : c < c' := htilde' ▸ of_decide_eq_true hclash
      exact ⟨if_pos (Or.inr (Or.inr hlt)), if_pos (Or.inl htilde')⟩
    · rw [if_neg htilde', Bool.or_eq_true] at hclash
      rcases hclash with h | h
      · rw [Bool.and_eq_true, Bool.and_eq_true, Bool.not_eq_true', decide_eq_true_eq] at h
        obtain ⟨⟨hc, hc'⟩, hlt⟩ := h
        exact ⟨if_pos (Or.inr (Or.inl ⟨hc, Bool.eq_false_iff.mp hc'⟩)),
          if_pos (Or.inr (Or.inr hlt))⟩
      · rw [Bool.and_eq_true, Bool.and_eq_true, Bool.not_eq_true', decide_eq_true_eq] at h
        obtain ⟨⟨hc', hc⟩, hlt⟩ := h
        exact ⟨if_pos (Or.inr (Or.inr hlt)),
          if_pos (Or.inr (Or.inl ⟨hc', Bool.eq_false_iff.mp hc⟩))⟩

theorem scmp_of_clash (hclash : strClash a b = true) : scmp a b = -1 ∧ scmp b a = -1 := by
  induction a generalizing b with
  | nil =>
      have htilde : b.head? = some '~' := of_decide_eq_true hclash
      obtain ⟨b, rfl⟩ := List.head?_eq_some_iff.mp htilde
      exact ⟨rfl, rfl⟩
  | cons c a ih =>
      cases b with
      | nil =>
          have htilde : (c :: a).head? = some '~' := of_decide_eq_true hclash
          obtain ⟨a', ha⟩ := List.head?_eq_some_iff.mp htilde
          rw [ha]
          exact ⟨rfl, rfl⟩
      | cons c' b =>
          by_cases heq : c = c'
          · subst heq
            unfold strClash at hclash
            rw [if_pos rfl] at hclash
            rw [scmp_cons_self, scmp_cons_self]
            by_cases htilde : c = '~'
            · rw [if_pos htilde, if_pos htilde]
              exact ⟨rfl, rfl⟩
            · rw [if_neg htilde] at hclash
              rw [if_neg htilde, if_neg htilde]
              exact ih hclash
          · exact scmp_of_clash_chars heq hclash

/-! ## Versions -/

/-- The two versions clash where they first differ. -/
def Clash (a b : Str) : Prop :=
  ∃ n, (∀ m < n, runs a m = runs b m) ∧ (runs a n).1 ≠ (runs b n).1 ∧
    strClash (runs a n).1 (runs b n).1 = true

/-- What versions are ordered by. -/
def verKey (v : Str) : Lex (ℕ → List (ℕ ×ₗ ℕ) ×ₗ ℕ) :=
  toLex fun n => toLex ((runs v n).1.map rank, (runs v n).2)

theorem verKey_lt {n : Nat} (hm : ∀ m < n, runs a m = runs b m)
    (hn : toLex ((runs a n).1.map rank, (runs a n).2) <
      toLex ((runs b n).1.map rank, (runs b n).2)) : verKey a < verKey b := by
  refine ⟨n, fun m hlt => ?_, hn⟩
  show toLex ((runs a m).1.map rank, (runs a m).2) = toLex ((runs b m).1.map rank, (runs b m).2)
  rw [hm m hlt]

/-- Versions that do not clash are compared by their keys. -/
theorem vcmp_key (hclash : ¬ Clash a b) :
    (runs a = runs b ∧ vcmp a b = 0) ∨ IsCmp (vcmp a b) (verKey a) (verKey b) := by
  rcases vcmp_spec a b with hagree | ⟨n, hm, hn, hcmp⟩
  · exact Or.inl hagree
  · right
    rw [hcmp]
    have hm' : ∀ m < n, runs b m = runs a m := fun m hlt => (hm m hlt).symm
    unfold cmpRun
    by_cases hnd : (runs a n).1 ≠ (runs b n).1
    · rw [if_pos hnd]
      have hstr : strClash (runs a n).1 (runs b n).1 = false := by
        rw [Bool.eq_false_iff]
        exact fun h => hclash ⟨n, hm, hnd, h⟩
      rcases scmp_spec hnd hstr with ⟨hlt, hneg⟩ | ⟨hlt, hpos⟩
      · exact Or.inl ⟨verKey_lt hm (Prod.Lex.toLex_lt_toLex.mpr (Or.inl hlt)), hneg⟩
      · exact Or.inr ⟨verKey_lt hm' (Prod.Lex.toLex_lt_toLex.mpr (Or.inl hlt)), hpos⟩
    · rw [if_neg hnd]
      have hnd : (runs a n).1 = (runs b n).1 := not_not.mp hnd
      have hd : (runs a n).2 ≠ (runs b n).2 := fun h => hn (Prod.ext hnd h)
      rcases lt_or_gt_of_ne hd with hlt | hgt
      · left
        refine ⟨verKey_lt hm (Prod.Lex.toLex_lt_toLex.mpr (Or.inr ⟨?_, hlt⟩)), by omega⟩
        rw [hnd]
      · right
        refine ⟨verKey_lt hm' (Prod.Lex.toLex_lt_toLex.mpr (Or.inr ⟨?_, hgt⟩)), by omega⟩
        rw [hnd]

theorem vcmp_of_clash (hclash : Clash a b) : vcmp a b = -1 ∧ vcmp b a = -1 := by
  obtain ⟨n, hm, hnd, hstr⟩ := hclash
  have hn : runs a n ≠ runs b n := fun h => hnd (congrArg Prod.fst h)
  have hm' : ∀ m < n, runs b m = runs a m := fun m hlt => (hm m hlt).symm
  obtain ⟨hab, hba⟩ := scmp_of_clash hstr
  rw [vcmp_of_first hm hn, vcmp_of_first hm' hn.symm]
  unfold cmpRun
  rw [if_pos hnd, if_pos hnd.symm]
  exact ⟨hab, hba⟩

end Cbuild.Update
