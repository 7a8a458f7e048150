import Mathlib
import Cbuild.Apk.Token

/-! # The comparison of versions that are checked for updates

`_get_verkey` of `update_check`, whose strings are ASCII: a version is a sequence of runs, each a
part without digits and a number, and two versions are compared at the first run in which they
differ.
-/

namespace Cbuild.Update

open Apk

/-- `_digind` -/
def digind (s : Str) (f : Char → Bool) : Nat := s.findIdx f

/-- `_scmp` on the common part. -/
def scmpCommon : List (Char × Char) → Option Int
  | [] => none
  | (c1, c2) :: rest =>
      if c1 = '~' ∨ (c1.isAlpha ∧ ¬ c2.isAlpha) then some (-1)
      else if c1 ≠ c2 then if c1 < c2 then some (-1) else some 1
      else scmpCommon rest

/-- `_scmp` -/
def scmp (a b : Str) : Int :=
  let clen := min a.length b.length
  match scmpCommon ((a.take clen).zip (b.take clen)) with
  | some r => r
  | none =>
      let a2 := a.drop clen
      let b2 := b.drop clen
      if a2.head? = some '~' then -1
      else if a2 = b2 then 0
      else if a2 < b2 then -1
      else 1

/-- `_getstrs` -/
def getstrs (v : Str) : Str × Nat × Str :=
  let dp := digind v Char.isDigit
  let s1 := v.take dp
  let v := v.drop dp
  let ndp := digind v fun c => !c.isDigit
  let d1 := v.take ndp
  (s1, if 0 < d1.length then pyInt d1 else 0, v.drop ndp)

variable {a b x y : Str}

theorem length_getstrs_le (v : Str) : (getstrs v).2.2.length ≤ v.length := by
  unfold getstrs
  dsimp only
  rw [List.length_drop, List.length_drop]
  omega

/-- A run takes a character at least. -/
theorem length_getstrs_lt (h : 0 < a.length) : (getstrs a).2.2.length < a.length := by
  unfold getstrs digind
  dsimp only
  rw [List.length_drop, List.length_drop]
  cases hdp : a.findIdx Char.isDigit with
  | succ n => omega
  | zero =>
      rw [List.drop_zero]
      cases a with
      | nil => exact absurd h (lt_irrefl 0)
      | cons c rest =>
          have hdigit : c.isDigit = true := by
            by_contra hnot
            rw [List.findIdx_cons, Bool.eq_false_iff.mpr hnot] at hdp
            cases hdp
          rw [List.findIdx_cons, hdigit]
          show (c :: rest).length - 0 - (rest.findIdx (fun c => !c.isDigit) + 1) < _
          rw [List.length_cons]
          omega

/-- `_vcmp` -/
def vcmp (a b : Str) : Int :=
  if _h : 0 < a.length ∨ 0 < b.length then
    if (getstrs a).1 ≠ (getstrs b).1 then scmp (getstrs a).1 (getstrs b).1
    else
      let dd : Int := (getstrs a).2.1 - (getstrs b).2.1
      if dd ≠ 0 then dd else vcmp (getstrs a).2.2 (getstrs b).2.2
  else 0
termination_by a.length + b.length
decreasing_by
  have ha := length_getstrs_le a
  have hb := length_getstrs_le b
  rcases _h with h | h
  · have hlt := length_getstrs_lt h
    omega
  · have hlt := length_getstrs_lt h
    omega

/-! ## Runs -/

/-- The runs of a version; those after its end are empty. -/
def runs (v : Str) : Nat → Str × Nat
  | 0 => ((getstrs v).1, (getstrs v).2.1)
  | n + 1 => runs (getstrs v).2.2 n

/-- Two runs that differ. -/
def cmpRun (p q : Str × Nat) : Int := if p.1 ≠ q.1 then scmp p.1 q.1 else (p.2 : Int) - q.2

theorem vcmp_of_differ (h : runs a 0 ≠ runs b 0) : vcmp a b = cmpRun (runs a 0) (runs b 0) := by
  have hne : 0 < a.length ∨ 0 < b.length := by
    by_contra hnot
    have ha : a = [] := List.eq_nil_of_length_eq_zero (by omega)
    have hb : b = [] := List.eq_nil_of_length_eq_zero (by omega)
    rw [ha, hb] at h
    exact h rfl
  rw [vcmp, dif_pos hne]
  unfold cmpRun
  show _ = if (getstrs a).1 ≠ (getstrs b).1 then scmp (getstrs a).1 (getstrs b).1
    else ((getstrs a).2.1 : Int) - (getstrs b).2.1
  by_cases hnd : (getstrs a).1 ≠ (getstrs b).1
  · rw [if_pos hnd, if_pos hnd]
  · have hd : ((getstrs a).2.1 : Int) - (getstrs b).2.1 ≠ 0 := by
      intro hzero
      apply h
      exact Prod.ext (not_not.mp hnd) (show (getstrs a).2.1 = (getstrs b).2.1 by omega)
    rw [if_neg hnd, if_neg hnd]
    exact if_pos hd

theorem vcmp_of_agree (h : runs a 0 = runs b 0) :
    vcmp a b = vcmp (getstrs a).2.2 (getstrs b).2.2 := by
  obtain ⟨hnd, hd⟩ := Prod.mk.inj h
  by_cases hne : 0 < a.length ∨ 0 < b.length
  · conv_lhs => rw [vcmp]
    rw [dif_pos hne, if_neg (not_not.mpr hnd), hd]
    exact if_neg (not_not.mpr (Int.sub_self _))
  · have ha : a = [] := List.eq_nil_of_length_eq_zero (by omega)
    have hb : b = [] := List.eq_nil_of_length_eq_zero (by omega)
    rw [ha, hb]
    rfl

theorem vcmp_spec (a b : Str) :
    (runs a = runs b ∧ vcmp a b = 0) ∨
      ∃ n, (∀ m < n, runs a m = runs b m) ∧ runs a n ≠ runs b n ∧
        vcmp a b = cmpRun (runs a n) (runs b n) := by
  induction hlen : a.length + b.length using Nat.strong_induction_on generalizing a b with
  | h len ih =>
      by_cases hagree : runs a 0 = runs b 0
      · by_cases hne : 0 < a.length ∨ 0 < b.length
        · have hlt : (getstrs a).2.2.length + (getstrs b).2.2.length < len := by
            have ha := length_getstrs_le a
            have hb := length_getstrs_le b
            rcases hne with h | h
            · have hlt := length_getstrs_lt h
              omega
            · have hlt := length_getstrs_lt h
              omega
          rw [vcmp_of_agree hagree]
          rcases ih _ hlt (getstrs a).2.2 (getstrs b).2.2 rfl with ⟨hruns, hzero⟩ | ⟨n, hn⟩
          · left
            refine ⟨funext fun n => ?_, hzero⟩
            cases n with
            | zero => exact hagree
            | succ n => exact congrFun hruns n
          · right
            refine ⟨n + 1, fun m hm => ?_, hn.2⟩
            cases m with
            | zero => exact hagree
            | succ m => exact hn.1 m (Nat.lt_of_succ_lt_succ hm)
        · left
          have ha : a = [] := List.eq_nil_of_length_eq_zero (by omega)
          have hb : b = [] := List.eq_nil_of_length_eq_zero (by omega)
          rw [ha, hb, vcmp]
          exact ⟨rfl, rfl⟩
      · right
        exact ⟨0, fun m hm => absurd hm (Nat.not_lt_zero m), hagree, vcmp_of_differ hagree⟩

/-- Versions are compared at the first run in which they differ. -/
theorem vcmp_of_first {n : Nat} (hm : ∀ m < n, runs a m = runs b m) (hn : runs a n ≠ runs b n) :
    vcmp a b = cmpRun (runs a n) (runs b n) := by
  rcases vcmp_spec a b with ⟨hruns, _⟩ | ⟨n', hm', hn', hcmp⟩
  · exact absurd (congrFun hruns n) hn
  · have heq : n' = n := by
      rcases Nat.lt_trichotomy n' n with hlt | heq | hgt
      · exact absurd (hm n' hlt) hn'
      · exact heq
      · exact absurd (hm' n hgt) hn
    rw [hcmp, heq]

/-! ## Parts without digits -/

/-- The two are compared in one way whichever comes first: one goes on with a `~`, a letter is
against a lower character that is none, or they differ after a common `~`. -/
def strClash : Str → Str → Bool
  | [], b => b.head? = some '~'
  | a, [] => a.head? = some '~'
  | c :: a, c' :: b =>
      if c = c' then if c = '~' then a ≠ b else strClash a b
      else if c = '~' then c' < '~'
      else if c' = '~' then c < '~'
      else (c.isAlpha && !c'.isAlpha && decide (c' < c)) ||
        (c'.isAlpha && !c.isAlpha && decide (c < c'))

theorem scmp_cons (c1 c2 : Char) (a b : Str) :
    scmp (c1 :: a) (c2 :: b) =
      if c1 = '~' ∨ (c1.isAlpha ∧ ¬ c2.isAlpha) then -1
      else if c1 ≠ c2 then if c1 < c2 then -1 else 1
      else scmp a b := by
  unfold scmp
  dsimp only
  rw [List.length_cons, List.length_cons, Nat.succ_min_succ, Nat.succ_eq_add_one,
    List.take_succ_cons, List.take_succ_cons, List.zip_cons_cons, List.drop_succ_cons,
    List.drop_succ_cons]
  have hcommon : ∀ rest, scmpCommon ((c1, c2) :: rest) =
      if c1 = '~' ∨ (c1.isAlpha ∧ ¬ c2.isAlpha) then some (-1)
      else if c1 ≠ c2 then if c1 < c2 then some (-1) else some 1
      else scmpCommon rest := fun rest => rfl
  rw [hcommon]
  by_cases hfirst : c1 = '~' ∨ (c1.isAlpha ∧ ¬ c2.isAlpha)
  · rw [if_pos hfirst, if_pos hfirst]
  · rw [if_neg hfirst, if_neg hfirst]
    by_cases hne : c1 ≠ c2
    · rw [if_pos hne, if_pos hne]
      by_cases hlt : c1 < c2
      · rw [if_pos hlt, if_pos hlt]
      · rw [if_neg hlt, if_neg hlt]
    · rw [if_neg hne, if_neg hne]

/-- The first characters are the same. -/
theorem scmp_cons_self (c : Char) (a b : Str) :
    scmp (c :: a) (c :: b) = if c = '~' then -1 else scmp a b := by
  have hfirst : (c = '~' ∨ (c.isAlpha ∧ ¬ c.isAlpha)) ↔ c = '~' :=
    or_iff_left fun h => h.2 h.1
  rw [scmp_cons, if_neg (not_not.mpr rfl)]
  simp only [hfirst]

/-- The first characters differ. -/
theorem scmp_cons_of_ne {c1 c2 : Char} (h : c1 ≠ c2) (a b : Str) :
    scmp (c1 :: a) (c2 :: b) =
      if c1 = '~' ∨ (c1.isAlpha ∧ ¬ c2.isAlpha) ∨ c1 < c2 then -1 else 1 := by
  rw [scmp_cons, if_pos h]
  by_cases hfirst : c1 = '~' ∨ (c1.isAlpha ∧ ¬ c2.isAlpha)
  · rw [if_pos hfirst, if_pos (or_assoc.mp (Or.inl hfirst))]
  · rw [if_neg hfirst]
    have hiff : (c1 = '~' ∨ (c1.isAlpha ∧ ¬ c2.isAlpha) ∨ c1 < c2) ↔ c1 < c2 := by
      rw [← or_assoc]
      exact or_iff_right hfirst
    simp only [hiff]

theorem scmp_nil_left (h : b ≠ []) : scmp [] b = -1 := by
  cases b with
  | nil => exact absurd rfl h
  | cons c b => rfl

theorem scmp_nil_right (h : a ≠ []) : scmp a [] = if a.head? = some '~' then -1 else 1 := by
  cases a with
  | nil => exact absurd rfl h
  | cons c a => rfl

end Cbuild.Update
