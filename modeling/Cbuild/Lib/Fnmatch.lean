import Mathlib.Data.List.Forall2
import Mathlib.Data.List.Infix

/-! # Shell patterns

`fnmatch.fnmatchcase` of Python: `*`, `?`, `[seq]` and `[!seq]`. A bracket that is
not closed stands for itself, and the first character of a set may be a closing one.
Paths are matched part by part.
-/

namespace Cbuild.Lib

inductive Glob where
  | star
  | any
  /-- The ranges of a set; a character is a range of its own. -/
  | set (neg : Bool) (ranges : List (Char × Char))
  | lit (c : Char)

namespace Glob

def ranges : List Char → List (Char × Char)
  | c :: '-' :: d :: s => (c, d) :: ranges s
  | c :: s => (c, c) :: ranges s
  | [] => []

/-- What follows an opening bracket: the set, and what is behind it if it is closed. -/
def closing (s : List Char) : Option (Glob × List Char) :=
  let neg := s.head? = some '!'
  let s := if neg then s.drop 1 else s
  let first := if s.head? = some ']' then 1 else 0
  match (s.drop first).dropWhile (· ≠ ']') with
  | [] => none
  | _ :: rest =>
      some (.set neg (ranges (s.take first ++ (s.drop first).takeWhile (· ≠ ']'))), rest)

/-- `fnmatch.translate`. The fuel is the length of the pattern, which every part shortens. -/
def translate : Nat → List Char → List Glob
  | 0, _ => []
  | _, [] => []
  | n + 1, c :: s =>
      if c = '*' then star :: translate n s
      else if c = '?' then any :: translate n s
      else if c = '[' then
        match closing s with
        | none => lit c :: translate n s
        | some (part, rest) => part :: translate n rest
      else lit c :: translate n s

def accepts : List Glob → List Char → Bool
  | [], s => s.isEmpty
  | star :: ps, s => s.tails.any (accepts ps)
  | any :: ps, _ :: s => accepts ps s
  | set neg rs :: ps, c :: s =>
      (rs.any (fun r => r.1.toNat ≤ c.toNat && c.toNat ≤ r.2.toNat) != neg) && accepts ps s
  | lit d :: ps, c :: s => c == d && accepts ps s
  | _ :: _, [] => false

end Glob

def fnmatchcase (name pat : List Char) : Bool := Glob.accepts (Glob.translate pat.length pat) name

theorem fnmatchcase_star (name : List Char) : fnmatchcase name ['*'] = true := by
  show name.tails.any (fun s => s.isEmpty) = true
  exact List.any_eq_true.mpr ⟨[], (List.mem_tails _ _).mpr List.nil_suffix, rfl⟩

theorem fnmatchcase_nil (name : List Char) : fnmatchcase name [] = true ↔ name = [] :=
  List.isEmpty_iff

/-- `PurePath.match` of a relative path: the parts of the pattern from the last one on. -/
def pathMatch (path pat : List (List Char)) : Bool :=
  pat.length ≤ path.length && (List.zipWith fnmatchcase path.reverse pat.reverse).all id

theorem all_zipWith_iff {names pat : List (List Char)} (h : names.length = pat.length) :
    (List.zipWith fnmatchcase names pat).all id = true ↔
      List.Forall₂ (fun n p => fnmatchcase n p = true) names pat := by
  induction names generalizing pat with
  | nil =>
      cases pat with
      | nil => simp
      | cons p pat => cases h
  | cons n names ih =>
      cases pat with
      | nil => cases h
      | cons p pat =>
          rw [List.zipWith_cons_cons, List.all_cons, Bool.and_eq_true, ih (Nat.succ.inj h),
            List.forall₂_cons]
          rfl

/-- A path is matched when its end is, part by part. -/
theorem pathMatch_iff {path pat : List (List Char)} : pathMatch path pat = true ↔
    ∃ above below, path = above ++ below ∧
      List.Forall₂ (fun n p => fnmatchcase n p = true) below pat := by
  have hend : ∀ above below : List (List Char), below.length = pat.length →
      (pathMatch (above ++ below) pat = true ↔
        List.Forall₂ (fun n p => fnmatchcase n p = true) below pat) := by
    intro above below hlen
    have hzip : List.zipWith fnmatchcase (above ++ below).reverse pat.reverse =
        (List.zipWith fnmatchcase below pat).reverse := by
      rw [List.reverse_append, List.reverse_zipWith hlen]
      conv_lhs => rw [← List.append_nil pat.reverse]
      rw [List.zipWith_append (by simp [hlen]), List.zipWith_nil_right, List.append_nil]
    rw [pathMatch, hzip, List.all_reverse, Bool.and_eq_true, all_zipWith_iff hlen,
      and_iff_right]
    simp [hlen]
  constructor
  · intro h
    have hle : pat.length ≤ path.length := by
      rw [pathMatch, Bool.and_eq_true, decide_eq_true_eq] at h
      exact h.1
    have hlen : (path.drop (path.length - pat.length)).length = pat.length := by
      rw [List.length_drop]
      omega
    have hsplit := List.take_append_drop (path.length - pat.length) path
    exact ⟨_, _, hsplit.symm, (hend _ _ hlen).mp (by rw [hsplit]; exact h)⟩
  · intro h
    obtain ⟨above, below, rfl, hmatch⟩ := h
    exact (hend above below hmatch.length_eq).mpr hmatch

end Cbuild.Lib
