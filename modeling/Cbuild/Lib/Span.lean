import Mathlib.Data.List.TakeWhile

/-! # Maximal spans of a list

A scanner that repeatedly cuts off the longest prefix satisfying a predicate is
determined by where each prefix stops. `Stops p s` says that `s` begins with no
element of the class `p`, so that a span written before `s` cannot grow into it.
-/

namespace Cbuild.Lib

variable {α : Type*}

/-- A scanner for the class `p` reads nothing at the head of `s`. -/
def Stops (p : α → Bool) (s : List α) : Prop := ∀ c, s.head? = some c → p c = false

@[simp] theorem stops_nil (p : α → Bool) : Stops p [] := by simp [Stops]

@[simp] theorem stops_cons (p : α → Bool) (c : α) (s : List α) :
    Stops p (c :: s) ↔ p c = false := by simp [Stops]

theorem stops_dropWhile (p : α → Bool) (s : List α) : Stops p (s.dropWhile p) := by
  intro c hc
  have h := List.head?_dropWhile_not p s
  rw [hc] at h
  exact h

theorem takeWhile_of_stops {p : α → Bool} {s : List α} (h : Stops p s) :
    s.takeWhile p = [] := by
  cases s with
  | nil => rfl
  | cons c s => simpa using h

theorem dropWhile_of_stops {p : α → Bool} {s : List α} (h : Stops p s) :
    s.dropWhile p = s := by
  cases s with
  | nil => rfl
  | cons c s => simpa using h

/-- The span cut off `w ++ s` is exactly `w` when `s` stops the scanner. -/
theorem takeWhile_append_of_stops {p : α → Bool} {w s : List α} (hw : ∀ c ∈ w, p c)
    (hs : Stops p s) : (w ++ s).takeWhile p = w := by
  rw [List.takeWhile_append_of_pos hw, takeWhile_of_stops hs, List.append_nil]

theorem dropWhile_append_of_stops {p : α → Bool} {w s : List α} (hw : ∀ c ∈ w, p c)
    (hs : Stops p s) : (w ++ s).dropWhile p = s := by
  rw [List.dropWhile_append_of_pos hw, dropWhile_of_stops hs]

/-- A scan that stops inside a list does not see what is appended to it. -/
theorem takeWhile_append_of_dropWhile {p : α → Bool} {l r : List α}
    (h : l.dropWhile p ≠ []) : (l ++ r).takeWhile p = l.takeWhile p := by
  rw [List.takeWhile_append, if_neg]
  intro hlen
  have hsplit := congrArg List.length (List.takeWhile_append_dropWhile (p := p) (l := l))
  have hpos := List.length_pos_iff.mpr h
  rw [List.length_append] at hsplit
  omega

end Cbuild.Lib
