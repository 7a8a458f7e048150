import Mathlib.Data.List.Basic

/-! # Loops that may raise

A loop that builds a list out of a list and ends with the first entry it cannot handle.
-/

namespace Cbuild.Lib

variable {α β : Type} {f : α → Option β} {l : List α} {l' : List β}

/-- The loop gets through when every entry yields its result. -/
theorem mapM_eq_some_iff : l.mapM f = some l' ↔ l.map f = l'.map some := by
  induction l generalizing l' with
  | nil => cases l' <;> simp
  | cons a l ih =>
      cases l' with
      | nil => cases ha : f a <;> cases hl : l.mapM f <;> simp [ha, hl]
      | cons b l' =>
          rw [List.map_cons, List.map_cons, List.cons.injEq, ← ih]
          cases ha : f a <;> cases hl : l.mapM f <;> simp [ha, hl]

theorem exists_of_mem_mapM (h : l.mapM f = some l') {b : β} (hb : b ∈ l') : ∃ a ∈ l, f a = some b := by
  have hmem : some b ∈ l.map f := by
    rw [mapM_eq_some_iff.mp h]
    exact List.mem_map_of_mem hb
  exact List.mem_map.mp hmem

theorem exists_of_mapM_mem (h : l.mapM f = some l') {a : α} (ha : a ∈ l) : ∃ b ∈ l', f a = some b := by
  have hmem : f a ∈ l'.map some := by
    rw [← mapM_eq_some_iff.mp h]
    exact List.mem_map_of_mem ha
  obtain ⟨b, hb, hab⟩ := List.mem_map.mp hmem
  exact ⟨b, hb, hab.symm⟩

/-- The last result is that of the last entry. -/
theorem getLast?_mapM (h : l.mapM f = some l') : l.getLast?.bind f = l'.getLast? := by
  have hlast := congrArg List.getLast? (mapM_eq_some_iff.mp h)
  rw [List.getLast?_map, List.getLast?_map] at hlast
  cases hl : l.getLast? with
  | none =>
      rw [hl] at hlast
      cases hl' : l'.getLast? with
      | none => rfl
      | some b => simp [hl'] at hlast
  | some a =>
      rw [hl] at hlast
      cases hl' : l'.getLast? with
      | none => simp [hl'] at hlast
      | some b =>
          rw [hl', Option.map_some, Option.map_some, Option.some.injEq] at hlast
          exact hlast

end Cbuild.Lib
