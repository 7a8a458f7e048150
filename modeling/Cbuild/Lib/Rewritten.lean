import Mathlib.Data.List.Basic
import Mathlib.Logic.Relation

/-! # Lists that are rewritten in place

Entries of a list are replaced and new ones are added, pass by pass. Nothing of the first list
is lost but by a chain of replacements, and what is in the last one comes from the first or was
added.
-/

namespace Cbuild.Lib

open Relation

variable {α : Type}

section Replace

variable [BEq α] [LawfulBEq α] {l : List α} {a b c : α}

theorem mem_replace_of_ne (hc : c ∈ l) (hne : c ≠ a) : c ∈ l.replace a b := by
  induction l with
  | nil => nomatch hc
  | cons x l ih =>
      rw [List.replace_cons]
      by_cases hx : a = x
      · subst hx
        rw [beq_self_eq_true]
        exact List.mem_cons_of_mem b ((List.mem_cons.mp hc).resolve_left hne)
      · rw [beq_eq_false_iff_ne.mpr hx]
        rcases List.mem_cons.mp hc with rfl | hc
        · exact List.mem_cons_self
        · exact List.mem_cons_of_mem x (ih hc)

theorem mem_replace_self (ha : a ∈ l) : b ∈ l.replace a b := by
  induction l with
  | nil => nomatch ha
  | cons x l ih =>
      rw [List.replace_cons]
      by_cases hx : a = x
      · subst hx
        rw [beq_self_eq_true]
        exact List.mem_cons_self
      · rw [beq_eq_false_iff_ne.mpr hx]
        exact List.mem_cons_of_mem x (ih ((List.mem_cons.mp ha).resolve_left hx))

theorem mem_of_mem_replace (h : c ∈ l.replace a b) : c ∈ l ∨ a ∈ l ∧ c = b := by
  induction l with
  | nil => nomatch h
  | cons x l ih =>
      rw [List.replace_cons] at h
      by_cases hx : a = x
      · subst hx
        rw [beq_self_eq_true] at h
        rcases List.mem_cons.mp h with rfl | h
        · exact .inr ⟨List.mem_cons_self, rfl⟩
        · exact .inl (List.mem_cons_of_mem a h)
      · rw [beq_eq_false_iff_ne.mpr hx] at h
        rcases List.mem_cons.mp h with rfl | h
        · exact .inl List.mem_cons_self
        · exact (ih h).imp (List.mem_cons_of_mem x) (And.imp_left (List.mem_cons_of_mem x))

end Replace

/-- The second list comes from the first one. -/
structure Rewritten (R : α → α → Prop) (New : α → Prop) (l l' : List α) : Prop where
  kept : ∀ a ∈ l, ∃ a' ∈ l', ReflTransGen R a a'
  origin : ∀ a' ∈ l', ∃ a, (a ∈ l ∨ New a) ∧ ReflTransGen R a a'

namespace Rewritten

variable {R : α → α → Prop} {New : α → Prop} {l l' l'' : List α} {a b : α}

theorem refl (l : List α) : Rewritten R New l l :=
  ⟨fun a ha => ⟨a, ha, .refl⟩, fun a ha => ⟨a, .inl ha, .refl⟩⟩

theorem trans (h : Rewritten R New l l') (h' : Rewritten R New l' l'') : Rewritten R New l l'' := by
  constructor
  · intro a ha
    obtain ⟨a', ha', haa'⟩ := h.kept a ha
    obtain ⟨a'', ha'', haa''⟩ := h'.kept a' ha'
    exact ⟨a'', ha'', haa'.trans haa''⟩
  · intro a'' ha''
    obtain ⟨a', ha' | hnew, haa''⟩ := h'.origin a'' ha''
    · obtain ⟨a, ha, haa'⟩ := h.origin a' ha'
      exact ⟨a, ha, haa'.trans haa''⟩
    · exact ⟨a', .inr hnew, haa''⟩

theorem map {f : α → α} (hf : ∀ a ∈ l, ReflTransGen R a (f a)) : Rewritten R New l (l.map f) := by
  constructor
  · exact fun a ha => ⟨f a, List.mem_map_of_mem ha, hf a ha⟩
  · intro a' ha'
    obtain ⟨a, ha, rfl⟩ := List.mem_map.mp ha'
    exact ⟨a, .inl ha, hf a ha⟩

theorem replace [BEq α] [LawfulBEq α] (h : R a b) : Rewritten R New l (l.replace a b) := by
  constructor
  · intro c hc
    by_cases hca : c = a
    · subst hca
      exact ⟨b, mem_replace_self hc, .single h⟩
    · exact ⟨c, mem_replace_of_ne hc hca, .refl⟩
  · intro c hc
    rcases mem_of_mem_replace hc with hc | ⟨ha, rfl⟩
    · exact ⟨c, .inl hc, .refl⟩
    · exact ⟨a, .inl ha, .single h⟩

theorem append (h : ∀ a ∈ l', New a) : Rewritten R New l (l ++ l') := by
  constructor
  · exact fun a ha => ⟨a, List.mem_append_left l' ha, .refl⟩
  · exact fun a ha => ⟨a, (List.mem_append.mp ha).imp_right (h a), .refl⟩

theorem foldl {β : Type} {f : List α → β → List α} {bs : List β}
    (hf : ∀ l, ∀ b ∈ bs, Rewritten R New l (f l b)) : Rewritten R New l (bs.foldl f l) := by
  induction bs generalizing l with
  | nil => exact refl l
  | cons b bs ih =>
      exact (hf l b List.mem_cons_self).trans (ih fun l b' hb' => hf l b' (List.mem_cons_of_mem b hb'))

/-- What a replacement preserves holds of the last list. -/
theorem forall_mem {P : α → Prop} (h : Rewritten R New l l') (hR : ∀ a b, R a b → P a → P b)
    (hNew : ∀ a, New a → P a) (hl : ∀ a ∈ l, P a) : ∀ a ∈ l', P a := by
  intro a' ha'
  obtain ⟨a, ha, haa'⟩ := h.origin a' ha'
  clear ha'
  induction haa' with
  | refl => exact ha.elim (hl a) (hNew a)
  | tail _ hstep ih => exact hR _ _ hstep ih

end Rewritten

end Cbuild.Lib
