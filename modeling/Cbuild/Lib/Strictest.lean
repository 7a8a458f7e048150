import Mathlib.Data.List.Induction
import Mathlib.Data.List.MinMax
import Mathlib.Data.List.Perm.Basic

/-! # The strictest of a list, unless two clash

A loop that keeps the element of the highest rank and stops when one is met that
has the rank of the one kept without being the same. It compares with the element
kept only. Two elements that clash go unnoticed where one of a higher rank comes
before them, so that the order matters unless the highest rank has no doubt or
nothing clashes at all.
-/

namespace Cbuild.Lib

variable {E : Type*} [DecidableEq E]

inductive Choice (E : Type*) where
  | none
  | best (e : E)
  | clash

namespace Choice

def step (rank : E → Nat) : Choice E → E → Choice E
  | none, e => best e
  | best o, e =>
      if e = o then best o
      else if rank e = rank o then clash
      else if rank o < rank e then best e
      else best o
  | clash, _ => clash

def choose (rank : E → Nat) (es : List E) : Choice E := es.foldl (step rank) none

/-- Two different elements of one rank. -/
structure Clash (rank : E → Nat) (es : List E) (a b : E) : Prop where
  left : a ∈ es
  right : b ∈ es
  ne : a ≠ b
  rank : rank a = rank b

/-- The only element of the highest rank. -/
structure Strictest (rank : E → Nat) (es : List E) (e : E) : Prop where
  mem : e ∈ es
  le : ∀ a ∈ es, rank a ≤ rank e
  eq : ∀ a ∈ es, rank a = rank e → a = e

variable {rank : E → Nat} {es es' : List E} {a b e : E}

theorem step_best (o e : E) : step rank (best o) e =
    if e = o then best o
    else if rank e = rank o then clash
    else if rank o < rank e then best e
    else best o := rfl

theorem foldl_clash (es : List E) : es.foldl (step rank) clash = clash := by
  induction es with
  | nil => rfl
  | cons e es ih => exact ih

theorem choose_concat (es : List E) (e : E) :
    choose rank (es ++ [e]) = step rank (choose rank es) e := by
  unfold choose
  rw [List.foldl_append]
  rfl

/-- What the loop knows of the elements it has seen. -/
def Knows (rank : E → Nat) (es : List E) : Choice E → Prop
  | none => es = []
  | best e => Strictest rank es e
  | clash => ∃ a b, Clash rank es a b

theorem knows_step (es : List E) (c : Choice E) (h : Knows rank es c) (e : E) :
    Knows rank (es ++ [e]) (step rank c e) := by
  have hlast : e ∈ es ++ [e] := List.mem_append_right es (List.mem_singleton_self e)
  cases c with
  | none =>
      have hes : es = [] := h
      subst hes
      refine ⟨hlast, ?_, ?_⟩ <;> simp
  | clash =>
      obtain ⟨a, b, hab⟩ := h
      exact ⟨a, b, List.mem_append_left _ hab.left, List.mem_append_left _ hab.right, hab.ne,
        hab.rank⟩
  | best o =>
      have ho : Strictest rank es o := h
      have hmem : o ∈ es ++ [e] := List.mem_append_left _ ho.mem
      rw [step_best]
      split
      next heq =>
        subst heq
        refine ⟨hmem, ?_, ?_⟩
        · intro a ha
          rcases List.mem_append.mp ha with ha | ha
          · exact ho.le a ha
          · rw [List.mem_singleton.mp ha]
        · intro a ha hrank
          rcases List.mem_append.mp ha with ha | ha
          · exact ho.eq a ha hrank
          · exact List.mem_singleton.mp ha
      next hne =>
        split
        next hrank => exact ⟨e, o, hlast, hmem, hne, hrank⟩
        next hrank =>
          split
          next hlt =>
            refine ⟨hlast, ?_, ?_⟩
            · intro a ha
              rcases List.mem_append.mp ha with ha | ha
              · have hle := ho.le a ha
                omega
              · rw [List.mem_singleton.mp ha]
            · intro a ha heq
              rcases List.mem_append.mp ha with ha | ha
              · have hle := ho.le a ha
                omega
              · exact List.mem_singleton.mp ha
          next hlt =>
            refine ⟨hmem, ?_, ?_⟩
            · intro a ha
              rcases List.mem_append.mp ha with ha | ha
              · exact ho.le a ha
              · rw [List.mem_singleton.mp ha]
                omega
            · intro a ha heq
              rcases List.mem_append.mp ha with ha | ha
              · exact ho.eq a ha heq
              · rw [List.mem_singleton.mp ha] at heq
                exact absurd heq hrank

theorem knows_choose (es : List E) : Knows rank es (choose rank es) := by
  induction es using List.reverseRecOn with
  | nil => rfl
  | append_singleton es e ih =>
      rw [choose_concat]
      exact knows_step es _ ih e

omit [DecidableEq E] in
theorem Strictest.perm (h : Strictest rank es e) (hperm : es'.Perm es) : Strictest rank es' e :=
  ⟨hperm.mem_iff.mpr h.mem, fun a ha => h.le a (hperm.mem_iff.mp ha),
    fun a ha => h.eq a (hperm.mem_iff.mp ha)⟩

/-- Where nothing clashes the strictest decides. -/
theorem choose_eq_best (hclash : ∀ a b, ¬ Clash rank es a b) (h : e ∈ es)
    (hle : ∀ a ∈ es, rank a ≤ rank e) : choose rank es = best e := by
  have hknows : Knows rank es (choose rank es) := knows_choose es
  cases hc : choose rank es with
  | none =>
      rw [hc] at hknows
      have hes : es = [] := hknows
      rw [hes] at h
      cases h
  | clash =>
      rw [hc] at hknows
      obtain ⟨a, b, hab⟩ := hknows
      exact absurd hab (hclash a b)
  | best o =>
      rw [hc] at hknows
      have ho : Strictest rank es o := hknows
      have hrank : rank e = rank o := le_antisymm (ho.le e h) (hle o ho.mem)
      rw [ho.eq e h hrank]

/-- The loop always finds two that clash at the highest rank. -/
theorem choose_eq_clash (h : Clash rank es a b) (hle : ∀ c ∈ es, rank c ≤ rank a) :
    choose rank es = clash := by
  have hknows : Knows rank es (choose rank es) := knows_choose es
  cases hc : choose rank es with
  | none =>
      rw [hc] at hknows
      have hes : es = [] := hknows
      have hmem := h.left
      rw [hes] at hmem
      cases hmem
  | clash => rfl
  | best o =>
      rw [hc] at hknows
      have ho : Strictest rank es o := hknows
      have hrank : rank a = rank o := le_antisymm (ho.le a h.left) (hle o ho.mem)
      have ha := ho.eq a h.left hrank
      have hb := ho.eq b h.right (h.rank.symm.trans hrank)
      exact absurd (ha.trans hb.symm) h.ne

/-- From the strictest on nothing is looked at any more. -/
theorem foldl_best (h : ∀ a ∈ es, rank a ≤ rank e ∧ (rank a = rank e → a = e)) :
    es.foldl (step rank) (best e) = best e := by
  induction es with
  | nil => rfl
  | cons a es ih =>
      obtain ⟨hle, heq⟩ := h a List.mem_cons_self
      have hstep : step rank (best e) a = best e := by
        rw [step_best]
        by_cases hae : a = e
        · rw [if_pos hae]
        · have hne : rank a ≠ rank e := fun hr => hae (heq hr)
          rw [if_neg hae, if_neg hne, if_neg (by omega)]
      rw [List.foldl_cons, hstep]
      exact ih fun c hc => h c (List.mem_cons_of_mem a hc)

theorem choose_cons_strictest (h : Strictest rank (e :: es) e) :
    choose rank (e :: es) = best e :=
  foldl_best fun a ha => ⟨h.le a (List.mem_cons_of_mem e ha), h.eq a (List.mem_cons_of_mem e ha)⟩

theorem choose_cons_clash (hne : a ≠ b) (hrank : rank a = rank b) :
    choose rank (a :: b :: es) = clash := by
  have hstep : step rank (best a) b = clash := by
    rw [step_best, if_neg hne.symm, if_pos hrank.symm]
  show es.foldl (step rank) (step rank (best a) b) = clash
  rw [hstep]
  exact foldl_clash es

/-- Two elements that clash can be brought to the front. -/
theorem Clash.front (h : Clash rank es a b) :
    (a :: b :: (es.erase a).erase b).Perm es := by
  have hb : b ∈ es.erase a := (List.mem_erase_of_ne h.ne.symm).mpr h.right
  exact ((List.perm_cons_erase hb).symm.cons a).trans (List.perm_cons_erase h.left).symm

/-- What does not tell two bests apart that it should is told apart from a clash. -/
theorem choose_perm_iff {O : Type*} (verdict : Choice E → O)
    (hverdict : ∀ e, verdict (best e) ≠ verdict clash) :
    (∀ es', es'.Perm es → verdict (choose rank es') = verdict (choose rank es)) ↔
      ((∃ a b, Clash rank es a b) →
        ∃ a b, Clash rank es a b ∧ ∀ c ∈ es, rank c ≤ rank a) := by
  constructor
  · intro h hclash
    obtain ⟨a, b, hab⟩ := hclash
    have hfront := h _ hab.front
    rw [choose_cons_clash hab.ne hab.rank] at hfront
    obtain ⟨e, he, hmax⟩ : ∃ e ∈ es, ∀ c ∈ es, rank c ≤ rank e := by
      cases harg : es.argmax rank with
      | none => exact absurd (List.argmax_eq_none.mp harg) (List.ne_nil_of_mem hab.left)
      | some e => exact ⟨e, List.argmax_mem harg, fun c hc => List.le_of_mem_argmax hc harg⟩
    by_contra hnone
    have hstrict : Strictest rank es e := by
      refine ⟨he, hmax, ?_⟩
      intro c hc hrank
      by_contra hne
      exact hnone ⟨e, c, ⟨he, hc, Ne.symm hne, hrank.symm⟩, hmax⟩
    have hperm : (e :: es.erase e).Perm es := (List.perm_cons_erase he).symm
    have hbest := h _ hperm
    rw [choose_cons_strictest (hstrict.perm hperm), ← hfront] at hbest
    exact hverdict e hbest
  · intro h es' hperm
    have hback : ∀ {a b}, Clash rank es' a b → Clash rank es a b := fun hab =>
      ⟨hperm.mem_iff.mp hab.left, hperm.mem_iff.mp hab.right, hab.ne, hab.rank⟩
    by_cases hclash : ∃ a b, Clash rank es a b
    · obtain ⟨a, b, hab, hmax⟩ := h hclash
      have hab' : Clash rank es' a b :=
        ⟨hperm.mem_iff.mpr hab.left, hperm.mem_iff.mpr hab.right, hab.ne, hab.rank⟩
      rw [choose_eq_clash hab hmax, choose_eq_clash hab' fun c hc => hmax c (hperm.mem_iff.mp hc)]
    · have hknows : Knows rank es (choose rank es) := knows_choose es
      cases hc : choose rank es with
      | none =>
          rw [hc] at hknows
          have hes : es = [] := hknows
          rw [hes] at hperm
          rw [hperm.eq_nil]
          rfl
      | clash =>
          rw [hc] at hknows
          exact absurd hknows hclash
      | best e =>
          rw [hc] at hknows
          have he : Strictest rank es e := hknows
          have he' := he.perm hperm
          rw [choose_eq_best (fun a b hab => hclash ⟨a, b, hback hab⟩) he'.mem he'.le]

end Choice

end Cbuild.Lib
