import Mathlib.Data.List.Basic
import Mathlib.Data.List.Induction

/-! # The last rule wins

Rules that are applied in order, each giving a value to some places. A place has the
value of the last rule that reaches it, or the one it had.
-/

namespace Cbuild.Lib

variable {E X V : Type} (hit : E → X → Bool) (value : E → V)

/-- One rule applied. -/
def applyOne (m : X → V) (e : E) (x : X) : V := if hit e x then value e else m x

/-- The value of the last rule that reaches a place. -/
def lastOf (rules : List E) (m : X → V) (x : X) : V :=
  ((rules.filter (hit · x)).getLast?.map value).getD (m x)

variable {hit value} {rules : List E} {m : X → V} {x : X} {e : E}

theorem foldl_applyOne (rules : List E) (m : X → V) :
    rules.foldl (applyOne hit value) m = lastOf hit value rules m := by
  funext x
  induction rules using List.reverseRecOn with
  | nil => rfl
  | append_singleton rules e ih =>
      rw [List.foldl_append, List.foldl_cons, List.foldl_nil, applyOne, ih, lastOf, lastOf,
        List.filter_append]
      by_cases he : hit e x = true
      · simp [he]
      · simp [he]

theorem lastOf_of_last (h : (rules.filter (hit · x)).getLast? = some e) :
    lastOf hit value rules m x = value e := by
  rw [lastOf, h, Option.map_some, Option.getD_some]

theorem lastOf_of_none (h : ∀ e ∈ rules, hit e x = false) : lastOf hit value rules m x = m x := by
  have hnil : rules.filter (hit · x) = [] :=
    List.filter_eq_nil_iff.mpr (fun e he => by rw [h e he]; exact Bool.false_ne_true)
  rw [lastOf, hnil]
  rfl

/-- A place some rule reaches has the value of a rule. -/
theorem exists_lastOf_eq (h : ∃ e ∈ rules, hit e x = true) :
    ∃ e ∈ rules, lastOf hit value rules m x = value e := by
  obtain ⟨e, he, hx⟩ := h
  have hmem : e ∈ rules.filter (hit · x) := List.mem_filter.mpr ⟨he, hx⟩
  cases hlast : (rules.filter (hit · x)).getLast? with
  | none =>
      rw [List.getLast?_eq_none_iff.mp hlast] at hmem
      contradiction
  | some e' => exact ⟨e', List.mem_of_mem_filter (List.mem_of_getLast? hlast), lastOf_of_last hlast⟩

theorem lastOf_congr {hit' : E → X → Bool} (h : ∀ e ∈ rules, hit e x = hit' e x) :
    lastOf hit value rules m x = lastOf hit' value rules m x := by
  rw [lastOf, lastOf, List.filter_congr h]

/-- Rules that reach no more than others: the last one is the same if it is among them. -/
theorem getLast?_filter_of_last (hit hit' : E → X → Bool) (hsub : ∀ e ∈ rules, hit' e x = true → hit e x = true)
    (h : (rules.filter (hit · x)).getLast? = some e) (he : hit' e x = true) :
    (rules.filter (hit' · x)).getLast? = some e := by
  have hfilter : rules.filter (hit' · x) = (rules.filter (hit · x)).filter (hit' · x) := by
    rw [List.filter_filter]
    refine List.filter_congr (fun a ha => ?_)
    cases ha' : hit' a x with
    | false => rfl
    | true => rw [hsub a ha ha', Bool.and_self]
  obtain ⟨init, hinit⟩ := List.getLast?_eq_some_iff.mp h
  rw [hfilter, hinit, List.filter_append]
  simp [he]

end Cbuild.Lib
