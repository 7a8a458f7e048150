import Cbuild.Apk.Token
import Cbuild.Lib.Fnmatch
import Cbuild.Lib.Strictest

/-! # Architecture patterns

`validate_arch` of `cbuild/core/template.py` looks for the pattern that matches the
architecture most strictly. Two patterns that are equally strict are an error; the loop
compares each pattern with the best one so far.
-/

namespace Cbuild.Archs

open Lib

/-- What `broken` may be set to. -/
inductive Broken where
  | conflicting (v : Str)
  | ambiguous (prevmatch v : Str)
  | unbuildable (archn : Str)
  | other (text : Str)

def Broken.text : Broken → Str
  | conflicting v => "conflicting arch patterns: ".toList ++ v ++ ", !".toList ++ v ++
      ", cannot build".toList
  | ambiguous prevmatch v => "ambiguous arch patterns: ".toList ++ prevmatch ++ ", ".toList ++ v ++
      ", cannot build".toList
  | unbuildable archn => "this package cannot be built for ".toList ++ archn
  | other text => text

/-- Within the brackets of `_find_exact` everything is skipped up to the closing one. -/
def findExactFrom : Bool → Str → Nat
  | _, [] => 0
  | true, c :: s => findExactFrom (c ≠ ']') s
  | false, c :: s =>
      if c = '*' ∨ c = '?' then findExactFrom false s
      else if c = '[' then findExactFrom true s
      else findExactFrom false s + 1

/-- `_find_exact` -/
def findExact (s : Str) : Nat := findExactFrom false s

/-- The pattern of an entry, and whether it is negated. -/
def pattern (v : Str) : Str × Bool :=
  if v.head? = some '!' then (v.drop 1, true) else (v, false)

def signed (v : Str) (neg : Bool) : Str := if neg then '!' :: v else v

/-- `prevmatch`, which is false both if there is none and if it is empty, and `prevneg`. -/
abbrev Previous := Option Str × Bool

/-- One entry of `archs`. -/
def matchStep (archn : Str) (prev : Previous) (v : Str) : Except Broken Previous :=
  let (v, curneg) := pattern v
  if ¬ fnmatchcase archn v then .ok prev
  else
    match prev with
    | (none, _) | (some [], _) => .ok (some v, curneg)
    | (some prevmatch, prevneg) =>
        if v = prevmatch then
          if prevneg ≠ curneg then .error (.conflicting v) else .ok prev
        else
          let nexactprev := findExact prevmatch
          let nexactcur := findExact v
          if nexactcur = nexactprev then
            .error (.ambiguous (signed prevmatch prevneg) (signed v curneg))
          else if nexactcur > nexactprev then .ok (some v, curneg)
          else .ok prev

/-- `validate_arch`: what is broken afterwards. -/
def validateArch (broken : Option Broken) (archn : Str) (archs : List Str) : Option Broken :=
  match broken with
  | some b => some b
  | none =>
      if archs = [] then none
      else
        match archs.foldlM (matchStep archn) (none, false) with
        | .error b => some b
        | .ok (none, _) | .ok (some [], _) | .ok (_, true) => some (.unbuildable archn)
        | .ok (some _, false) => none

inductive Outcome where
  | buildable
  | notBuildable
  | error
  deriving DecidableEq

/-- The outcome for a template that is not broken otherwise. -/
def outcome (archn : Str) (archs : List Str) : Outcome :=
  match validateArch none archn archs with
  | none => .buildable
  | some (.unbuildable _) => .notBuildable
  | some _ => .error

/-! ## The choice of the strictest entry -/

/-- An empty list is the same as `*`. -/
def specified (archs : List Str) : List Str := if archs = [] then [['*']] else archs

/-- The entries that match. -/
def matching (archn : Str) (archs : List Str) : List Str :=
  (specified archs).filter fun v => fnmatchcase archn (pattern v).1

/-- How strict an entry is. -/
def exact (v : Str) : Nat := findExact (pattern v).1

def verdict : Choice Str → Outcome
  | .none => .notBuildable
  | .best v => if (pattern v).2 then .notBuildable else .buildable
  | .clash => .error

theorem signed_pattern (v : Str) : signed (pattern v).1 (pattern v).2 = v := by
  unfold pattern signed
  cases v with
  | nil => rfl
  | cons c v =>
      by_cases hc : c = '!'
      · subst hc
        rfl
      · simp [hc]

theorem pattern_injective {v w : Str} (h : pattern v = pattern w) : v = w := by
  rw [← signed_pattern v, h, signed_pattern]

/-- The loop has come to where the choice has. -/
inductive Stands : Except Broken Previous → Choice Str → Prop
  | none : Stands (.ok (none, false)) .none
  | best (v : Str) (h : (pattern v).1 ≠ []) :
      Stands (.ok (some (pattern v).1, (pattern v).2)) (.best v)
  | conflicting (v : Str) : Stands (.error (.conflicting v)) .clash
  | ambiguous (p v : Str) : Stands (.error (.ambiguous p v)) .clash

theorem stands_step {archn v : Str} {prev : Previous} {c : Choice Str} (harch : archn ≠ [])
    (h : Stands (.ok prev) c) (hv : fnmatchcase archn (pattern v).1 = true) :
    Stands (matchStep archn prev v) (c.step exact v) := by
  have hne : (pattern v).1 ≠ [] := by
    intro hnil
    rw [hnil] at hv
    exact harch ((fnmatchcase_nil archn).mp hv)
  unfold matchStep
  dsimp only
  rw [if_neg (not_not_intro hv)]
  cases h with
  | none => exact .best v hne
  | best o ho =>
      rw [Choice.step_best]
      cases hp : (pattern o).1 with
      | nil => exact absurd hp ho
      | cons c p =>
          dsimp only
          rw [← hp]
          by_cases heq : (pattern v).1 = (pattern o).1
          · rw [if_pos heq]
            by_cases hneg : (pattern o).2 ≠ (pattern v).2
            · have hvo : v ≠ o := by
                rintro rfl
                exact hneg rfl
              have hrank : exact v = exact o := congrArg findExact heq
              rw [if_pos hneg, if_neg hvo, if_pos hrank]
              exact .conflicting _
            · have hvo : v = o := pattern_injective (Prod.ext heq (not_not.mp hneg).symm)
              rw [if_neg hneg, if_pos hvo]
              exact .best o ho
          · have hvo : v ≠ o := by
              rintro rfl
              exact heq rfl
            rw [if_neg heq, if_neg hvo]
            show Stands (if exact v = exact o then _ else if exact v > exact o then _ else _) _
            by_cases hrank : exact v = exact o
            · rw [if_pos hrank, if_pos hrank]
              exact .ambiguous _ _
            · rw [if_neg hrank, if_neg hrank]
              by_cases hlt : exact o < exact v
              · rw [if_pos hlt, if_pos hlt]
                exact .best v hne
              · rw [if_neg hlt, if_neg hlt]
                exact .best o ho

theorem stands_run {archn : Str} (harch : archn ≠ []) (archs : List Str) {prev : Previous}
    {c : Choice Str} (h : Stands (.ok prev) c) :
    Stands (archs.foldlM (matchStep archn) prev)
      ((archs.filter fun v => fnmatchcase archn (pattern v).1).foldl (Choice.step exact) c) := by
  induction archs generalizing prev c with
  | nil => exact h
  | cons v archs ih =>
      rw [List.foldlM_cons, List.filter_cons]
      by_cases hv : fnmatchcase archn (pattern v).1 = true
      · rw [if_pos hv, List.foldl_cons]
        have hstep := stands_step harch h hv
        cases hs : matchStep archn prev v with
        | error b =>
            rw [hs] at hstep
            generalize c.step exact v = next at hstep ⊢
            cases hstep with
            | conflicting w =>
                rw [Choice.foldl_clash]
                exact .conflicting w
            | ambiguous p w =>
                rw [Choice.foldl_clash]
                exact .ambiguous p w
        | ok prev' =>
            rw [hs] at hstep
            exact ih hstep
      · have hskip : matchStep archn prev v = .ok prev := by
          unfold matchStep
          dsimp only
          rw [if_pos hv]
        rw [if_neg hv, hskip]
        exact ih h

theorem outcome_eq {archn : Str} (harch : archn ≠ []) (archs : List Str) :
    outcome archn archs = verdict (Choice.choose exact (matching archn archs)) := by
  unfold outcome validateArch matching specified
  by_cases hnil : archs = []
  · rw [if_pos hnil, if_pos hnil]
    have hstar : fnmatchcase archn (pattern ['*']).1 = true := fnmatchcase_star archn
    rw [List.filter_cons, if_pos hstar]
    rfl
  · rw [if_neg hnil, if_neg hnil]
    have hrun := stands_run harch archs .none
    unfold Choice.choose
    generalize archs.foldlM (matchStep archn) (none, false) = r at hrun
    generalize List.foldl (Choice.step exact) _ _ = c at hrun
    cases hrun with
    | none => rfl
    | conflicting v => rfl
    | ambiguous p v => rfl
    | best v hv =>
        cases hp : (pattern v).1 with
        | nil => exact absurd hp hv
        | cons c p => cases hneg : (pattern v).2 <;> simp [verdict, hneg]

/-! ## The order of the patterns -/

/-- Two different entries that match and are equally strict, or the same but for the sign. -/
abbrev Clash (archn : Str) (archs : List Str) : Str → Str → Prop :=
  Choice.Clash exact (matching archn archs)

/-- The outcome is that of every order of the entries. Where none clash the strictest entry
decides, and no entry that matches means not buildable. -/
structure Decided (archn : Str) (archs : List Str) : Prop where
  permuted : ∀ archs', archs'.Perm archs → outcome archn archs' = outcome archn archs
  strictest : (∀ v w, ¬ Clash archn archs v w) → ∀ v ∈ matching archn archs,
    (∀ w ∈ matching archn archs, exact w ≤ exact v) →
    outcome archn archs = if (pattern v).2 then .notBuildable else .buildable
  unmatched : matching archn archs = [] → outcome archn archs = .notBuildable

theorem matching_perm {archn : Str} {archs archs' : List Str} (h : archs'.Perm archs) :
    (matching archn archs').Perm (matching archn archs) := by
  unfold matching specified
  by_cases hnil : archs = []
  · rw [hnil] at h
    rw [h.eq_nil, hnil]
  · have hnil' : archs' ≠ [] := by
      rintro rfl
      exact hnil h.symm.eq_nil
    rw [if_neg hnil, if_neg hnil']
    exact h.filter _

/-- Every order of the entries that match comes from an order of all entries. -/
theorem exists_matching {archn : Str} {archs es : List Str} (h : es.Perm (matching archn archs)) :
    ∃ archs', archs'.Perm archs ∧ matching archn archs' = es := by
  by_cases hnil : archs = []
  · subst hnil
    have hone : matching archn [] = [['*']] := by
      unfold matching specified
      have hstar : fnmatchcase archn (pattern ['*']).1 = true := fnmatchcase_star archn
      rw [if_pos rfl, List.filter_cons, if_pos hstar]
      rfl
    rw [hone] at h
    exact ⟨[], List.Perm.refl [], by rw [hone, List.perm_singleton.mp h]⟩
  · have hsame : matching archn archs =
        archs.filter fun v => fnmatchcase archn (pattern v).1 := by
      unfold matching specified
      rw [if_neg hnil]
    rw [hsame] at h
    have hperm : (es ++ archs.filter fun v => !fnmatchcase archn (pattern v).1).Perm archs :=
      (h.append_right _).trans (List.filter_append_perm _ archs)
    refine ⟨_, hperm, ?_⟩
    have hnil' : es ++ (archs.filter fun v => !fnmatchcase archn (pattern v).1) ≠ [] := by
      intro heq
      rw [heq] at hperm
      exact hnil hperm.symm.eq_nil
    have hes : es.filter (fun v => fnmatchcase archn (pattern v).1) = es := by
      rw [List.filter_eq_self]
      intro v hv
      exact (List.mem_filter.mp (h.mem_iff.mp hv)).2
    unfold matching specified
    rw [if_neg hnil', List.filter_append, hes, List.filter_filter]
    have hrest : archs.filter (fun v => fnmatchcase archn (pattern v).1 &&
        !fnmatchcase archn (pattern v).1) = [] := by
      rw [List.filter_eq_nil_iff]
      intro v _
      simp
    rw [hrest, List.append_nil]

/-- The order of the entries does not matter, and the strictest one decides, exactly if entries
that clash are among the strictest ones whenever there are any. -/
theorem decided_iff (archn : Str) (archs : List Str) (harch : archn ≠ []) :
    Decided archn archs ↔ ((∃ v w, Clash archn archs v w) →
      ∃ v w, Clash archn archs v w ∧ ∀ u ∈ matching archn archs, exact u ≤ exact v) := by
  have hverdict : ∀ v, verdict (.best v) ≠ verdict .clash := by
    intro v
    show (if (pattern v).2 then Outcome.notBuildable else .buildable) ≠ .error
    split <;> simp
  rw [← Choice.choose_perm_iff verdict hverdict]
  constructor
  · intro h es hes
    obtain ⟨archs', hperm, rfl⟩ := exists_matching hes
    rw [← outcome_eq harch, ← outcome_eq harch]
    exact h.permuted archs' hperm
  · intro h
    constructor
    · intro archs' hperm
      rw [outcome_eq harch, outcome_eq harch]
      exact h _ (matching_perm hperm)
    · intro hclash v hv hmax
      rw [outcome_eq harch, Choice.choose_eq_best hclash hv hmax]
      rfl
    · intro hnil
      rw [outcome_eq harch, hnil]
      rfl

theorem exactly_decided : Decided "x86_64".toList ["x86*".toList, "!x86_64".toList] := by
  refine (decided_iff _ _ (by decide)).mpr ?_
  intro hclash
  obtain ⟨v, w, hvw⟩ := hclash
  have hmatching : matching "x86_64".toList ["x86*".toList, "!x86_64".toList] =
      ["x86*".toList, "!x86_64".toList] := by decide
  have hv := hvw.left
  have hw := hvw.right
  rw [hmatching] at hv hw
  simp only [List.mem_cons, List.not_mem_nil, or_false] at hv hw
  have hne := hvw.ne
  have hrank := hvw.rank
  rcases hv with rfl | rfl <;> rcases hw with rfl | rfl
  · exact absurd rfl hne
  · exact absurd hrank (by decide)
  · exact absurd hrank (by decide)
  · exact absurd rfl hne

/-- Two equally strict patterns are an error unless a stricter one stands before them. -/
theorem tie_not_decided :
    ¬ Decided "x86_64".toList ["x86_6?".toList, "x86_?4".toList, "x86_64".toList] := by
  intro h
  have hperm : ["x86_64".toList, "x86_6?".toList, "x86_?4".toList].Perm
      ["x86_6?".toList, "x86_?4".toList, "x86_64".toList] := by decide
  have hsame := h.permuted _ hperm
  revert hsame
  decide

end Cbuild.Archs
