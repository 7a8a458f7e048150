import Cbuild.Apk.Recipe
import Cbuild.Lib.Rules
import Mathlib.Data.List.Forall2

/-! # The rules for the files to strip

Each file has a rule of its own, under a name made from its path, and the goal has all of them as
prerequisites. `make` is called in the directory the files are in.
-/

namespace Cbuild.Apk

open Lib

/-- The recipe of the rule for a file. -/
def StripJob.recipe (j : StripJob) (mkp : Str) : Str :=
  shellJoin ((j.command mkp).1 :: (j.command mkp).2)

/-- The files of which `make` reads the first; the last one is what is written. -/
def makefiles : List Str := ["GNUmakefile".toList, "makefile".toList, "Makefile".toList]

/-- The recipes `make` runs, if it reads what is written and no file has gone for it. -/
def StripJob.runs (j : StripJob) (mk : RuleReader) : Option (List Str) :=
  if j.stripList.any (makefiles.contains ·) then none else mk.runs (stripAttach j)

/-- Neither `make` nor the makefile takes a path for something else. -/
structure Plain (j : StripJob) : Prop where
  targets : ∀ mkp ∈ j.stripList, PlainWord (stripRule mkp)
  goal : misread ((stripAttach j).map Prod.fst) = false
  makefile : ∀ mkp ∈ j.stripList, mkp ∉ makefiles
  recipes : ∀ mkp ∈ j.stripList, NoDollar (j.words mkp) ∧ OneLine (j.words mkp)

variable {j : StripJob} {p q : Str}

/-- A recipe with a line feed in it is no recipe line. -/
theorem StripExact.oneLine (h : StripExact j) {mkp : Str} (hmkp : mkp ∈ j.stripList) :
    OneLine (j.words mkp) := by
  have hwords := h Make.nothingDefined
  unfold stripAttach at hwords
  simp only [List.map_map, List.map_inj_left, List.mem_mergeSort, Function.comp_apply] at hwords
  have hrun : Make.nothingDefined.recipeWords (shellJoin (j.words mkp)) = some (j.words mkp) :=
    hwords mkp hmkp
  intro a ha hline
  have hcount := count_join (d := '\n') (by decide) (by decide) (by decide) (j.words mkp)
  have hmem : '\n' ∈ shellJoin (j.words mkp) := by
    rw [← List.count_pos_iff, hcount, List.count_pos_iff]
    exact List.mem_flatten.mpr ⟨a, ha, hline⟩
  rw [Make.recipeWords, if_pos hmem] at hrun
  cases hrun

end Cbuild.Apk
