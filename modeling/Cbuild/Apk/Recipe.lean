import Cbuild.Apk.Generate

/-! # What the recipe lines run

The lines are quoted for the shell and not for `make`: they run the command they
were made for unless an argument has a dollar sign in it, or the program of a
line that is not echoed has to be quoted.
-/

namespace Cbuild.Apk

open Lib

/-- Printable characters make one line. -/
def OneLine (words : List Str) : Prop := ∀ a ∈ words, '\n' ∉ a

def NoDollar (words : List Str) : Prop := ∀ a ∈ words, '$' ∉ a

/-- The program can follow the flag `@` without quotes. -/
def Bare (program : Str) : Prop :=
  program ≠ [] ∧ program.all isShellSafe = true ∧ Unflagged program

def MkpkgJob.words (j : MkpkgJob) : Except PkgError (List Str) := do
  let args ← j.args
  return j.program :: args

def StripJob.words (j : StripJob) (mkp : Str) : List Str := (j.command mkp).1 :: (j.command mkp).2

/-- Whatever `make` has defined, the recipe runs the words it was made from. -/
def MkpkgExact (j : MkpkgJob) : Prop :=
  ∀ words line, j.words = .ok words → genMkpkg j = .ok line →
    ∀ mk : Make, mk.recipeWords line = some words

def StripExact (j : StripJob) : Prop :=
  ∀ mk : Make, (stripAttach j).map (fun rule => mk.recipeWords rule.2) =
    (j.stripList.mergeSort fun a b => decide (a ≤ b)).map fun mkp => some (j.words mkp)

/-- Only a relative trigger path is an error, and the error names it. -/
theorem triggerArgs_error {ts : List Str} {e : PkgError} (h : triggerArgs ts = .error e) :
    ∃ t ∈ ts, "/".toList.isPrefixOf (removePrefix "+".toList t) = false ∧
      e.message = "invalid trigger path: ".toList ++ t := by
  induction ts with
  | nil => nomatch h
  | cons t ts ih =>
      unfold triggerArgs at h
      split at h
      · cases hts : triggerArgs ts with
        | ok rest =>
            rw [hts] at h
            nomatch h
        | error e' =>
            rw [hts] at h
            cases h
            obtain ⟨u, hu, hrel, hmessage⟩ := ih hts
            exact ⟨u, List.mem_cons_of_mem t hu, hrel, hmessage⟩
      · rename_i hrel
        cases h
        exact ⟨t, List.mem_cons_self, eq_false_of_ne_true hrel, rfl⟩

section

variable {j : MkpkgJob} {words : List Str}

theorem MkpkgJob.words_ok (h : j.words = .ok words) :
    ∃ rest, words = j.program :: "mkpkg".toList :: rest ∧
      genMkpkg j = .ok (shellJoin (('@' :: j.program) :: "mkpkg".toList :: rest)) := by
  unfold MkpkgJob.words genMkpkg MkpkgJob.args at *
  cases hc : getCmdline j.pkg j.arch j.origin j.desc j.dcomp j.new with
  | error e =>
      rw [hc] at h
      nomatch h
  | ok pargs =>
      rw [hc] at h
      cases h
      exact ⟨_, rfl, rfl⟩

theorem unflagged_mkpkg : Unflagged "mkpkg".toList := by
  intro c hc
  cases hc
  rfl

theorem mkpkgExact_iff (hwords : j.words = .ok words) (hline : OneLine words) :
    MkpkgExact j ↔ Bare j.program ∧ NoDollar words := by
  obtain ⟨rest, rfl, hgen⟩ := MkpkgJob.words_ok hwords
  apply Iff.trans _ (Make.recipeWords_silent_iff unflagged_mkpkg hline)
  constructor
  · intro h mk
    exact h _ _ hwords hgen mk
  · intro h words' line hwords' hline' mk
    rw [hwords] at hwords'
    rw [hgen] at hline'
    cases hwords'
    cases hline'
    exact h mk

/-- In a container the program is plain `apk`. -/
theorem bare_program_iff : Bare j.program ↔ j.pkg.stage > 0 ∨ Bare j.apk := by
  unfold MkpkgJob.program
  split
  · rename_i hstage
    apply iff_of_true _ (Or.inl hstage)
    exact ⟨by decide, by decide, by intro c hc; cases hc; rfl⟩
  · rename_i hstage
    exact (or_iff_right hstage).symm

end

section

variable {j : StripJob}

theorem StripJob.unflagged_command (mkp : Str) : Unflagged (j.command mkp).1 := by
  unfold StripJob.command
  split <;> (intro c hc; cases hc; rfl)

theorem stripExact_iff (hline : ∀ mkp ∈ j.stripList, OneLine (j.words mkp)) :
    StripExact j ↔ ∀ mkp ∈ j.stripList, NoDollar (j.words mkp) := by
  unfold StripExact stripAttach
  simp only [List.map_map, List.map_inj_left, List.mem_mergeSort, Function.comp_apply]
  constructor
  · intro h mkp hmkp
    exact (Make.recipeWords_join_iff (StripJob.unflagged_command mkp) (hline mkp hmkp)).mp
      fun mk => h mk mkp hmkp
  · intro h mk mkp hmkp
    exact (Make.recipeWords_join_iff (StripJob.unflagged_command mkp) (hline mkp hmkp)).mpr
      (h mkp hmkp) mk

end

/-- The recipe lines of a package and of the files to strip run exactly the commands they
are for, if and only if the program needs no quotes and no word has a dollar sign in it. -/
theorem recipesExact_iff (j : MkpkgJob) (s : StripJob) (words : List Str)
    (hwords : j.words = .ok words) (hline : OneLine words)
    (hstrip : ∀ mkp ∈ s.stripList, OneLine (s.words mkp)) :
    (MkpkgExact j ∧ StripExact s) ↔
      (j.pkg.stage > 0 ∨ Bare j.apk) ∧ NoDollar words ∧
        ∀ mkp ∈ s.stripList, NoDollar (s.words mkp) := by
  rw [mkpkgExact_iff hwords hline, stripExact_iff hstrip, bare_program_iff, and_assoc]

/-- A package with the given description, in a container, and nothing to strip. -/
def described (desc : String) : MkpkgJob where
  pkg :=
    { pkgname := "a".toList, pkgver := "1".toList, pkgrel := 0, pkgdesc := desc.toList,
      subdesc := [], license := "MIT".toList, origin := "a".toList, alternative := [],
      maintainer := "it's me".toList, url := [], sourceDateEpoch := 0, gitRevision := [],
      gitDirty := false, stage := 3, providerPriority := 0, replacesPriority := 0, triggers := [],
      scripts := [], chrootStatedir := "/s".toList, chrootDestdir := "/d".toList,
      compression := [], signkey := none }
  arch := "x86_64".toList
  new := ⟨[], [], [], []⟩
  adesc := []
  dcomp := "deflate".toList
  apk := "apk".toList
  cbpath := "/stagepkgs/a.apk".toList

def oneFile : StripJob where
  stage := 3
  doSplit := true
  noSplit := []
  stripList := ["usr/bin/a".toList]
  chrootDestdir := "/d".toList
  stripTool := []

def describedWords (desc : String) : List Str :=
  ["apk", "mkpkg", "--files", "/d", "--output", "/stagepkgs/a.apk", "--info", "name:a", "--info",
    "version:1-r0", "--info", "description:" ++ desc, "--info", "arch:x86_64", "--info",
    "license:MIT", "--info", "origin:a", "--info", "maintainer:it's me", "--info", "url:", "--info",
    "build-time:0", "--compression", "deflate"].map String.toList

theorem recipesExact_plain :
    MkpkgExact (described "plain (and simple)") ∧ StripExact oneFile := by
  have hwords : (described "plain (and simple)").words =
      .ok (describedWords "plain (and simple)") := by decide +kernel
  apply (recipesExact_iff _ oneFile _ hwords (by unfold OneLine; decide +kernel)
    (by unfold OneLine; decide +kernel)).mpr
  exact ⟨Or.inl (by decide), by unfold NoDollar; decide +kernel, by unfold NoDollar; decide +kernel⟩

/-- `make` reads the price in the description as a reference. -/
theorem dollarDescription_not_exact :
    ¬ ∀ (j : MkpkgJob) (s : StripJob) (words : List Str), j.words = .ok words → OneLine words →
      (∀ mkp ∈ s.stripList, OneLine (s.words mkp)) → MkpkgExact j ∧ StripExact s := by
  intro h
  have hwords : (described "costs $5").words = .ok (describedWords "costs $5") := by
    decide +kernel
  have hexact := (h (described "costs $5") oneFile _ hwords (by unfold OneLine; decide +kernel)
    (by unfold OneLine; decide +kernel)).1
  obtain ⟨rest, hrest, hgen⟩ := MkpkgJob.words_ok hwords
  have hrun := hexact _ _ hwords hgen Make.nothingDefined
  have hne : Make.nothingDefined.recipeWords
      (shellJoin (('@' :: "apk".toList) :: (describedWords "costs $5").tail)) ≠
      some (describedWords "costs $5") := by decide +kernel
  apply hne
  rw [show (describedWords "costs $5").tail = "mkpkg".toList :: rest by rw [hrest]; rfl]
  exact hrun

end Cbuild.Apk
