import Cbuild.Lib.Entries
import Cbuild.Lib.Interrupt
import Cbuild.Repo.Summarize

/-! # Clearing the stage

`_do_clear` of `cbuild/core/stage.py` moves the packages of the staged repositories to the regular
ones: a repository that has no counterpart as a whole, another one file by file. It may be ended
between any two calls, by an error or from outside, and no package is lost by that.
-/

namespace Cbuild.Stage

open Lib Fs

/-- A file, as far as it is looked at. -/
structure Blob where
  mtime : Nat
  data : List UInt8
  deriving DecidableEq

abbrev Tree : Type := Fs Str Blob

inductive Stop
  /-- From outside, before a call. -/
  | killed
  | osError (e : Errno)
  | runtimeError

abbrev Clearing (α : Type) : Type := Proc Stop Tree α

def call (f : Tree → Except Errno Tree) : Clearing Unit := do
  match f (← Proc.look) with
  | .error e => throw (.osError e)
  | .ok fs => Proc.step .killed fun _ => fs

/-- `try: x except Exception: pass` -/
def attempt (x : Clearing Unit) : Clearing Unit :=
  tryCatch x fun e =>
    match e with
    | .killed => throw .killed
    | _ => pure ()

/-! ## The index of a repository -/

/-- The files of a directory; what is not a file there counts as the oldest. -/
def packages (fs : Tree) (d : List Str) : List (Repo.Package Nat) :=
  (fs.names d).map fun n =>
    match fs.node (d ++ [n]) with
    | some (.file f) => ⟨f.mtime, n⟩
    | _ => ⟨0, n⟩

def packagesAdb : Str := "Packages.adb".toList

def apkIndex : Str := "APKINDEX.tar.gz".toList

structure Paths where
  repository : List Str
  stageRepository : List Str
  /-- `apk mkndx` in a directory, for files in it. No value stands for a failure. -/
  mkndx : Tree → List Str → List Str → Option Blob

namespace Paths

variable (e : Paths)

/-- `build_index` -/
def buildIndex (d : List Str) : Clearing Bool := do
  let fs ← Proc.look
  match Repo.summarizeRepo (packages fs d) [] false with
  | none => throw .runtimeError
  | some (names, _) =>
      if names = [] then
        -- no packages, just drop the index
        call fun fs => fs.unlinkOk (path (d ++ [apkIndex]))
        call fun fs => fs.unlinkOk (path (d ++ [packagesAdb]))
        return true
      else
        match e.mkndx fs d names with
        | none => return false
        | some idx =>
            call fun fs => fs.replaceFile (path (d ++ [packagesAdb])) idx
            call fun fs => fs.unlinkOk (path (d ++ [apkIndex]))
            call fun fs => fs.hardlinkTo (path (d ++ [apkIndex])) (path (d ++ [packagesAdb]))
            return true

/-! ## The function -/

/-- The directory of a staged repository, and the one it is for. -/
def staged (rel : List Str) : List Str := e.stageRepository ++ rel

def regular (rel : List Str) : List Str := e.repository ++ rel

/-- The names that `glob("*.apk")` gives. -/
def apkNames (fs : Tree) (d : List Str) : List Str :=
  match fs.iterdir (path d) with
  | .error _ => []
  | .ok names => names.filter Repo.isApk

/-- The loop, for one repository. -/
def clearRepo (rel : List Str) : Clearing Unit := do
  let d := e.staged rel
  let ad := e.regular rel
  attempt (call fun fs => fs.rmdir (path ad))
  let fs ← Proc.look
  if fs.isDir (path ad) = false then
    -- just migrate if possible, easier this way
    call fun fs => fs.mkdirs (path ad.dropLast)
    call fun fs => fs.rename (path d) (path ad)
  else
    -- else merge the directories
    call fun fs => fs.mkdirs (path ad)
    let fs ← Proc.look
    (apkNames fs d).forM fun n => call fun fs => fs.rename (path (d ++ [n])) (path (ad ++ [n]))
    -- clear the stage index, we won't need it
    call fun fs => fs.unlinkOk (path (d ++ [apkIndex]))
    call fun fs => fs.unlinkOk (path (d ++ [packagesAdb]))
    -- try removing the stage dir, but keep it if there is still stuff in it
    attempt do
      call fun fs => fs.rmdir (path d)
      call fun fs => fs.rmdir (path d.dropLast)
    let _ ← e.buildIndex ad

/-- `_do_clear`, with what `check_stage` has returned: the directories of the staged repositories,
below that of the stage. -/
def doClear (unstage : Option (List (List Str))) : Clearing Bool := do
  (unstage.getD []).forM e.clearRepo
  return unstage.isSome

end Paths

/-! ## What a call may change -/

/-- There is a directory or nothing. -/
def NoFile (o : Option (Node Str Blob)) : Prop := o = none ∨ o = some .dir

namespace Paths

variable {e : Paths} {rel rel' : List Str} {rels done : List (List Str)} {fs fs' fs₀ : Tree}
  {q : List Str} {o : Option (Node Str Blob)}

/-- What one call that is made for a repository may do. -/
structure Moves (e : Paths) (rel : List Str) (fs fs' : Tree) : Prop where
  closed : fs'.Closed
  outside : ∀ q, ¬ e.staged rel <+: q → ¬ e.regular rel <+: q → fs'.node q = fs.node q ∨
    NoFile (fs.node q) ∧ NoFile (fs'.node q) ∧ (fs'.node q = none ∨ q <+: e.regular rel)
  stage : ∀ q, e.staged rel <+: q → fs'.node q = fs.node q ∨ fs'.node q = none
  link : ∀ a t, fs'.node (e.regular rel) = some (.link a t) →
    fs.node (e.regular rel) = some (.link a t) ∨ fs.node (e.staged rel) = some (.link a t)
  /-- A package stays where it is, or goes to its place in the regular repository. -/
  package : ∀ n, Repo.isApk n = true →
    fs'.node (e.staged rel ++ [n]) = fs.node (e.staged rel ++ [n]) ∧
        fs'.node (e.regular rel ++ [n]) = fs.node (e.regular rel ++ [n]) ∨
      fs'.node (e.staged rel ++ [n]) = none ∧
        fs'.node (e.regular rel ++ [n]) = fs.node (e.staged rel ++ [n]) ∧
        (fs.node (e.staged rel ++ [n]) ≠ none ∨ fs.node (e.regular rel ++ [n]) = none)

/-- The directories of the repositories that are cleared lie apart. -/
structure Apart (e : Paths) (rels : List (List Str)) : Prop where
  stage : ¬ e.stageRepository <+: e.repository
  repository : ¬ e.repository <+: e.stageRepository
  repos : ∀ rel ∈ rels, ∀ rel' ∈ rels, rel <+: rel' → rel = rel'
  ne_nil : ∀ rel ∈ rels, rel ≠ []

theorem Apart.staged_regular (h : e.Apart rels) (rel rel' : List Str) :
    ¬ e.staged rel <+: e.regular rel' := by
  intro hpre
  have hstage := (List.prefix_append e.stageRepository rel).trans hpre
  rcases List.prefix_or_prefix_of_prefix hstage (List.prefix_append e.repository rel') with h' | h'
  · exact h.stage h'
  · exact h.repository h'

theorem Apart.regular_staged (h : e.Apart rels) (rel rel' : List Str) :
    ¬ e.regular rel <+: e.staged rel' := by
  intro hpre
  have hrepo := (List.prefix_append e.repository rel).trans hpre
  rcases List.prefix_or_prefix_of_prefix hrepo (List.prefix_append e.stageRepository rel') with
    h' | h'
  · exact h.repository h'
  · exact h.stage h'

/-- Nothing is below both directories. -/
theorem Apart.not_both (h : e.Apart rels) (hs : e.staged rel <+: q) : ¬ e.regular rel' <+: q := by
  intro hr
  rcases List.prefix_or_prefix_of_prefix hs hr with h' | h'
  · exact h.staged_regular rel rel' h'
  · exact h.regular_staged rel' rel h'

theorem prefix_append_left {a b c : List Str} : a ++ b <+: a ++ c ↔ b <+: c :=
  List.prefix_append_right_inj a

/-- A call that changes one entry, but not of a package. -/
theorem Moves.of_differs (hapart : e.Apart rels) (h : Differs fs fs' q o) (hclosed : fs'.Closed)
    (hq : e.regular rel <+: q ∧ (∀ a t, o ≠ some (.link a t)) ∨ e.staged rel <+: q ∧ o = none ∨
      NoFile (fs.node q) ∧ NoFile o ∧ (o = none ∨ q <+: e.regular rel))
    (hpkg : ∀ n, Repo.isApk n = true → q ≠ e.staged rel ++ [n] ∧ q ≠ e.regular rel ++ [n]) :
    Moves e rel fs fs' where
  closed := hclosed
  outside := by
    intro q' hs hr
    by_cases hself : q = q'
    · subst hself
      rcases hq with ⟨hpre, -⟩ | ⟨hpre, -⟩ | ⟨hold, hnew, hwhere⟩
      · exact absurd hpre hr
      · exact absurd hpre hs
      · rw [h.self]
        exact Or.inr ⟨hold, hnew, hwhere⟩
    · exact Or.inl (h.of_ne hself)
  stage := by
    intro q' hs
    by_cases hself : q = q'
    · subst hself
      rw [h.self]
      rcases hq with ⟨hpre, -⟩ | ⟨-, hnone⟩ | ⟨-, -, hnone | hpre⟩
      · exact absurd hpre (hapart.not_both hs)
      · exact Or.inr hnone
      · exact Or.inr hnone
      · exact absurd (hs.trans hpre) (hapart.staged_regular rel rel)
    · exact Or.inl (h.of_ne hself)
  link := by
    intro a t hlink
    by_cases hself : q = e.regular rel
    · subst hself
      rw [h.self] at hlink
      rcases hq with ⟨-, hno⟩ | ⟨hpre, -⟩ | ⟨-, hnew, -⟩
      · exact absurd hlink (hno a t)
      · exact absurd hpre (hapart.staged_regular rel rel)
      · rcases hnew with hnone | hdir
        · rw [hnone] at hlink
          nomatch hlink
        · rw [hdir] at hlink
          nomatch hlink
    · rw [h.of_ne hself] at hlink
      exact Or.inl hlink
  package := by
    intro n hn
    obtain ⟨hs, hr⟩ := hpkg n hn
    exact Or.inl ⟨h.of_ne hs, h.of_ne hr⟩

/-- A package is moved to its place. -/
theorem Moves.of_package (hapart : e.Apart rels) (hclosed : fs.Closed) {n : Str}
    (hdir : fs.node (e.regular rel) = some .dir)
    (hthere : (fs.node (e.staged rel ++ [n])).isSome = true) :
    Moves e rel fs (fs.moveTree (e.staged rel ++ [n]) (e.regular rel ++ [n])) := by
  have hst : ¬ e.staged rel ++ [n] <+: e.regular rel ++ [n] := fun h =>
    hapart.not_both ((List.prefix_append _ _).trans h) (List.prefix_append _ _)
  have hts : ¬ e.regular rel ++ [n] <+: e.staged rel ++ [n] := fun h =>
    hapart.not_both (List.prefix_append _ _) ((List.prefix_append _ _).trans h)
  refine ⟨closed_moveTree hclosed hst hts hdir, ?_, ?_, ?_, ?_⟩
  · intro q hs hr
    rw [node_moveTree hst hts, if_neg fun h => hr ((List.prefix_append _ _).trans h),
      if_neg fun h => hs ((List.prefix_append _ _).trans h)]
    exact Or.inl rfl
  · intro q hs
    rw [node_moveTree hst hts,
      if_neg fun h => hapart.not_both hs ((List.prefix_append _ _).trans h)]
    split
    · exact Or.inr rfl
    · exact Or.inl rfl
  · intro a t hlink
    rw [node_moveTree hst hts, if_neg fun h => by simpa using h.length_le,
      if_neg fun h => hapart.staged_regular rel rel ((List.prefix_append _ _).trans h)] at hlink
    exact Or.inl hlink
  · intro m _
    rw [node_moveTree hst hts, node_moveTree hst hts,
      if_neg fun h => hapart.not_both (List.prefix_append _ [m])
        ((List.prefix_append _ _).trans h)]
    by_cases hm : n = m
    · subst hm
      right
      rw [if_pos (List.prefix_refl _), if_pos (List.prefix_refl _), List.drop_length,
        List.append_nil]
      exact ⟨rfl, rfl, Or.inl (Option.isSome_iff_ne_none.mp hthere)⟩
    · left
      have hne : ∀ d : List Str, ¬ d ++ [n] <+: d ++ [m] := by
        intro d h
        have := prefix_append_left.mp h
        simp [hm] at this
      rw [if_neg (hne _), if_neg (hne _), if_neg fun h => hapart.not_both
        ((List.prefix_append _ _).trans h) (List.prefix_append _ [m])]
      exact ⟨rfl, rfl⟩

/-- A repository without a counterpart is moved as a whole. -/
theorem Moves.of_repository (hapart : e.Apart rels) (hclosed : fs.Closed) {d : List Str} {c : Str}
    (hrel : e.regular rel = d ++ [c]) (hdir : fs.node d = some .dir)
    (hno : fs.node (e.regular rel) ≠ some .dir) :
    Moves e rel fs (fs.moveTree (e.staged rel) (e.regular rel)) := by
  have hst := hapart.staged_regular rel rel
  have hts := hapart.regular_staged rel rel
  refine ⟨?_, ?_, ?_, ?_, ?_⟩
  · rw [hrel] at hst hts ⊢
    exact closed_moveTree hclosed hst hts hdir
  · intro q hs hr
    rw [node_moveTree hst hts, if_neg hr, if_neg hs]
    exact Or.inl rfl
  · intro q hs
    rw [node_moveTree hst hts, if_neg (hapart.not_both hs), if_pos hs]
    exact Or.inr rfl
  · intro a t hlink
    rw [node_moveTree hst hts, if_pos (List.prefix_refl _), List.drop_length, List.append_nil]
      at hlink
    exact Or.inr hlink
  · intro n _
    right
    rw [node_moveTree hst hts, node_moveTree hst hts,
      if_neg (hapart.not_both (List.prefix_append _ _)), if_pos (List.prefix_append _ _),
      if_pos (List.prefix_append _ _), List.drop_left]
    exact ⟨rfl, rfl, Or.inr (hclosed.none_below_of_not_dir hno n)⟩

/-! ## What is kept throughout -/

/-- The packages of the repository have all left the stage. -/
def Cleared (e : Paths) (fs : Tree) (rel : List Str) : Prop :=
  ∀ n, Repo.isApk n = true → fs.node (e.staged rel ++ [n]) = none

/-- No file is lost: a staged package is at its old or its new place, a regular one that no staged
one replaces is where it was, and so is every file outside the repositories at hand. -/
structure Conserved (e : Paths) (rels : List (List Str)) (fs₀ fs : Tree) : Prop where
  package : ∀ rel ∈ rels, ∀ n, Repo.isApk n = true → ∀ f,
    fs₀.node (e.staged rel ++ [n]) = some (.file f) →
      fs.node (e.staged rel ++ [n]) = some (.file f) ∨ fs.node (e.regular rel ++ [n]) = some (.file f)
  regular : ∀ rel ∈ rels, ∀ n, Repo.isApk n = true → ∀ f,
    fs₀.node (e.staged rel ++ [n]) = none → fs₀.node (e.regular rel ++ [n]) = some (.file f) →
      fs.node (e.regular rel ++ [n]) = some (.file f)
  others : ∀ q f, fs₀.node q = some (.file f) →
    (∀ rel ∈ rels, ¬ e.staged rel <+: q ∧ ¬ e.regular rel <+: q) → fs.node q = some (.file f)

/-- What every call keeps, with the repositories that are done. -/
structure Held (e : Paths) (rels : List (List Str)) (fs₀ : Tree) (done : List (List Str))
    (fs : Tree) : Prop where
  closed : fs.Closed
  noLink : ∀ rel ∈ rels, fs.NoLink (e.staged rel) ∧ fs.NoLink (e.regular rel)
  conserved : Conserved e rels fs₀ fs
  /-- Nothing is added to the stage. -/
  staged : ∀ rel ∈ rels, ∀ n, Repo.isApk n = true →
    fs.node (e.staged rel ++ [n]) = none ∨
      fs.node (e.staged rel ++ [n]) = fs₀.node (e.staged rel ++ [n])
  done : ∀ rel ∈ done, e.Cleared fs rel

theorem Held.start (hclosed : fs.Closed)
    (hlink : ∀ rel ∈ rels, fs.NoLink (e.staged rel) ∧ fs.NoLink (e.regular rel)) :
    Held e rels fs [] fs where
  closed := hclosed
  noLink := hlink
  conserved := ⟨fun _ _ _ _ _ h => Or.inl h, fun _ _ _ _ _ _ h => h, fun _ _ h _ => h⟩
  staged := fun _ _ _ _ => Or.inr rfl
  done := fun _ h => absurd h List.not_mem_nil

theorem NoFile.not_file (h : NoFile o) (f : Blob) : o ≠ some (.file f) := by
  rcases h with rfl | rfl <;> exact nofun

theorem NoFile.not_link (h : NoFile o) (a : Bool) (t : List (Comp Str)) : o ≠ some (.link a t) := by
  rcases h with rfl | rfl <;> exact nofun

/-- Nothing in the directory of a repository is below another one's. -/
theorem Apart.not_prefix (hapart : e.Apart rels) (hrel : rel ∈ rels) (hrel' : rel' ∈ rels)
    (hne : rel ≠ rel') (n : Str) : ¬ rel <+: rel' ++ [n] := by
  intro hpre
  rcases List.prefix_concat_iff.mp hpre with heq | hpre
  · exact hne (hapart.repos rel' hrel' rel hrel (heq ▸ List.prefix_append rel' [n])).symm
  · exact hne (hapart.repos rel hrel rel' hrel' hpre)

/-- A call leaves the entries of the other repositories. -/
theorem Moves.elsewhere (hapart : e.Apart rels) (h : Moves e rel fs fs') (hrel : rel ∈ rels)
    (hrel' : rel' ∈ rels) (hne : rel ≠ rel') (n : Str) :
    (fs'.node (e.staged rel' ++ [n]) = fs.node (e.staged rel' ++ [n]) ∨
      NoFile (fs.node (e.staged rel' ++ [n])) ∧ fs'.node (e.staged rel' ++ [n]) = none) ∧
    (fs'.node (e.regular rel' ++ [n]) = fs.node (e.regular rel' ++ [n]) ∨
      NoFile (fs.node (e.regular rel' ++ [n]))) := by
  have hnot := hapart.not_prefix hrel hrel' hne n
  constructor
  · have hss : ¬ e.staged rel <+: e.staged rel' ++ [n] := by
      unfold staged
      rwa [List.append_assoc, prefix_append_left]
    rcases h.outside _ hss (hapart.not_both (List.prefix_append _ [n])) with
      heq | ⟨hold, -, hnone | hpre⟩
    · exact Or.inl heq
    · exact Or.inr ⟨hold, hnone⟩
    · exact absurd ((List.prefix_append _ _).trans hpre) (hapart.staged_regular rel' rel)
  · have hrr : ¬ e.regular rel <+: e.regular rel' ++ [n] := by
      unfold regular
      rwa [List.append_assoc, prefix_append_left]
    have hsr : ¬ e.staged rel <+: e.regular rel' ++ [n] := fun hpre =>
      hapart.not_both hpre (List.prefix_append _ [n])
    rcases h.outside _ hsr hrr with heq | ⟨hold, -, -⟩
    · exact Or.inl heq
    · exact Or.inr hold

/-- Nothing is added to the stage. -/
theorem Moves.staged (hapart : e.Apart rels) (h : Moves e rel fs fs') (hrel : rel ∈ rels)
    (hrel' : rel' ∈ rels) (n : Str) :
    fs'.node (e.staged rel' ++ [n]) = fs.node (e.staged rel' ++ [n]) ∨
      fs'.node (e.staged rel' ++ [n]) = none := by
  by_cases hne : rel = rel'
  · subst hne
    exact h.stage _ (List.prefix_append _ _)
  · exact (h.elsewhere hapart hrel hrel' hne n).1.imp_right And.right

theorem Moves.conserved (hapart : e.Apart rels) (hrel : rel ∈ rels) (h : Moves e rel fs fs')
    (hheld : Held e rels fs₀ done fs) : Conserved e rels fs₀ fs' where
  package := by
    intro rel' hrel' n hn f hf
    by_cases hne : rel = rel'
    · subst hne
      rcases hheld.conserved.package rel hrel n hn f hf with hs | hr
      · rcases h.package n hn with ⟨hs', -⟩ | ⟨-, hr', -⟩
        · exact Or.inl (hs'.trans hs)
        · exact Or.inr (hr'.trans hs)
      · rcases h.package n hn with ⟨-, hr'⟩ | ⟨-, hr', hthere | hnone⟩
        · exact Or.inr (hr'.trans hr)
        · -- what is still staged is what was staged at first
          have hsame := (hheld.staged rel hrel n hn).resolve_left hthere
          exact Or.inr (hr'.trans (hsame.trans hf))
        · rw [hnone] at hr
          nomatch hr
    · obtain ⟨hs', hr'⟩ := h.elsewhere hapart hrel hrel' hne n
      rcases hheld.conserved.package rel' hrel' n hn f hf with hs | hr
      · rcases hs' with heq | ⟨hold, -⟩
        · exact Or.inl (heq.trans hs)
        · exact absurd hs (NoFile.not_file hold f)
      · rcases hr' with heq | hold
        · exact Or.inr (heq.trans hr)
        · exact absurd hr (NoFile.not_file hold f)
  regular := by
    intro rel' hrel' n hn f hf hf'
    have hkept := hheld.conserved.regular rel' hrel' n hn f hf hf'
    by_cases hne : rel = rel'
    · subst hne
      rcases h.package n hn with ⟨-, hr'⟩ | ⟨-, -, hthere | hnone⟩
      · exact hr'.trans hkept
      · have hsame := (hheld.staged rel hrel n hn).resolve_left hthere
        exact absurd (hsame.trans hf) hthere
      · rw [hnone] at hkept
        nomatch hkept
    · rcases (h.elsewhere hapart hrel hrel' hne n).2 with heq | hold
      · exact heq.trans hkept
      · exact absurd hkept (NoFile.not_file hold f)
  others := by
    intro q f hq hout
    obtain ⟨hs, hr⟩ := hout rel hrel
    rcases h.outside q hs hr with heq | ⟨hold, -, -⟩
    · rw [heq]
      exact hheld.conserved.others q f hq hout
    · exact absurd (hheld.conserved.others q f hq hout) (NoFile.not_file hold f)

/-- The directories are no links, whatever has been made or moved. -/
theorem Moves.noLink (hapart : e.Apart rels) (hrel : rel ∈ rels) (h : Moves e rel fs fs')
    (hheld : Held e rels fs₀ done fs) (hrel' : rel' ∈ rels) :
    fs'.NoLink (e.staged rel') ∧ fs'.NoLink (e.regular rel') := by
  obtain ⟨hself, hself'⟩ := hheld.noLink rel hrel
  obtain ⟨hs, hr⟩ := hheld.noLink rel' hrel'
  constructor
  · intro q hq a t hlink
    by_cases hin : e.staged rel <+: q
    · rcases h.stage q hin with heq | hnone
      · exact hs q hq a t (heq ▸ hlink)
      · rw [hnone] at hlink
        nomatch hlink
    · rcases h.outside q hin fun hpre => hapart.regular_staged rel rel' (hpre.trans hq) with
        heq | ⟨-, hnew, -⟩
      · exact hs q hq a t (heq ▸ hlink)
      · exact NoFile.not_link hnew a t hlink
  · intro q hq a t hlink
    by_cases hin : e.regular rel <+: q
    · -- a directory of another repository is not below this one
      have hrels : rel = rel' := by
        apply hapart.repos rel hrel rel' hrel'
        have hpre := hin.trans hq
        unfold regular at hpre
        exact prefix_append_left.mp hpre
      subst hrels
      obtain rfl : q = e.regular rel := hq.eq_of_length_le hin.length_le
      rcases h.link a t hlink with hold | hold
      · exact hr _ hq a t hold
      · exact hself _ (List.prefix_refl _) a t hold
    · rcases h.outside q (fun hpre => hapart.staged_regular rel rel' (hpre.trans hq)) hin with
        heq | ⟨-, hnew, -⟩
      · exact hr q hq a t (heq ▸ hlink)
      · exact NoFile.not_link hnew a t hlink

/-- Each call keeps what is kept. -/
theorem Moves.held (hapart : e.Apart rels) (hrel : rel ∈ rels) (hdone : ∀ r ∈ done, r ∈ rels)
    (h : Moves e rel fs fs') (hheld : Held e rels fs₀ done fs) : Held e rels fs₀ done fs' where
  closed := h.closed
  noLink := fun _ hrel' => h.noLink hapart hrel hheld hrel'
  conserved := h.conserved hapart hrel hheld
  staged := by
    intro rel' hrel' n hn
    rcases h.staged hapart hrel hrel' n with heq | hnone
    · rw [heq]
      exact hheld.staged rel' hrel' n hn
    · exact Or.inl hnone
  done := by
    intro rel' hrel' n hn
    rcases h.staged hapart hrel (hdone rel' hrel') n with heq | hnone
    · rw [heq]
      exact hheld.done rel' hrel' n hn
    · exact hnone

/-! ## The calls -/

theorem path_prefix {p : List (Comp Str)} {q : List Str} (h : p <+: path q) :
    ∃ q', q' <+: q ∧ p = path q' := by
  refine ⟨q.take p.length, List.take_prefix _ _, ?_⟩
  rw [List.prefix_iff_eq_take.mp h, path, path, List.map_take]
  simp

theorem isApk_apkIndex : Repo.isApk apkIndex = false := by decide

theorem isApk_packagesAdb : Repo.isApk packagesAdb = false := by decide

/-- An entry that is not a package's. -/
theorem not_package {d : List Str} {m : Str} (hm : Repo.isApk m = false) (n : Str)
    (hn : Repo.isApk n = true) : d ++ [m] ≠ d ++ [n] := by
  intro heq
  obtain ⟨-, rfl⟩ := List.append_singleton_inj.mp heq
  rw [hm] at hn
  nomatch hn

section

variable (hapart : e.Apart rels) (hrel : rel ∈ rels) (hheld : Held e rels fs₀ done fs)
include hapart hrel hheld

omit hrel in
/-- An entry of the regular repository, not a package, becomes another one. -/
theorem moves_regular {m : Str} (hm : Repo.isApk m = false)
    (hdir : fs.node (e.regular rel) = some .dir) (hold : fs.node (e.regular rel ++ [m]) ≠ some .dir)
    (h : Differs fs fs' (e.regular rel ++ [m]) o) (ho : ∀ a t, o ≠ some (.link a t)) :
    Moves e rel fs fs' := by
  apply Moves.of_differs hapart h
  · exact h.closed hheld.closed hdir (Or.inr (hheld.closed.none_below_of_not_dir hold))
  · exact Or.inl ⟨List.prefix_append _ _, ho⟩
  · intro n hn
    refine ⟨?_, not_package hm n hn⟩
    intro heq
    exact hapart.not_both (heq ▸ List.prefix_append (e.staged rel) [n]) (List.prefix_append _ [m])

theorem moves_unlink_regular {m : Str} (hm : Repo.isApk m = false)
    (h : fs.unlinkOk (path (e.regular rel ++ [m])) = .ok fs') : fs' = fs ∨ Moves e rel fs fs' := by
  refine (unlinkOk_differs (hheld.noLink rel hrel).2 h).imp_right ?_
  rintro ⟨hdir, hold, hdiff⟩
  exact moves_regular hapart hheld hm hdir hold hdiff fun _ _ => nofun

theorem moves_unlink_staged {m : Str} (hm : Repo.isApk m = false)
    (h : fs.unlinkOk (path (e.staged rel ++ [m])) = .ok fs') : fs' = fs ∨ Moves e rel fs fs' := by
  refine (unlinkOk_differs (hheld.noLink rel hrel).1 h).imp_right ?_
  rintro ⟨hdir, hold, hdiff⟩
  apply Moves.of_differs hapart hdiff
  · exact hdiff.closed hheld.closed hdir (Or.inr (hheld.closed.none_below_of_not_dir hold))
  · exact Or.inr (Or.inl ⟨List.prefix_append _ _, rfl⟩)
  · intro n hn
    refine ⟨not_package hm n hn, ?_⟩
    intro heq
    exact hapart.not_both (List.prefix_append _ [m]) (heq ▸ List.prefix_append (e.regular rel) [n])

theorem moves_rmdir_regular (h : fs.rmdir (path (e.regular rel)) = .ok fs') :
    Moves e rel fs fs' := by
  obtain ⟨r, c, rfl⟩ := (List.eq_nil_or_concat' rel).resolve_left (hapart.ne_nil rel hrel)
  have hq : e.regular (r ++ [c]) = e.regular r ++ [c] := (List.append_assoc _ _ _).symm
  have hlink := (hheld.noLink _ hrel).2
  rw [hq] at h hlink
  obtain ⟨hdir, -, hempty, hdiff⟩ := rmdir_differs (hlink.above (List.prefix_append _ _)) h
  apply Moves.of_differs hapart hdiff (hdiff.closed hheld.closed hdir (Or.inr hempty))
  · exact Or.inl ⟨by rw [hq], fun _ _ => nofun⟩
  · intro n _
    rw [← hq]
    constructor
    · intro heq
      exact hapart.staged_regular _ _ (heq ▸ List.prefix_append (e.staged (r ++ [c])) [n])
    · intro heq
      simpa using congrArg List.length heq

/-- A directory on the way to the stage, or its own, is removed if it is empty. -/
theorem moves_rmdir_staged {q : List Str} (hq : q <+: e.staged rel) (hne : q ≠ [])
    (h : fs.rmdir (path q) = .ok fs') : Moves e rel fs fs' := by
  obtain ⟨r, c, rfl⟩ := (List.eq_nil_or_concat' q).resolve_left hne
  have hlink := (hheld.noLink _ hrel).1.above hq
  obtain ⟨hdir, hold, hempty, hdiff⟩ := rmdir_differs (hlink.above (List.prefix_append _ _)) h
  apply Moves.of_differs hapart hdiff (hdiff.closed hheld.closed hdir (Or.inr hempty))
  · exact Or.inr (Or.inr ⟨Or.inr hold, Or.inl rfl, Or.inl rfl⟩)
  · intro n _
    constructor
    · intro heq
      have := hq.length_le
      rw [heq] at this
      simp at this
    · intro heq
      exact hapart.regular_staged rel rel
        ((heq ▸ List.prefix_append (e.regular rel) [n]).trans hq)

theorem moves_mkdir {q : List Str} (hq : q <+: e.regular rel)
    (h : fs.mkdir (path q) = .ok fs') : Moves e rel fs fs' ∧ Differs fs fs' q (some .dir) := by
  obtain ⟨d, n, rfl, hdir, hnone, hdiff⟩ :=
    mkdir_differs ((hheld.noLink _ hrel).2.above hq) h
  refine ⟨?_, hdiff⟩
  apply Moves.of_differs hapart hdiff (hdiff.closed hheld.closed hdir (Or.inl rfl))
  · exact Or.inr (Or.inr ⟨Or.inl hnone, Or.inr rfl, Or.inr hq⟩)
  · intro m _
    constructor
    · intro heq
      exact hapart.staged_regular rel rel
        ((heq ▸ List.prefix_append (e.staged rel) [m]).trans hq)
    · intro heq
      have := hq.length_le
      rw [heq] at this
      simp at this

theorem moves_rename_package {n : Str}
    (h : fs.rename (path (e.staged rel ++ [n])) (path (e.regular rel ++ [n])) = .ok fs') :
    Moves e rel fs fs' ∧ fs'.node (e.staged rel ++ [n]) = none := by
  have hne : e.staged rel ++ [n] ≠ e.regular rel ++ [n] := fun heq =>
    hapart.not_both (List.prefix_append _ [n]) (heq ▸ List.prefix_append (e.regular rel) [n])
  obtain ⟨hdir, hthere, hst, -, rfl⟩ :=
    rename_names (hheld.noLink rel hrel).1 (hheld.noLink rel hrel).2 h hne
  refine ⟨Moves.of_package hapart hheld.closed hdir hthere, ?_⟩
  have hts : ¬ e.regular rel ++ [n] <+: e.staged rel ++ [n] := fun h =>
    hapart.not_both (List.prefix_append _ _) ((List.prefix_append _ _).trans h)
  rw [node_moveTree hst hts, if_neg hts, if_pos (List.prefix_refl _)]

/-- The repository is migrated, if nothing of its name is a directory. -/
theorem moves_rename_repository (hno : fs.node (e.regular rel) ≠ some .dir)
    (h : fs.rename (path (e.staged rel)) (path (e.regular rel)) = .ok fs') :
    Moves e rel fs fs' ∧ e.Cleared fs' rel := by
  have hst := hapart.staged_regular rel rel
  have hts := hapart.regular_staged rel rel
  obtain ⟨r, c, rfl⟩ := (List.eq_nil_or_concat' rel).resolve_left (hapart.ne_nil rel hrel)
  have hs : e.staged (r ++ [c]) = e.staged r ++ [c] := (List.append_assoc _ _ _).symm
  have hq : e.regular (r ++ [c]) = e.regular r ++ [c] := (List.append_assoc _ _ _).symm
  obtain ⟨hlink, hlink'⟩ := hheld.noLink _ hrel
  rw [hs, hq] at h
  rw [hs] at hlink
  rw [hq] at hlink'
  obtain ⟨hdir, -, -, -, hfs'⟩ := rename_names (hlink.above (List.prefix_append _ _))
    (hlink'.above (List.prefix_append _ _)) h (by
      rw [← hs, ← hq]
      exact fun heq => hst (heq ▸ List.prefix_refl _))
  rw [← hs, ← hq] at hfs'
  subst hfs'
  refine ⟨Moves.of_repository hapart hheld.closed hq hdir hno, ?_⟩
  intro n _
  rw [node_moveTree hst hts, if_neg (hapart.not_both (List.prefix_append _ _)),
    if_pos (List.prefix_append _ _)]

end

/-! ## The program -/

theorem ends_call {f : Tree → Except Errno Tree} {Q : Unit → Tree → Prop} {E : Stop → Tree → Prop}
    (hE : ∀ stop, E stop fs) (hQ : ∀ fs', f fs = .ok fs' → Q () fs') :
    Proc.Ends (call f) fs Q E := by
  unfold call
  apply Proc.ends_look_bind
  cases hf : f fs with
  | error errno => exact Proc.ends_throw (hE _)
  | ok fs' => exact Proc.ends_step (hE _) (hQ fs' hf)

/-- An error is passed over, with what has been done before it. -/
theorem ends_attempt {x : Clearing Unit} {I : Tree → Prop}
    (h : Proc.Ends x fs (fun _ => I) (fun _ => I)) :
    Proc.Ends (attempt x) fs (fun _ => I) (fun _ => I) := by
  intro n
  unfold attempt
  rw [wp_tryCatch]
  apply wp_mono (h n)
  · exact fun _ _ hm => hm
  · intro stop m hm
    cases stop <;> exact hm

section

variable (hapart : e.Apart rels) (hrel : rel ∈ rels) (hdone : ∀ r ∈ done, r ∈ rels)
  (hheld : Held e rels fs₀ done fs)
include hapart hrel hdone hheld

/-- A call that does no more than it may. -/
theorem ends_moves {f : Tree → Except Errno Tree}
    (hf : ∀ fs', f fs = .ok fs' → fs' = fs ∨ Moves e rel fs fs') :
    Proc.Ends (call f) fs (fun _ => Held e rels fs₀ done) (fun _ => Held e rels fs₀ done) := by
  apply ends_call fun _ => hheld
  intro fs' hok
  rcases hf fs' hok with rfl | hmoves
  · exact hheld
  · exact hmoves.held hapart hrel hdone hheld

/-- Directories are made on the way to the regular repository, or its own is. -/
theorem ends_mkdirs {q : List Str} (hq : q <+: e.regular rel) :
    Proc.Ends (call fun fs => fs.mkdirs (path q)) fs
      (fun _ s => Held e rels fs₀ done s ∧ (q ≠ e.regular rel →
        s.node (e.regular rel) = fs.node (e.regular rel)))
      (fun _ => Held e rels fs₀ done) := by
  apply ends_call fun _ => hheld
  intro fs' hok
  refine (mkdirs_spec (I := fun s => Held e rels fs₀ done s ∧ (q ≠ e.regular rel →
    s.node (e.regular rel) = fs.node (e.regular rel))) ⟨hheld, fun _ => rfl⟩ ?_ hok).1
  intro s s' p hp hs hmk
  obtain ⟨q', hq', rfl⟩ := path_prefix hp
  obtain ⟨hmoves, hdiff⟩ := moves_mkdir hapart hrel hs.1 (hq'.trans hq) hmk
  refine ⟨hmoves.held hapart hrel hdone hs.1, ?_⟩
  intro hne
  rw [hdiff.of_ne, hs.2 hne]
  rintro rfl
  exact hne (hq.eq_of_length_le hq'.length_le)

theorem ends_buildIndex : Proc.Ends (e.buildIndex (e.regular rel)) fs
    (fun _ => Held e rels fs₀ done) (fun _ => Held e rels fs₀ done) := by
  unfold buildIndex
  apply Proc.ends_look_bind
  split
  · exact Proc.ends_throw hheld
  · apply Proc.ends_ite
    · intro _
      apply Proc.Ends.bind
      apply (ends_moves hapart hrel hdone hheld fun _ =>
        moves_unlink_regular hapart hrel hheld isApk_apkIndex).mono _ fun _ _ h => h
      intro _ s hs
      apply Proc.Ends.bind
      apply (ends_moves hapart hrel hdone hs fun _ =>
        moves_unlink_regular hapart hrel hs isApk_packagesAdb).mono _ fun _ _ h => h
      exact fun _ _ hs => Proc.ends_pure hs
    · intro _
      split
      · exact Proc.ends_pure hheld
      · apply Proc.Ends.bind
        have hwrite : ∀ idx fs', fs.replaceFile (path (e.regular rel ++ [packagesAdb])) idx =
            .ok fs' → fs' = fs ∨ Moves e rel fs fs' := by
          intro idx fs' hok
          obtain ⟨hdir, hold, hdiff⟩ := replaceFile_differs (hheld.noLink rel hrel).2 hok
          exact Or.inr (moves_regular hapart hheld isApk_packagesAdb hdir hold hdiff
            fun _ _ => nofun)
        apply (ends_moves hapart hrel hdone hheld (hwrite _)).mono _ fun _ _ h => h
        intro _ s hs
        apply Proc.Ends.bind
        apply (ends_moves hapart hrel hdone hs fun _ =>
          moves_unlink_regular hapart hrel hs isApk_apkIndex).mono _ fun _ _ h => h
        intro _ s hs
        apply Proc.Ends.bind
        have hlink : ∀ fs', s.hardlinkTo (path (e.regular rel ++ [apkIndex]))
            (path (e.regular rel ++ [packagesAdb])) = .ok fs' → fs' = s ∨ Moves e rel s fs' := by
          intro fs' hok
          obtain ⟨hdir, hnone, _, hdiff⟩ := hardlinkTo_differs (hs.noLink rel hrel).2 hok
          refine Or.inr (moves_regular hapart hs isApk_apkIndex hdir ?_ hdiff fun _ _ => nofun)
          rw [hnone]
          exact nofun
        apply (ends_moves hapart hrel hdone hs hlink).mono _ fun _ _ h => h
        exact fun _ _ hs => Proc.ends_pure hs

/-- What follows the merging of the packages. -/
theorem ends_cleanup : Proc.Ends (do
      call fun fs => fs.unlinkOk (path (e.staged rel ++ [apkIndex]))
      call fun fs => fs.unlinkOk (path (e.staged rel ++ [packagesAdb]))
      attempt do
        call fun fs => fs.rmdir (path (e.staged rel))
        call fun fs => fs.rmdir (path (e.staged rel).dropLast)
      let _ ← e.buildIndex (e.regular rel)) fs
    (fun _ => Held e rels fs₀ done) (fun _ => Held e rels fs₀ done) := by
  have hparent : (e.staged rel).dropLast ≠ [] := by
    obtain ⟨r, c, rfl⟩ := (List.eq_nil_or_concat' rel).resolve_left (hapart.ne_nil rel hrel)
    intro hnil
    rw [staged, ← List.append_assoc, List.dropLast_concat] at hnil
    exact hapart.stage ((List.append_eq_nil_iff.mp hnil).1 ▸ List.nil_prefix)
  have hself : e.staged rel ≠ [] := fun hnil => hparent (by rw [hnil]; rfl)
  apply Proc.Ends.bind
  apply (ends_moves hapart hrel hdone hheld fun _ =>
    moves_unlink_staged hapart hrel hheld isApk_apkIndex).mono _ fun _ _ h => h
  intro _ s hs
  apply Proc.Ends.bind
  apply (ends_moves hapart hrel hdone hs fun _ =>
    moves_unlink_staged hapart hrel hs isApk_packagesAdb).mono _ fun _ _ h => h
  intro _ s hs
  apply Proc.Ends.bind
  have hrmdirs : Proc.Ends (do
      call fun fs => fs.rmdir (path (e.staged rel))
      call fun fs => fs.rmdir (path (e.staged rel).dropLast)) s
      (fun _ => Held e rels fs₀ done) (fun _ => Held e rels fs₀ done) := by
    apply Proc.Ends.bind
    apply (ends_moves hapart hrel hdone hs fun _ h =>
      Or.inr (moves_rmdir_staged hapart hrel hs (List.prefix_refl _) hself h)).mono _ fun _ _ h => h
    intro _ s hs
    exact ends_moves hapart hrel hdone hs fun _ h =>
      Or.inr (moves_rmdir_staged hapart hrel hs (List.dropLast_prefix _) hparent h)
  apply (ends_attempt hrmdirs).mono _ fun _ _ h => h
  intro _ s hs
  apply Proc.Ends.bind
  apply (ends_buildIndex hapart hrel hdone hs).mono _ fun _ _ h => h
  exact fun _ _ hs => Proc.ends_pure hs

end

/-- Only packages of these names are on the stage. -/
def Left (e : Paths) (rel names : List Str) (fs : Tree) : Prop :=
  ∀ n, Repo.isApk n = true → n ∉ names → fs.node (e.staged rel ++ [n]) = none

theorem left_apkNames (hclosed : fs.Closed) : e.Left rel (apkNames fs (e.staged rel)) fs := by
  intro n hn hnot
  by_contra hne
  have hsome := Option.isSome_iff_ne_none.mpr hne
  have hdir := hclosed _ _ hsome
  apply hnot
  unfold apkNames iterdir
  have hstat : fs.stat (path (e.staged rel)) = .ok (e.staged rel) := (hclosed.dirsTo hdir).stat_self
  rw [hstat]
  dsimp only
  rw [if_pos (dirAt_iff.mpr hdir)]
  exact List.mem_filter.mpr ⟨mem_names.mpr hsome, hn⟩

/-- The merging of the packages, one by one. -/
theorem ends_merge (hapart : e.Apart rels) (hrel : rel ∈ rels) (hdone : ∀ r ∈ done, r ∈ rels)
    {names : List Str} (hheld : Held e rels fs₀ done fs) (hleft : e.Left rel names fs) :
    Proc.Ends (names.forM fun n => call fun fs =>
        fs.rename (path (e.staged rel ++ [n])) (path (e.regular rel ++ [n]))) fs
      (fun _ s => Held e rels fs₀ done s ∧ e.Cleared s rel) (fun _ => Held e rels fs₀ done) := by
  induction names generalizing fs with
  | nil => exact Proc.ends_pure ⟨hheld, fun n hn => hleft n hn List.not_mem_nil⟩
  | cons n names ih =>
      show Proc.Ends (call _ >>= fun _ => names.forM _) fs _ _
      apply Proc.Ends.bind
      apply ends_call fun _ => hheld
      intro fs' hok
      obtain ⟨hmoves, hgone⟩ := moves_rename_package hapart hrel hheld hok
      apply ih (hmoves.held hapart hrel hdone hheld)
      intro m hm hnot
      by_cases heq : m = n
      · rw [heq]
        exact hgone
      · rcases hmoves.stage (e.staged rel ++ [m]) (List.prefix_append _ _) with hsame | hnone
        · rw [hsame]
          exact hleft m hm (List.not_mem_cons_of_ne_of_not_mem heq hnot)
        · exact hnone

theorem Held.cons (hheld : Held e rels fs₀ done fs) (hcleared : e.Cleared fs rel) :
    Held e rels fs₀ (rel :: done) fs :=
  { hheld with done := List.forall_mem_cons.mpr ⟨hcleared, hheld.done⟩ }

theorem Held.of_cons (hheld : Held e rels fs₀ (rel :: done) fs) : Held e rels fs₀ done fs :=
  { hheld with done := (List.forall_mem_cons.mp hheld.done).2 }

/-- One repository. -/
theorem ends_clearRepo (hapart : e.Apart rels) (hrel : rel ∈ rels) (hdone : ∀ r ∈ done, r ∈ rels)
    (hheld : Held e rels fs₀ done fs) : Proc.Ends (e.clearRepo rel) fs
      (fun _ => Held e rels fs₀ (rel :: done)) (fun _ => Held e rels fs₀ done) := by
  have hdone' : ∀ r ∈ rel :: done, r ∈ rels := List.forall_mem_cons.mpr ⟨hrel, hdone⟩
  unfold clearRepo
  dsimp only
  apply Proc.Ends.bind
  apply (ends_attempt (ends_moves hapart hrel hdone hheld fun _ h =>
    Or.inr (moves_rmdir_regular hapart hrel hheld h))).mono _ fun _ _ h => h
  intro _ s hs
  apply Proc.ends_look_bind
  apply Proc.ends_ite
  · -- just migrate
    intro hno
    have hnode : s.node (e.regular rel) ≠ some .dir := by
      intro hdir
      rw [path, (hs.closed.dirsTo hdir).isDir] at hno
      cases hno
    have hparent : (e.regular rel).dropLast <+: e.regular rel := List.dropLast_prefix _
    have hne : (e.regular rel).dropLast ≠ e.regular rel := by
      intro heq
      have hlen := congrArg List.length heq
      have hpos := List.length_pos_iff.mpr (hapart.ne_nil rel hrel)
      simp only [regular, List.length_dropLast, List.length_append] at hlen
      omega
    apply Proc.Ends.bind
    apply (ends_mkdirs hapart hrel hdone hs hparent).mono _ fun _ _ h => h
    intro _ s' hs'
    apply ends_call fun _ => hs'.1
    intro fs' hok
    obtain ⟨hmoves, hcleared⟩ :=
      moves_rename_repository hapart hrel hs'.1 (by rw [hs'.2 hne]; exact hnode) hok
    exact (hmoves.held hapart hrel hdone hs'.1).cons hcleared
  · -- merge the directories
    intro _
    apply Proc.Ends.bind
    apply (ends_mkdirs hapart hrel hdone hs (List.prefix_refl _)).mono _ fun _ _ h => h
    rintro _ s ⟨hs, -⟩
    apply Proc.ends_look_bind
    apply Proc.Ends.bind
    apply (ends_merge hapart hrel hdone hs (left_apkNames hs.closed)).mono _ fun _ _ h => h
    rintro _ s ⟨hs, hcleared⟩
    exact (ends_cleanup hapart hrel hdone' (hs.cons hcleared)).mono (fun _ _ h => h)
      fun _ _ h => h.of_cons

/-- The loop over the repositories. -/
theorem ends_repos (hapart : e.Apart rels) {l : List (List Str)} (hl : ∀ r ∈ l, r ∈ rels)
    (hdone : ∀ r ∈ done, r ∈ rels) (hheld : Held e rels fs₀ done fs) :
    Proc.Ends (l.forM e.clearRepo) fs
      (fun _ s => ∃ done', (∀ r, r ∈ l ∨ r ∈ done → r ∈ done') ∧ Held e rels fs₀ done' s)
      (fun _ => Conserved e rels fs₀) := by
  induction l generalizing done fs with
  | nil => exact Proc.ends_pure ⟨done, fun r hr => hr.resolve_left List.not_mem_nil, hheld⟩
  | cons rel l ih =>
      rw [List.forall_mem_cons] at hl
      show Proc.Ends (e.clearRepo rel >>= fun _ => l.forM e.clearRepo) fs _ _
      apply Proc.Ends.bind
      apply (ends_clearRepo hapart hl.1 hdone hheld).mono _ fun _ _ h => h.conserved
      intro _ s hs
      apply (ih hl.2 (List.forall_mem_cons.mpr ⟨hl.1, hdone⟩) hs).mono _ fun _ _ h => h
      rintro _ s' ⟨done', hmem, hs'⟩
      refine ⟨done', ?_, hs'⟩
      intro r hr
      apply hmem
      rw [List.mem_cons] at hr ⊢
      tauto

/-- Wherever the clearing is ended, no package is lost. When it returns, the staged packages have
taken their places in the regular repositories. -/
theorem doClear_ends (hapart : e.Apart rels) (hclosed : fs₀.Closed)
    (hlink : ∀ rel ∈ rels, fs₀.NoLink (e.staged rel) ∧ fs₀.NoLink (e.regular rel)) :
    Proc.Ends (e.doClear (some rels)) fs₀
      (fun _ fs => Conserved e rels fs₀ fs ∧ ∀ rel ∈ rels, ∀ n, Repo.isApk n = true →
        fs.node (e.staged rel ++ [n]) = none ∧
        ∀ f, fs₀.node (e.staged rel ++ [n]) = some (.file f) →
          fs.node (e.regular rel ++ [n]) = some (.file f))
      (fun _ fs => Conserved e rels fs₀ fs) := by
  unfold doClear
  apply Proc.Ends.bind
  apply (ends_repos hapart (fun _ h => h) (fun _ h => absurd h List.not_mem_nil)
    (Held.start hclosed hlink)).mono _ fun _ _ h => h
  rintro _ fs ⟨done, hmem, hheld⟩
  apply Proc.ends_pure
  refine ⟨hheld.conserved, ?_⟩
  intro rel hrel n hn
  have hgone := hheld.done rel (hmem rel (Or.inl hrel)) n hn
  refine ⟨hgone, ?_⟩
  intro f hf
  refine (hheld.conserved.package rel hrel n hn f hf).resolve_left ?_
  rw [hgone]
  exact nofun

/-- A staged repository with a counterpart, and one without. -/
def mainAndUser : List (List Str) :=
  [["main".toList, "x86_64".toList], ["user".toList, "x86_64".toList]]

def packagesPaths : Paths where
  repository := ["packages".toList]
  stageRepository := ["pkgstage".toList]
  mkndx := fun _ _ _ => some ⟨0, []⟩

def stagedTree : Tree :=
  [(["packages".toList], .dir), (["packages".toList, "main".toList], .dir),
    (["packages".toList, "main".toList, "x86_64".toList], .dir),
    (["packages".toList, "main".toList, "x86_64".toList, "bar-1-r0.apk".toList], .file ⟨1, [1]⟩),
    (["pkgstage".toList], .dir), (["pkgstage".toList, "main".toList], .dir),
    (["pkgstage".toList, "main".toList, "x86_64".toList], .dir),
    (["pkgstage".toList, "main".toList, "x86_64".toList, "foo-2-r0.apk".toList], .file ⟨2, [2]⟩),
    (["pkgstage".toList, "main".toList, "x86_64".toList, packagesAdb], .file ⟨2, []⟩),
    (["pkgstage".toList, "user".toList], .dir),
    (["pkgstage".toList, "user".toList, "x86_64".toList], .dir),
    (["pkgstage".toList, "user".toList, "x86_64".toList, "baz-1-r0.apk".toList], .file ⟨2, [3]⟩)]

theorem stagedTree_cleared : Proc.Ends (packagesPaths.doClear (some mainAndUser)) stagedTree
    (fun _ fs => Conserved packagesPaths mainAndUser stagedTree fs ∧
      ∀ rel ∈ mainAndUser, ∀ n, Repo.isApk n = true →
        fs.node (packagesPaths.staged rel ++ [n]) = none ∧
        ∀ f, stagedTree.node (packagesPaths.staged rel ++ [n]) = some (.file f) →
          fs.node (packagesPaths.regular rel ++ [n]) = some (.file f))
    (fun _ fs => Conserved packagesPaths mainAndUser stagedTree fs) := by
  have hno : ∀ q, stagedTree.NoLink q := fun q => noLink_of_forall (by decide)
  apply doClear_ends
  · exact ⟨by decide, by decide, by decide, by decide⟩
  · exact closed_of_keys (by decide)
  · exact fun rel _ => ⟨hno _, hno _⟩

/-- A run that is not ended from outside returns. -/
example : ((packagesPaths.doClear (some mainAndUser)).run' ⟨stagedTree, 40⟩) = some true := by
  decide +kernel

end Paths

end Cbuild.Stage
