import Cbuild.Hooks.FileModes
import Cbuild.Lib.Fnmatch

/-! # Setuid and setgid files

`033_check_suid.py` lets a setuid or setgid file pass when some key of `file_modes` matches its
path. A key is a path for the hook that sets the modes, and a pattern here.
-/

namespace Cbuild.Suid

open Lib FileModes

/-- The files of a package, and what `lstat` says of them. -/
structure Tree where
  destdir : Destdir
  regular : Place → Bool
  mode : Place → Nat

inductive Exc
  | emptyPattern
  | forbidden (badbins : List Place)
  deriving DecidableEq

/-- `S_ISREG`, with `S_ISUID` or `S_ISGID`. -/
def Tree.isSuid (t : Tree) (v : Place) : Bool :=
  t.regular v && (t.mode v &&& 0o4000 ≠ 0 || t.mode v &&& 0o2000 ≠ 0)

/-- What `rglob("*")` gives, as far as it is looked at. -/
def Tree.suids (t : Tree) : List Place := t.destdir.places.filter fun v => v ≠ [] && t.isSuid v

/-- `vr.match(f)`, of a relative path; an empty pattern raises. -/
def matchKey (vr : Place) (f : Str) : Option Bool :=
  if f.head? = some '/' then some false
  else if parts f = [] then none
  else some (pathMatch vr (parts f))

def foundSuid (vr : Place) : List Entry → Option Bool
  | [] => some false
  | e :: es =>
      match matchKey vr e.key with
      | none => none
      | some true => some true
      | some false => foundSuid vr es

def badbins (fileModes : List Entry) : List Place → Option (List Place)
  | [] => some []
  | v :: vs =>
      match foundSuid v fileModes with
      | none => none
      | some found => (badbins fileModes vs).map fun bad => if found then bad else v :: bad

/-- `invoke` -/
def invoke (t : Tree) (fileModes : List Entry) : Except Exc Unit :=
  match badbins fileModes t.suids with
  | none => .error .emptyPattern
  | some [] => .ok ()
  | some bad => .error (.forbidden bad)

/-! ## Declared files -/

/-- Some item is for the path itself, and sets its mode. -/
def Declared (fileModes : List Entry) (v : Place) : Prop :=
  ∃ e ∈ fileModes, e.isdir = false ∧ parts e.key = v

/-- Only declared files pass. -/
structure Reviewed (t : Tree) (fileModes : List Entry) : Prop where
  all : invoke t fileModes = .ok () → ∀ v ∈ t.suids, Declared fileModes v
  each : ∀ v ∈ t.suids, foundSuid v fileModes = some true → Declared fileModes v

/-- When it does so: no other file has a path whose end is matched, name by name, by a key, unless
a key for the package itself comes first, which is no pattern. -/
def Apart (t : Tree) (fileModes : List Entry) : Prop :=
  ∀ pre e post, fileModes = pre ++ e :: post → (∀ e' ∈ e :: pre, parts e'.key ≠ [] ∨
      e'.key.head? = some '/') → e.key.head? ≠ some '/' →
    ∀ above below, above ++ below ∈ t.suids →
      List.Forall₂ (fun n p => fnmatchcase n p = true) below (parts e.key) →
      Declared fileModes (above ++ below)

variable {t : Tree} {fileModes : List Entry} {v : Place} {f : Str}

theorem matchKey_eq_none_iff :
    matchKey v f = none ↔ ¬(parts f ≠ [] ∨ f.head? = some '/') := by
  unfold matchKey
  rw [not_or, not_not]
  by_cases habs : f.head? = some '/'
  · simp [habs]
  · by_cases hempty : parts f = []
    · simp [habs, hempty]
    · simp [habs, hempty]

theorem matchKey_eq_true_iff : matchKey v f = some true ↔
    f.head? ≠ some '/' ∧ parts f ≠ [] ∧ pathMatch v (parts f) = true := by
  unfold matchKey
  by_cases habs : f.head? = some '/'
  · simp [habs]
  · by_cases hempty : parts f = []
    · simp [habs, hempty]
    · simp [habs, hempty]

/-- A file passes by a key before which none is an empty pattern. -/
theorem foundSuid_iff : foundSuid v fileModes = some true ↔
    ∃ pre e post, fileModes = pre ++ e :: post ∧ (∀ e' ∈ pre, matchKey v e'.key ≠ none) ∧
      matchKey v e.key = some true := by
  induction fileModes with
  | nil => simp [foundSuid]
  | cons e es ih =>
      rw [foundSuid]
      constructor
      · intro h
        cases hmatch : matchKey v e.key with
        | none =>
            rw [hmatch] at h
            cases h
        | some found =>
            rw [hmatch] at h
            cases found with
            | true => exact ⟨[], e, es, rfl, List.forall_mem_nil _, hmatch⟩
            | false =>
                obtain ⟨pre, e', post, rfl, hpre, he'⟩ := ih.mp h
                refine ⟨e :: pre, e', post, rfl, List.forall_mem_cons.mpr ⟨?_, hpre⟩, he'⟩
                rw [hmatch]
                exact Option.some_ne_none _
      · intro h
        obtain ⟨pre, e', post, heq, hpre, he'⟩ := h
        cases pre with
        | nil =>
            rw [List.nil_append, List.cons.injEq] at heq
            rw [heq.1, he']
        | cons e₀ pre =>
            rw [List.cons_append, List.cons.injEq] at heq
            rw [List.forall_mem_cons] at hpre
            rw [heq.1]
            cases hmatch : matchKey v e₀.key with
            | none => exact absurd hmatch hpre.1
            | some found =>
                cases found with
                | true => rfl
                | false => exact ih.mpr ⟨pre, e', post, heq.2, hpre.2, he'⟩

theorem badbins_eq_nil_iff {vs : List Place} :
    badbins fileModes vs = some [] ↔ ∀ v ∈ vs, foundSuid v fileModes = some true := by
  induction vs with
  | nil => simp [badbins]
  | cons v vs ih =>
      rw [badbins, List.forall_mem_cons]
      cases hfound : foundSuid v fileModes with
      | none => simp
      | some found =>
          cases found with
          | true => simpa using ih
          | false => simp

theorem invoke_ok_iff :
    invoke t fileModes = .ok () ↔ ∀ v ∈ t.suids, foundSuid v fileModes = some true := by
  rw [← badbins_eq_nil_iff, invoke]
  cases hbad : badbins fileModes t.suids with
  | none => simp
  | some bad =>
      cases bad with
      | nil => simp
      | cons v bad => simp

/-- Only declared files pass exactly when the keys match no other file from the end of its path. -/
theorem reviewed_iff (t : Tree) (fileModes : List Entry) :
    Reviewed t fileModes ↔ Apart t fileModes := by
  constructor
  · intro h pre e post heq hempty hrel above below hv hmatch
    refine h.each _ hv (foundSuid_iff.mpr ⟨pre, e, post, heq, fun e' he' => ?_, ?_⟩)
    · exact fun hnone => matchKey_eq_none_iff.mp hnone (hempty e' (List.mem_cons_of_mem e he'))
    · exact matchKey_eq_true_iff.mpr ⟨hrel, (hempty e (List.mem_cons_self ..)).resolve_right hrel,
        pathMatch_iff.mpr ⟨above, below, rfl, hmatch⟩⟩
  · intro h
    have heach : ∀ v ∈ t.suids, foundSuid v fileModes = some true → Declared fileModes v := by
      intro v hv hfound
      obtain ⟨pre, e, post, heq, hpre, he⟩ := foundSuid_iff.mp hfound
      obtain ⟨hrel, hne, hpath⟩ := matchKey_eq_true_iff.mp he
      obtain ⟨above, below, rfl, hmatch⟩ := pathMatch_iff.mp hpath
      refine h pre e post heq (List.forall_mem_cons.mpr ⟨Or.inl hne, fun e' he' => ?_⟩) hrel above
        below hv hmatch
      exact not_not.mp (fun hno => hpre e' he' (matchKey_eq_none_iff.mpr hno))
    exact ⟨fun hok v hv => heach v hv (invoke_ok_iff.mp hok v hv), heach⟩

/-! ## One file declared, another one in the same place below `opt` -/

/-- A tree without links. -/
def linkless (places : List Place) : Destdir where
  places := places
  isLink _ := false
  lookup k := if k ∈ places then some (.inside k) else none
  lookup_inside := by
    intro k q h
    by_cases hk : k ∈ places
    · rw [if_pos hk, Option.some.injEq, Loc.inside.injEq] at h
      exact ⟨h ▸ hk, rfl⟩
    · rw [if_neg hk] at h
      cases h
  outsideNames _ := []

private def suPlace : Place := ["bin".toList, "su".toList]

private def optPlace : Place := "opt".toList :: suPlace

private def twoSu : Tree where
  destdir := linkless [["bin".toList], suPlace, ["opt".toList], ["opt".toList, "bin".toList],
    optPlace]
  regular v := v = suPlace ∨ v = optPlace
  mode _ := 0o4755

private def suMode : Entry :=
  ⟨"bin/su".toList, .name "root".toList, .name "root".toList, 0o4755, false⟩

theorem optSu_unreviewed : ¬ ∀ (t : Tree) (xattrs : List (Str × List Str)) (fileModes : List Entry),
    Valid t.destdir xattrs fileModes → Reviewed t fileModes := by
  intro h
  have hvalid : Valid twoSu.destdir [] [suMode] := by
    refine ⟨List.nodup_singleton _, ?_, ?_, ?_, rfl⟩
    · intro e he
      rw [List.mem_singleton.mp he]
      decide
    · intro e he _
      rw [List.mem_singleton.mp he]
      decide +kernel
    · intro e he
      rw [List.mem_singleton.mp he]
      exact ⟨_, rfl⟩
  have hreviewed := h twoSu [] [suMode] hvalid
  have hok : invoke twoSu [suMode] = .ok () := by decide +kernel
  obtain ⟨e, he, -, hparts⟩ := hreviewed.all hok optPlace (by decide +kernel)
  rw [List.mem_singleton.mp he] at hparts
  exact absurd hparts (by decide +kernel)

end Cbuild.Suid
