import Cbuild.Apk.Constraint
import Cbuild.Lib.Dict

/-! # The constraint check of `check_stage`

The loop body of `cbuild/core/stage.py` that looks at one dependency of a reverse
dependency: it takes the dependency apart by hand and compares versions with what
was dropped and what was added under its name. The version of a provider is
missing where the source has `True`. No value stands for an exception.
-/

namespace Cbuild.Stage

open Lib Apk

abbrev Providers : Type := Dict Str (Option Str)

/-- One entry of `provides`. -/
def parseProvider (pr : Str) : Str × Option Str :=
  match pr.takeWhile (· ≠ '='), pr.dropWhile (· ≠ '=') with
  | c :: name, _ :: ver => (c :: name, some ver)
  | _, _ => (pr, none)

def isConstraintChar (c : Char) : Bool := c == '=' || c == '<' || c == '>'

/-- The name, and the operator with the version where there is one. -/
def parseDep (ad : Str) : Str × Option (Str × Str) :=
  let name := ad.takeWhile fun c => !isConstraintChar c
  match ad.dropWhile fun c => !isConstraintChar c with
  | [] => (ad, none)
  | '=' :: av => (name, some (['='], av))
  | c :: '=' :: av => (name, some ([c, '='], av))
  | c :: av => (name, some ([c], av))

def startsWith (c : Char) (s : Str) : Bool := s.head? = some c

/-- Whether the constraint is not passed over for the dropped version. -/
def droppedMatch (ao av : Str) : Option Str → Option Bool
  | none => some true
  | some dv =>
      match versionCompare av dv with
      | none => none
      | some .lt => some (!(ao = ['='] || startsWith '<' ao))
      | some .gt => some (!(ao = ['='] || startsWith '>' ao))
      | some .eq => some (!(ao = ['>']))

/-- Whether the constraint is passed over for the added version, if there is one. -/
def addedMatch (ao av : Str) : Option (Option Str) → Option Bool
  | none => some false
  | some none => none
  | some (some nv) =>
      match versionCompare av nv with
      | none => none
      | some .lt => some (startsWith '>' ao)
      | some .gt => some (startsWith '<' ao)
      | some .eq => some (!(ao = ['>']))

/-- Whether the dependency is put into `checkdeps`, under its name. -/
def checkDep (dropped added : Providers) (ad : Str) : Option Bool :=
  match parseDep ad with
  | (name, none) =>
      match dropped.get name with
      | none => some false
      | some _ => some (added.get name).isNone
  | (name, some (ao, av)) =>
      match dropped.get name with
      | none => some false
      | some dv =>
          match droppedMatch ao av dv with
          | none => none
          | some false => some false
          | some true => (addedMatch ao av (added.get name)).map (!·)

/-! ## Satisfaction -/

/-- A dependency on the name, with a constraint or without. -/
def depText (n : Name) : Option (Op × Version) → Str
  | none => n.text
  | some (op, v) => n.constrained op v

/-- A provider of the name satisfies the dependency; one without a version satisfies no
constraint. -/
def Satisfies (n : Name) (d : Option (Op × Version)) (p : Option Version) : Prop :=
  match d with
  | none => True
  | some (op, v) => ∃ w, p = some w ∧ pkgMatch n.text w.text (n.constrained op v) = some true

/-- What was dropped satisfies the dependency and what was added, if anything, does not. -/
def Lost (n : Name) (d : Option (Op × Version)) (dv : Option Version)
    (nv : Option (Option Version)) : Prop :=
  Satisfies n d dv ∧ ¬ ∃ p, nv = some p ∧ Satisfies n d p

/-- The dependency is recorded exactly when it is lost. -/
def RecordsExactly (dropped added : Providers) (n : Name) (d : Option (Op × Version))
    (dv : Option Version) (nv : Option (Option Version)) : Prop :=
  ∃ b, checkDep dropped added (depText n d) = some b ∧ (b = true ↔ Lost n d dv nv)

/-- A version that `<` excludes by equality. -/
def AtBound (op : Op) (v w : Version) : Prop := op = .lt ∧ w.cmp v = .eq

/-- What the two case trees take for a match. -/
def Passes (op : Op) (v w : Version) : Prop := op.Meets w v ∨ AtBound op v w

def versionText (p : Option Version) : Option Str := p.map Version.text

/-- When the two case trees and `pkg_match` come to the same. -/
def Agrees (n : Name) (d : Option (Op × Version)) (dv : Option Version)
    (nv : Option (Option Version)) : Prop :=
  match d with
  | none => True
  | some (.fuzzy, v) => ¬ Lost n (some (.fuzzy, v)) dv nv
  | some (op, v) =>
      match dv with
      | none => ∃ w', nv = some (some w') ∧ Passes op v w'
      | some w =>
          (op.Meets w v → nv ≠ some none ∧ ∀ w', nv = some (some w') → ¬ AtBound op v w') ∧
          (AtBound op v w → ∃ w', nv = some (some w') ∧ Passes op v w')

theorem satisfies_some {n : Name} {op : Op} {v : Version} {p : Option Version} :
    Satisfies n (some (op, v)) p ↔ ∃ w, p = some w ∧ op.Meets w v := by
  unfold Satisfies
  simp only [pkgMatch_constrained, Option.some.injEq]
  rfl

/-! ## The two case trees -/

section

variable {op : Op} (v w : Version)

theorem meets_iff : op.Meets w v ↔
    match op with
    | .eq => w.cmp v = .eq
    | .lt => w.cmp v = .lt
    | .le => w.cmp v ≠ .gt
    | .gt => w.cmp v = .gt
    | .ge => w.cmp v ≠ .lt
    | .fuzzy => meetsOp ['~'] w.text v.text (w.cmp v) = true := by
  cases op <;> simp [Op.Meets, meetsOp, Op.text]

/-- The comparison of the source has its arguments the other way round. -/
theorem compare_swap : versionCompare v.text w.text = some (w.cmp v).swap := by
  rw [Version.compare_eq, Version.cmp_swap w v]

/-- Both case trees are right about a version but for the bound of `<`. -/
theorem droppedMatch_some (hop : op ≠ .fuzzy) :
    ∃ b, droppedMatch op.text v.text (some w.text) = some b ∧
      (b = true ↔ Passes op v w) := by
  unfold droppedMatch Passes AtBound
  dsimp only
  rw [compare_swap, meets_iff]
  cases op with
  | fuzzy => contradiction
  | _ => cases w.cmp v <;> exact ⟨_, rfl, by simp [Op.text, startsWith]⟩

theorem addedMatch_some (hop : op ≠ .fuzzy) :
    ∃ b, addedMatch op.text v.text (some (some w.text)) = some b ∧
      (b = true ↔ Passes op v w) := by
  unfold addedMatch Passes AtBound
  dsimp only
  rw [compare_swap, meets_iff]
  cases op with
  | fuzzy => contradiction
  | _ => cases w.cmp v <;> exact ⟨_, rfl, by simp [Op.text, startsWith]⟩

theorem not_meets_of_atBound {v w : Version} (h : AtBound op v w) : ¬ op.Meets w v := by
  obtain ⟨rfl, hcmp⟩ := h
  rw [meets_iff, hcmp]
  exact nofun

end

/-! ## Reading the dependency -/

theorem isOpChar_of_isConstraintChar {c : Char} (h : isConstraintChar c = true) :
    isOpChar c = true := by
  unfold isConstraintChar at h
  unfold isOpChar
  simp only [Bool.or_eq_true, beq_iff_eq] at h ⊢
  tauto

theorem plain_takeWhile {s : Str} (h : s.all (fun c => !isOpChar c) = true) (t : Str) :
    (s ++ t).takeWhile (fun c => !isConstraintChar c) =
        s ++ t.takeWhile (fun c => !isConstraintChar c) ∧
      (s ++ t).dropWhile (fun c => !isConstraintChar c) =
        t.dropWhile (fun c => !isConstraintChar c) := by
  have hall : ∀ c ∈ s, (!isConstraintChar c) = true := by
    intro c hc
    have hop := List.all_eq_true.mp h c hc
    cases hcons : isConstraintChar c with
    | false => rfl
    | true => simp [isOpChar_of_isConstraintChar hcons] at hop
  rw [List.takeWhile_append_of_pos hall, List.dropWhile_append_of_pos hall]
  exact ⟨rfl, rfl⟩

theorem parseDep_name (n : Name) : parseDep n.text = (n.text, none) := by
  have h := (plain_takeWhile n.plain []).2
  rw [List.append_nil] at h
  unfold parseDep
  rw [h]
  rfl

theorem parseDep_constrained (n : Name) {op : Op} (hop : op ≠ .fuzzy) (v : Version) :
    parseDep (n.constrained op v) = (n.text, some (op.text, v.text)) := by
  obtain ⟨c, s, hv, hc⟩ := v.head_digit
  have heq : c ≠ '=' := by
    intro h
    rw [h] at hc
    contradiction
  have h := plain_takeWhile n.plain (op.text ++ v.text)
  unfold parseDep Name.constrained
  rw [List.append_assoc, h.1, h.2, hv]
  cases op with
  | fuzzy => contradiction
  | _ => simp [Op.text, isConstraintChar, heq]

/-- The fuzzy operator is not seen: the whole string is taken for a name. -/
theorem parseDep_fuzzy (n : Name) (v : Version) :
    parseDep (n.constrained .fuzzy v) = (n.constrained .fuzzy v, none) := by
  have hv : v.text.dropWhile (fun c => !isConstraintChar c) = [] := by
    rw [List.dropWhile_eq_nil_iff]
    intro c hc
    have hne : ∀ d, isVersionChar d = false → c ≠ d := by
      intro d hd hcd
      exact v.not_mem hd (hcd ▸ hc)
    simp [isConstraintChar, hne '=' rfl, hne '<' rfl, hne '>' rfl]
  have h := (plain_takeWhile n.plain (Op.fuzzy.text ++ v.text)).2
  have hdrop : (Op.fuzzy.text ++ v.text).dropWhile (fun c => !isConstraintChar c) = [] := by
    simpa [Op.text, isConstraintChar] using hv
  unfold parseDep Name.constrained
  rw [List.append_assoc, h, hdrop]

/-! ## The check -/

section

variable {dropped added : Providers} {n : Name} {dv : Option Version} {nv : Option (Option Version)}

theorem checkDep_name (hd : dropped.get n.text = some (versionText dv))
    (ha : added.get n.text = nv.map versionText) :
    RecordsExactly dropped added n none dv nv := by
  unfold RecordsExactly checkDep depText
  rw [parseDep_name]
  dsimp only
  rw [hd, ha]
  refine ⟨_, rfl, ?_⟩
  unfold Lost Satisfies
  cases nv <;> simp

/-- No provider has a name with an operator in it. -/
theorem checkDep_fuzzy (hplain : ∀ k ∈ Dict.keys dropped, k.all (fun c => !isOpChar c) = true)
    (v : Version) :
    RecordsExactly dropped added n (some (.fuzzy, v)) dv nv ↔ ¬ Lost n (some (.fuzzy, v)) dv nv := by
  have hnot : n.constrained .fuzzy v ∉ Dict.keys dropped := by
    intro hk
    have := List.all_eq_true.mp (hplain _ hk) '~' (by simp [Name.constrained, Op.text])
    contradiction
  unfold RecordsExactly checkDep depText
  dsimp only
  rw [parseDep_fuzzy]
  dsimp only
  rw [Dict.get_eq_none_iff.mpr hnot]
  constructor
  · intro h hlost
    obtain ⟨b, hb, hiff⟩ := h
    cases hb
    exact Bool.false_ne_true (hiff.mpr hlost)
  · intro h
    exact ⟨false, rfl, iff_of_false Bool.false_ne_true h⟩

/-- What the code does with an operator that it knows. -/
theorem checkDep_constrained {op : Op} (hop : op ≠ .fuzzy) (v : Version)
    (hd : dropped.get n.text = some (versionText dv)) (ha : added.get n.text = nv.map versionText) (b : Bool) :
    checkDep dropped added (n.constrained op v) = some b ↔
      ((∃ w, dv = some w ∧ ¬ Passes op v w) ∧ b = false) ∨
      (¬ (∃ w, dv = some w ∧ ¬ Passes op v w) ∧ nv ≠ some none ∧
        (b = false ↔ ∃ w, nv = some (some w) ∧ Passes op v w)) := by
  have hadded : (addedMatch op.text v.text (nv.map versionText)).map (!·) = some b ↔ nv ≠ some none ∧
      (b = false ↔ ∃ w, nv = some (some w) ∧ Passes op v w) := by
    cases nv with
    | none => cases b <;> simp [addedMatch]
    | some p =>
        cases p with
        | none => simp [addedMatch, versionText]
        | some w =>
            obtain ⟨c, hc, hiff⟩ := addedMatch_some v w hop
            show (addedMatch op.text v.text (some (some w.text))).map (!·) = some b ↔ _
            rw [hc]
            cases c <;> cases b <;> simp_all
  unfold checkDep
  rw [parseDep_constrained n hop v]
  dsimp only
  rw [hd, ha]
  dsimp only
  cases dv with
  | none =>
      show (addedMatch op.text v.text (nv.map versionText)).map (!·) = some b ↔ _
      rw [hadded]
      simp
  | some w =>
      obtain ⟨c, hc, hiff⟩ := droppedMatch_some v w hop
      show (match droppedMatch op.text v.text (some w.text) with
        | none => none
        | some false => some false
        | some true => (addedMatch op.text v.text (nv.map versionText)).map (!·)) = some b ↔ _
      rw [hc]
      cases c with
      | false =>
          have hnot : ¬ Passes op v w := fun h => Bool.false_ne_true (hiff.mpr h)
          simp [hnot, eq_comm]
      | true =>
          have hyes : Passes op v w := hiff.mp rfl
          rw [hadded]
          simp [hyes]

end

theorem agrees_constrained {op : Op} (hop : op ≠ .fuzzy) (n : Name) (v : Version)
    (dv : Option Version) (nv : Option (Option Version)) :
    Agrees n (some (op, v)) dv nv ↔
      match dv with
      | none => ∃ w', nv = some (some w') ∧ Passes op v w'
      | some w =>
          (op.Meets w v → nv ≠ some none ∧ ∀ w', nv = some (some w') → ¬ AtBound op v w') ∧
          (AtBound op v w → ∃ w', nv = some (some w') ∧ Passes op v w') := by
  cases op with
  | fuzzy => contradiction
  | _ => rfl

theorem recordsExactly_constrained {dropped added : Providers} {n : Name} {dv : Option Version}
    {nv : Option (Option Version)} {op : Op} (hop : op ≠ .fuzzy) (v : Version)
    (hd : dropped.get n.text = some (versionText dv)) (ha : added.get n.text = nv.map versionText) :
    RecordsExactly dropped added n (some (op, v)) dv nv ↔ Agrees n (some (op, v)) dv nv := by
  have hlost : Lost n (some (op, v)) dv nv ↔
      (∃ w, dv = some w ∧ op.Meets w v) ∧ ¬ ∃ w, nv = some (some w) ∧ op.Meets w v := by
    unfold Lost
    simp only [satisfies_some]
    constructor
    · intro h
      exact ⟨h.1, fun hw => h.2 ⟨_, hw.choose_spec.1, _, rfl, hw.choose_spec.2⟩⟩
    · intro h
      apply And.intro h.1
      intro hp
      obtain ⟨p, hp, w, rfl, hw⟩ := hp
      exact h.2 ⟨w, hp, hw⟩
  have hbound : ∀ w, AtBound op v w → ¬ op.Meets w v := fun w h => not_meets_of_atBound h
  unfold RecordsExactly depText
  dsimp only
  simp only [checkDep_constrained hop v hd ha]
  rw [hlost, agrees_constrained hop]
  cases dv with
  | none =>
      cases nv with
      | none => simp
      | some p => cases p <;> simp
  | some w =>
      have hw : Passes op v w ↔ op.Meets w v ∨ AtBound op v w := Iff.rfl
      cases nv with
      | none => by_cases hm : op.Meets w v <;> by_cases hb : AtBound op v w <;> simp_all
      | some p =>
          cases p with
          | none => by_cases hm : op.Meets w v <;> by_cases hb : AtBound op v w <;> simp_all
          | some w' =>
              have hw' : Passes op v w' ↔ op.Meets w' v ∨ AtBound op v w' := Iff.rfl
              have hb' := hbound w'
              by_cases hm : op.Meets w v <;> by_cases hb : AtBound op v w <;>
                by_cases hm' : op.Meets w' v <;> by_cases hb'' : AtBound op v w' <;> simp_all

/-- The constraint evaluation records a dependency exactly when it is lost if and only if the
two case trees agree with `pkg_match` on it. -/
theorem checkDep_recordsExactly_iff (dropped added : Providers)
    (hplain : ∀ k ∈ Dict.keys dropped, k.all (fun c => !isOpChar c) = true) (n : Name)
    (d : Option (Op × Version)) (dv : Option Version) (nv : Option (Option Version))
    (hd : dropped.get n.text = some (versionText dv)) (ha : added.get n.text = nv.map versionText) :
    RecordsExactly dropped added n d dv nv ↔ Agrees n d dv nv := by
  cases d with
  | none => exact iff_of_true (checkDep_name hd ha) trivial
  | some c =>
      obtain ⟨op, v⟩ := c
      by_cases hop : op = .fuzzy
      · subst hop
        exact checkDep_fuzzy hplain v
      · exact recordsExactly_constrained hop v hd ha

def foo : Name := ⟨"foo".toList, by decide⟩

def version1 : Version := ⟨"1.0".toList, by decide +kernel⟩

def version30 : Version := ⟨"3.0".toList, by decide +kernel⟩

def version301 : Version := ⟨"3.0.1".toList, by decide +kernel⟩

theorem recordsExactly_upgrade :
    RecordsExactly [(foo.text, some version30.text)] [(foo.text, some version301.text)] foo
      (some (.ge, version1)) (some version30) (some (some version301)) := by
  apply (checkDep_recordsExactly_iff _ _ (by decide) foo _ _ _ rfl rfl).mpr
  refine ⟨fun _ => ⟨nofun, fun w' hw' hbound => ?_⟩, fun hbound => ?_⟩
  · exact nomatch hbound.1
  · exact nomatch hbound.1

/-- `foo~3.0` is lost with `foo=3.0.1` and is not seen. -/
theorem fuzzyConstraint_not_recorded :
    ¬ ∀ (dropped added : Providers) (n : Name) (d : Option (Op × Version)) (dv : Option Version)
      (nv : Option (Option Version)),
      (∀ k ∈ Dict.keys dropped, k.all (fun c => !isOpChar c) = true) →
      dropped.get n.text = some (versionText dv) → added.get n.text = nv.map versionText →
      RecordsExactly dropped added n d dv nv := by
  intro h
  obtain ⟨b, hb, hiff⟩ := h [(foo.text, some version301.text)] [] foo
    (some (.fuzzy, version30)) (some version301) none (by decide) rfl rfl
  have hcheck : checkDep [(foo.text, some version301.text)] []
      (depText foo (some (.fuzzy, version30))) = some false := by decide +kernel
  rw [hcheck] at hb
  cases hb
  have hlost : Lost foo (some (.fuzzy, version30)) (some version301) none := by
    refine ⟨⟨version301, rfl, by decide +kernel⟩, ?_⟩
    intro hadded
    obtain ⟨p, hp, -⟩ := hadded
    nomatch hp
  exact nomatch hiff.mpr hlost

end Cbuild.Stage
