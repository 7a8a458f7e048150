import Cbuild.Apk.Token

/-! # Dependency strings of `cbuild/apk/util.py`

A dependency is a name with an optional constraint on the version, such as
`foo>=1.0-r0`. `splitPkgName` takes it apart and `pkgMatch` decides whether a
version of a package meets it.
-/

namespace Cbuild.Apk

open Lib

/-- `version_compare` with its default `strict=True`: no value stands for the
`RuntimeError` on a version that is not valid. -/
def versionCompare (vera verb : Str) : Option Ordering :=
  if versionValidate vera && versionValidate verb then some (versionCompareOp vera verb) else none

/-- `[><=~]` -/
def isOpChar (c : Char) : Bool := c == '>' || c == '<' || c == '=' || c == '~'

def validOps : List Str := [['<', '='], ['<'], ['>', '='], ['>'], ['='], ['~']]

/-- `split_pkg_name`: the name, the version and the operator. `isdigit` is `str.isdigit` on one
character, whose table comes with the interpreter. -/
def splitPkgName (isdigit : Char → Bool) (s : Str) : Option (Str × Str × Str) :=
  let sn := s.takeWhile fun c => !isOpChar c
  let sv := s.dropWhile fun c => !isOpChar c
  let op := sv.takeWhile fun c => !isdigit c
  let ver := sv.dropWhile fun c => !isdigit c
  if sn = [] ∨ ver = [] then none
  else if validOps.contains op then some (sn, ver, op)
  else none

/-- The operator at the start of a constraint, and what follows it. -/
def splitOp (pattern : Str) : Str × Str :=
  let sep := if validOps.contains (pattern.take 2) then pattern.take 2 else pattern.take 1
  (sep, pattern.drop sep.length)

/-- The upper limit of a constraint such as `>x<y`, where one is given, and the rest. -/
def splitUpper (pattern : Str) : Str × Option (Str × Str) :=
  match pattern with
  | '>' :: _ =>
      match pattern.dropWhile fun c => c != '<' with
      | [] => (pattern, none)
      | upper => (pattern.takeWhile fun c => c != '<', some (splitOp upper))
  | _ => (pattern, none)

/-- The comparison of `ver` with the version of the pattern, for an operator. -/
def meetsOp (sep ver pattern : Str) (cmpv : Ordering) : Bool :=
  if sep = ['~'] then
    -- the prefix has to be the same, and what follows must be a new token
    pattern.isPrefixOf ver &&
      match ver.drop pattern.length with
      | [] => true
      | c :: _ => c == '-' || c == '.' || c == '_'
  else if sep = ['<', '='] then cmpv != .gt
  else if sep = ['<'] then cmpv == .lt
  else if sep = ['>', '='] then cmpv != .lt
  else if sep = ['>'] then cmpv == .gt
  else if sep = ['='] then cmpv == .eq
  else true

/-- `pkg_match`; no value stands for the `RuntimeError` of a version that is not valid. -/
def pkgMatch (pname ver pattern : Str) : Option Bool :=
  let constraint := pattern.dropWhile fun c => !isOpChar c
  if constraint = [] ∨ pname ≠ pattern.takeWhile fun c => !isOpChar c then some false
  else
    let lower := splitUpper constraint
    let rest := splitOp lower.1
    let checkLower : Option Bool :=
      (versionCompare ver rest.2).map (meetsOp rest.1 ver rest.2)
    match lower.2 with
    | none => checkLower
    | some (sep2, limit) =>
        match versionCompare ver limit with
        | none => none
        | some cmpv =>
            if cmpv = .gt ∨ (sep2 = ['<'] ∧ cmpv = .eq) then some false else checkLower

theorem splitPkgName_eq_some {isdigit : Char → Bool} {s sn ver op : Str}
    (h : splitPkgName isdigit s = some (sn, ver, op)) :
    sn = s.takeWhile (fun c => !isOpChar c) ∧ sn ≠ [] ∧
      op = (s.dropWhile fun c => !isOpChar c).takeWhile (fun c => !isdigit c) ∧
      ver = (s.dropWhile fun c => !isOpChar c).dropWhile (fun c => !isdigit c) ∧ ver ≠ [] ∧
      validOps.contains op = true := by
  unfold splitPkgName at h
  dsimp only at h
  split at h
  · cases h
  · rename_i hne
    rw [not_or] at hne
    split at h
    · rename_i hop
      cases h
      exact ⟨rfl, hne.1, rfl, rfl, hne.2, hop⟩
    · cases h

theorem validOps_length {op : Str} (h : validOps.contains op = true) : op.length ≤ 2 := by
  have hmem : op ∈ validOps := List.contains_iff_mem.mp h
  have hall : validOps.all (fun op => op.length ≤ 2) = true := by decide
  exact of_decide_eq_true (List.all_eq_true.mp hall op hmem)

theorem validOps_opChars {op : Str} (h : op ∈ validOps) :
    op ≠ [] ∧ ∀ c ∈ op, isOpChar c = true := by
  have hall : validOps.all (fun op => !op.isEmpty && op.all isOpChar) = true := by decide
  have := List.all_eq_true.mp hall op h
  rw [Bool.and_eq_true, Bool.not_eq_true', List.isEmpty_eq_false_iff, List.all_eq_true] at this
  exact this

theorem splitPkgName_concat {isdigit : Char → Bool}
    (hdigit : ∀ c, iscdigit c = true → isdigit c = true)
    (hop : ∀ c, isOpChar c = true → isdigit c = false) {name op ver : Str} (hne : name ≠ [])
    (hname : ∀ c ∈ name, isOpChar c = false) (hvalid : op ∈ validOps)
    (hver : ∃ c, ver.head? = some c ∧ iscdigit c = true) :
    splitPkgName isdigit (name ++ op ++ ver) = some (name, ver, op) := by
  obtain ⟨hopne, hopchars⟩ := validOps_opChars hvalid
  obtain ⟨c, hc, hcd⟩ := hver
  have hplain : ∀ c ∈ name, (!isOpChar c) = true := fun c hmem => by rw [hname c hmem]; rfl
  have hstop : Stops (fun c => !isOpChar c) (op ++ ver) := by
    cases op with
    | nil => exact absurd rfl hopne
    | cons o op => simp [hopchars o List.mem_cons_self]
  have hnodigit : ∀ c ∈ op, (!isdigit c) = true := fun c hmem => by
    rw [hop c (hopchars c hmem)]
    rfl
  have hdigits : Stops (fun c => !isdigit c) ver := by
    intro c' hc'
    rw [hc] at hc'
    cases hc'
    simp [hdigit c hcd]
  unfold splitPkgName
  dsimp only
  rw [List.append_assoc, takeWhile_append_of_stops hplain hstop,
    dropWhile_append_of_stops hplain hstop, takeWhile_append_of_stops hnodigit hdigits,
    dropWhile_append_of_stops hnodigit hdigits, if_neg, if_pos (List.contains_iff_mem.mpr hvalid)]
  rw [not_or]
  refine ⟨hne, ?_⟩
  rintro rfl
  cases hc

/-- Writing a dependency out and taking it apart are inverse to each other. -/
theorem splitPkgName_roundTrip (isdigit : Char → Bool)
    (hdigit : ∀ c, iscdigit c = true → isdigit c = true)
    (hop : ∀ c, isOpChar c = true → isdigit c = false) :
    (∀ name op ver : Str, name ≠ [] → (∀ c ∈ name, isOpChar c = false) → op ∈ validOps →
      (∃ c, ver.head? = some c ∧ iscdigit c = true) →
      splitPkgName isdigit (name ++ op ++ ver) = some (name, ver, op)) ∧
    ∀ s n v op : Str, splitPkgName isdigit s = some (n, v, op) →
      n ++ op ++ v = s ∧ n ≠ [] ∧ (∀ c ∈ n, isOpChar c = false) ∧ op ∈ validOps ∧
        ∃ c, v.head? = some c ∧ isdigit c = true := by
  constructor
  · intro name op ver hne hname hvalid hver
    exact splitPkgName_concat hdigit hop hne hname hvalid hver
  · intro s n v op h
    obtain ⟨hn, hne, hop', hv, hvne, hvalid⟩ := splitPkgName_eq_some h
    refine ⟨?_, hne, ?_, List.contains_iff_mem.mp hvalid, ?_⟩
    · rw [hop', hv, List.append_assoc, List.takeWhile_append_dropWhile, hn,
        List.takeWhile_append_dropWhile]
    · intro c hc
      rw [hn] at hc
      simpa using List.mem_takeWhile_imp hc
    · cases v with
      | nil => exact absurd rfl hvne
      | cons c v =>
          refine ⟨c, rfl, ?_⟩
          have hstop := stops_dropWhile (fun c => !isdigit c) (s.dropWhile fun c => !isOpChar c)
          rw [← hv, stops_cons] at hstop
          simpa using hstop

theorem splitPkgName_foo :
    splitPkgName iscdigit "foo2>=1.0-r0".toList = some ("foo2".toList, "1.0-r0".toList, ['>', '=']) :=
  (splitPkgName_roundTrip iscdigit (fun _ h => h) (by
    intro c hc
    simp only [isOpChar, Bool.or_eq_true, beq_iff_eq] at hc
    obtain ((rfl | rfl) | rfl) | rfl := hc <;> decide)).1 "foo2".toList ['>', '='] "1.0-r0".toList
    (by decide) (by simp [isOpChar]) (by decide) ⟨'1', by decide, by decide⟩

/-- A string that is no dependency with a constraint becomes one by appending `>=0` only if it is
a plain name, as no operator is longer than two characters. -/
theorem splitPkgName_append {isdigit : Char → Bool}
    (hop : ∀ c, isOpChar c = true → isdigit c = false) {dep pn ver op : Str}
    (hnone : splitPkgName isdigit dep = none)
    (h : splitPkgName isdigit (dep ++ ['>', '=', '0']) = some (pn, ver, op)) : pn = dep := by
  obtain ⟨rfl, hsn, rfl, rfl, hver, hvalid⟩ := splitPkgName_eq_some h
  cases hdrop : dep.dropWhile (fun c => !isOpChar c) with
  | nil =>
      have hall : ∀ c ∈ dep, (!isOpChar c) = true := List.dropWhile_eq_nil_iff.mp hdrop
      rw [List.takeWhile_append_of_pos hall]
      exact List.append_nil dep
  | cons c sv =>
      have hdrop' : (dep ++ ['>', '=', '0']).dropWhile (fun c => !isOpChar c) =
          (c :: sv) ++ ['>', '=', '0'] := by
        rw [List.dropWhile_append, hdrop]
        rfl
      rw [takeWhile_append_of_dropWhile (by rw [hdrop]; exact List.cons_ne_nil c sv)] at hsn
      rw [hdrop'] at hver hvalid
      exfalso
      cases hdigits : (c :: sv).dropWhile (fun c => !isdigit c) with
      | nil =>
          -- no digit in what follows the name: the new operator ends in `>=`
          have hall : ∀ d ∈ c :: sv, (!isdigit d) = true := List.dropWhile_eq_nil_iff.mp hdigits
          rw [List.takeWhile_append_of_pos hall] at hvalid
          have hlen := validOps_length hvalid
          simp [hop '>' (by decide), hop '=' (by decide)] at hlen
          omega
      | cons d ds =>
          rw [takeWhile_append_of_dropWhile (by rw [hdigits]; exact List.cons_ne_nil d ds)] at hvalid
          unfold splitPkgName at hnone
          dsimp only at hnone
          rw [hdrop, hdigits] at hnone
          rw [if_neg (not_or.mpr ⟨hsn, List.cons_ne_nil d ds⟩), if_pos hvalid] at hnone
          cases hnone

end Cbuild.Apk
