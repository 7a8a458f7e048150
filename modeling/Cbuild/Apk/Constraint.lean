import Cbuild.Apk.Match
import Cbuild.Apk.VersionGrammar
import Cbuild.Apk.VersionOrder

/-! # Dependencies with one constraint

A dependency on a name is the name alone, or the name with an operator and a
version behind it. Written out, `pkgMatch` reads the three parts back and
compares.
-/

namespace Cbuild.Apk

open scoped Computability

/-! ## The characters of a version -/

def isVersionChar (c : Char) : Bool :=
  iscdigit c || isclow c || c = '.' || c = '_' || c = '~' || c = '-'

section

variable {p : Char → Bool} {l m : Language Char}

theorem mul_le_manyOf (hl : l ≤ manyOf p) (hm : m ≤ manyOf p) : l * m ≤ manyOf p := by
  intro x hx c hc
  obtain ⟨a, ha, b, hb, rfl⟩ := Language.mem_mul.mp hx
  rcases List.mem_append.mp hc with hc | hc
  · exact hl ha c hc
  · exact hm hb c hc

theorem kstar_le_manyOf (hl : l ≤ manyOf p) : l∗ ≤ manyOf p := by
  intro x hx c hc
  obtain ⟨parts, rfl, hparts⟩ := Language.mem_kstar.mp hx
  obtain ⟨w, hw, hcw⟩ := List.mem_flatten.mp hc
  exact hl (hparts w hw) c hcw

theorem optional_le_manyOf (hl : l ≤ manyOf p) : 1 + l ≤ manyOf p := by
  apply sup_le _ hl
  intro x hx c hc
  rw [(Language.mem_one x).mp hx] at hc
  nomatch hc

theorem literal_le_manyOf {s : Str} (h : s.all p = true) : literal s ≤ manyOf p := by
  intro x hx c hc
  rw [show x = s from hx] at hc
  exact List.all_eq_true.mp h c hc

theorem someOf_le_manyOf {q : Char → Bool} (h : ∀ c, q c = true → p c = true) :
    someOf q ≤ manyOf p :=
  fun _ hx c hc => h c (hx.2 c hc)

theorem manyOf_le_manyOf {q : Char → Bool} (h : ∀ c, q c = true → p c = true) :
    manyOf q ≤ manyOf p :=
  fun _ hx c hc => h c (hx c hc)

end

theorem versionGrammar_le : versionGrammar ≤ manyOf isVersionChar := by
  have hdigit : ∀ c, iscdigit c = true → isVersionChar c = true := by
    intro c hc
    simp [isVersionChar, hc]
  have hlow : ∀ c, isclow c = true → isVersionChar c = true := by
    intro c hc
    simp [isVersionChar, hc]
  have hhex : ∀ c, isxdigit c = true → isVersionChar c = true := by
    intro c hc
    unfold isxdigit at hc
    unfold isVersionChar iscdigit isclow
    simp only [Bool.or_eq_true, Bool.and_eq_true, decide_eq_true_eq] at hc ⊢
    omega
  have hnames : suffixNames ≤ manyOf isVersionChar := by
    intro x hx
    have hall : (["alpha", "beta", "pre", "rc", "cvs", "svn", "git", "hg", "p"].map
        String.toList).all (fun w => w.all isVersionChar) = true := by decide
    exact List.all_eq_true.mp (List.all_eq_true.mp hall x hx)
  have hone : oneOf isclow ≤ manyOf isVersionChar := by
    intro x hx c hc
    obtain ⟨d, rfl, hd⟩ := hx
    rw [List.mem_singleton.mp hc]
    exact hlow d hd
  apply mul_le_manyOf (someOf_le_manyOf hdigit)
  apply mul_le_manyOf
  · exact kstar_le_manyOf (mul_le_manyOf (literal_le_manyOf (by decide)) (someOf_le_manyOf hdigit))
  apply mul_le_manyOf (optional_le_manyOf hone)
  apply mul_le_manyOf
  · exact kstar_le_manyOf (mul_le_manyOf (literal_le_manyOf (by decide))
      (mul_le_manyOf hnames (manyOf_le_manyOf hdigit)))
  apply mul_le_manyOf
  · exact optional_le_manyOf (mul_le_manyOf (literal_le_manyOf (by decide))
      (someOf_le_manyOf hhex))
  · exact optional_le_manyOf (mul_le_manyOf (literal_le_manyOf (by decide))
      (someOf_le_manyOf hdigit))

/-! ## Constraints -/

/-- A version string that `version_validate` accepts. -/
structure Version where
  text : Str
  valid : versionValidate text = true

/-- The name of a package or of what it provides. -/
structure Name where
  text : Str
  plain : text.all (fun c => !isOpChar c) = true

inductive Op
  | eq | lt | le | gt | ge | fuzzy
  deriving DecidableEq

def Op.text : Op → Str
  | .eq => ['=']
  | .lt => ['<']
  | .le => ['<', '=']
  | .gt => ['>']
  | .ge => ['>', '=']
  | .fuzzy => ['~']

/-- A dependency string on `n`. -/
def Name.constrained (n : Name) (op : Op) (v : Version) : Str := n.text ++ op.text ++ v.text

/-- The first version against the second. -/
def Version.cmp (v w : Version) : Ordering := versionCompareOp v.text w.text

theorem Version.cmp_swap (v w : Version) : w.cmp v = (v.cmp w).swap := by
  show versionCompareOp w.text v.text = (versionCompareOp v.text w.text).swap
  exact Std.OrientedCmp.eq_swap

theorem Version.compare_eq (v w : Version) : versionCompare v.text w.text = some (v.cmp w) := by
  unfold versionCompare
  rw [v.valid, w.valid]
  rfl

theorem Version.mem_grammar (v : Version) : v.text ∈ versionGrammar :=
  (versionValidate_iff_mem v.text).mp v.valid

theorem Version.not_mem (v : Version) {c : Char} (h : isVersionChar c = false) : c ∉ v.text := by
  intro hc
  rw [versionGrammar_le v.mem_grammar c hc] at h
  contradiction

theorem Version.head_digit (v : Version) : ∃ c s, v.text = c :: s ∧ iscdigit c = true := by
  obtain ⟨w, hw, y, -, he⟩ := Language.mem_mul.mp v.mem_grammar
  cases w with
  | nil => exact absurd rfl hw.1
  | cons c w => exact ⟨c, w ++ y, he.symm, hw.2 c (by simp)⟩

theorem Name.takeWhile (n : Name) {c : Char} (h : isOpChar c = true) (s : Str) :
    (n.text ++ c :: s).takeWhile (fun c => !isOpChar c) = n.text := by
  rw [List.takeWhile_append_of_pos (List.all_eq_true.mp n.plain)]
  simp [h]

theorem Name.dropWhile (n : Name) {c : Char} (h : isOpChar c = true) (s : Str) :
    (n.text ++ c :: s).dropWhile (fun c => !isOpChar c) = c :: s := by
  rw [List.dropWhile_append_of_pos (List.all_eq_true.mp n.plain)]
  simp [h]

/-- A provider of the name in version `w` meets the constraint. -/
def Op.Meets (op : Op) (w v : Version) : Prop := meetsOp op.text w.text v.text (w.cmp v) = true

instance (op : Op) (w v : Version) : Decidable (op.Meets w v) :=
  inferInstanceAs (Decidable (_ = _))

theorem splitOp_append (op : Op) (v : Version) :
    splitOp (op.text ++ v.text) = (op.text, v.text) := by
  obtain ⟨c, s, hv, hc⟩ := v.head_digit
  have hne : ∀ d, iscdigit d = false → c ≠ d := by
    intro d hd hcd
    rw [hcd, hd] at hc
    contradiction
  have heq := hne '=' (by decide)
  rw [hv]
  cases op <;> simp [splitOp, Op.text, validOps, heq]

theorem splitUpper_append (op : Op) (v : Version) :
    splitUpper (op.text ++ v.text) = (op.text ++ v.text, none) := by
  have hlt : v.text.dropWhile (fun c => c != '<') = [] := by
    rw [List.dropWhile_eq_nil_iff]
    intro c hc
    rw [bne_iff_ne]
    intro h
    exact v.not_mem (c := '<') (by decide) (h ▸ hc)
  cases op <;> simp [splitUpper, Op.text, hlt]

/-- `pkgMatch` reads the constraint back and compares, whatever the version is. -/
theorem pkgMatch_text (n : Name) (op : Op) (v : Version) (s : Str) :
    pkgMatch n.text s (n.constrained op v) =
      (versionCompare s v.text).map (meetsOp op.text s v.text) := by
  obtain ⟨c, r, hop, hc⟩ : ∃ c r, op.text = c :: r ∧ isOpChar c = true := by
    cases op <;> exact ⟨_, _, rfl, by decide⟩
  have hd : n.constrained op v = n.text ++ c :: (r ++ v.text) := by
    unfold Name.constrained
    rw [hop, List.append_assoc, List.cons_append]
  have hrest : c :: (r ++ v.text) = op.text ++ v.text := by
    rw [hop, List.cons_append]
  unfold pkgMatch
  rw [hd, n.takeWhile hc, n.dropWhile hc, hrest]
  dsimp only
  rw [if_neg (by simp [hop]), splitUpper_append, splitOp_append]

theorem pkgMatch_constrained (n : Name) (op : Op) (v w : Version) :
    pkgMatch n.text w.text (n.constrained op v) =
      some (meetsOp op.text w.text v.text (w.cmp v)) := by
  rw [pkgMatch_text, Version.compare_eq]
  rfl

theorem pkgMatch_iff (n : Name) (op : Op) (v : Version) (s : Str) :
    pkgMatch n.text s (n.constrained op v) = some true ↔
      ∃ w : Version, w.text = s ∧ op.Meets w v := by
  constructor
  · intro h
    rw [pkgMatch_text] at h
    cases hvalid : versionValidate s with
    | false =>
        unfold versionCompare at h
        rw [hvalid] at h
        nomatch h
    | true =>
        let w : Version := ⟨s, hvalid⟩
        refine ⟨w, rfl, ?_⟩
        rw [show versionCompare s v.text = some (w.cmp v) from w.compare_eq v] at h
        exact Option.some.inj h
  · intro h
    obtain ⟨w, rfl, hw⟩ := h
    rw [pkgMatch_constrained, show meetsOp op.text w.text v.text (w.cmp v) = true from hw]

end Cbuild.Apk
