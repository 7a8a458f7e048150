import Cbuild.Apk.VersionGrammar
import Cbuild.Fetch.Sources

/-! # File names of packages

The files of a repository are called `name-version-rN.apk`. Both the index and the
pruning of removed packages take the name off by the last two dashes. A valid
version has a dash before its revision only, so that these two are the right ones.
-/

namespace Cbuild.Repo

open Apk Lib
open Fetch (rfind)
open scoped Computability

/-- The files that `glob("*.apk")` gives. -/
def isApk (fn : Str) : Bool := ".apk".toList.isSuffixOf fn

/-- `fn[:-4]` -/
def stem (fn : Str) : Str := fn.take (fn.length - 4)

/-- Where the name ends: the last dash but one, unless there is a single one at the start.
Negative if there are no two dashes. -/
def nameEnd (pf : Str) : Int :=
  let rd := rfind '-' pf
  if 0 < rd then rfind '-' (pf.take rd.toNat) else rd

/-- `fn` is the file of the version `ver` of the package `pn`. -/
structure FileOf (fn pn ver : Str) : Prop where
  eq : fn = pn ++ '-' :: ver ++ ".apk".toList
  revision : ∃ v n, ver = v ++ "-r".toList ++ n
  valid : versionValidate ver = true

/-! ## Valid versions -/

theorem count_dash_of_forall {p : Char → Bool} (hp : p '-' = false) {w : Str}
    (hw : ∀ c ∈ w, p c = true) : w.count '-' = 0 := by
  apply List.count_eq_zero.mpr
  intro hmem
  have hdash := hw '-' hmem
  rw [hp] at hdash
  cases hdash

theorem count_dash_kstar {l : Language Char} (hl : ∀ w ∈ l, w.count '-' = 0) :
    ∀ w ∈ l∗, w.count '-' = 0 := by
  intro w hw
  obtain ⟨ws, rfl, hws⟩ := Language.mem_kstar.mp hw
  apply List.count_eq_zero.mpr
  intro hmem
  obtain ⟨u, hu, hdash⟩ := List.mem_flatten.mp hmem
  exact List.count_eq_zero.mp (hl u (hws u hu)) hdash

theorem count_dash_dotted : ∀ w ∈ dottedPart, w.count '-' = 0 := by
  intro w hw
  obtain ⟨y, hy, rfl⟩ := (mem_literal_mul _ _ _).mp hw
  rw [List.count_append, count_dash_of_forall (by decide) hy.2]
  rfl

theorem count_dash_suffix : ∀ w ∈ suffixPart, w.count '-' = 0 := by
  intro w hw
  obtain ⟨y, hy, rfl⟩ := (mem_literal_mul _ _ _).mp hw
  obtain ⟨u, hu, n, hn, rfl⟩ := Language.mem_mul.mp hy
  rw [List.count_append, List.count_append,
    count_dash_of_forall (by decide) (suffixNames_isclow hu), count_dash_of_forall (by decide) hn]
  rfl

theorem count_dash_hash : ∀ w ∈ hashPart, w.count '-' = 0 := by
  intro w hw
  rcases hw with hw | hw
  · rw [(Language.mem_one w).mp hw]
    rfl
  · obtain ⟨y, hy, rfl⟩ := (mem_literal_mul _ _ _).mp hw
    rw [List.count_append, count_dash_of_forall (by decide) hy.2]
    rfl

theorem count_dash_revision : ∀ w ∈ revisionPart, w.count '-' ≤ 1 := by
  intro w hw
  rcases hw with hw | hw
  · rw [(Language.mem_one w).mp hw]
    exact Nat.zero_le 1
  · obtain ⟨y, hy, rfl⟩ := (mem_literal_mul _ _ _).mp hw
    rw [List.count_append, count_dash_of_forall (by decide) hy.2]
    exact Nat.le_refl 1

theorem count_dash_letter : ∀ w ∈ 1 + oneOf isclow, w.count '-' = 0 := by
  intro w hw
  rcases hw with hw | hw
  · rw [(Language.mem_one w).mp hw]
    rfl
  · obtain ⟨c, rfl, hc⟩ := hw
    apply count_dash_of_forall (p := isclow) (by decide)
    intro c' hc'
    rw [List.mem_singleton.mp hc']
    exact hc

/-- A valid version begins with a digit, and its only dash is that of the revision. -/
theorem valid_spec {ver : Str} (h : versionValidate ver = true) :
    (∃ c, ver.head? = some c ∧ iscdigit c = true) ∧ ver.count '-' ≤ 1 := by
  have hmem := (versionValidate_iff_mem ver).mp h
  obtain ⟨a, ha, b, hb, rfl⟩ := Language.mem_mul.mp hmem
  obtain ⟨d, hd, e, he, rfl⟩ := Language.mem_mul.mp hb
  obtain ⟨f, hf, g, hg, rfl⟩ := Language.mem_mul.mp he
  obtain ⟨i, hi, j, hj, rfl⟩ := Language.mem_mul.mp hg
  obtain ⟨k, hk, r, hr, rfl⟩ := Language.mem_mul.mp hj
  constructor
  · cases a with
    | nil => exact absurd rfl ha.1
    | cons c a => exact ⟨c, rfl, ha.2 c List.mem_cons_self⟩
  · have hinitial := count_dash_of_forall (p := iscdigit) (by decide) ha.2
    have hdots := count_dash_kstar count_dash_dotted d hd
    have hletter := count_dash_letter f hf
    have hsuffixes := count_dash_kstar count_dash_suffix i hi
    have hhash := count_dash_hash k hk
    have hrevision := count_dash_revision r hr
    simp only [List.count_append]
    omega

/-! ## The parts of a name -/

theorem rfind_append (c : Char) (a : Str) {b : Str} (hb : c ∉ b) :
    rfind c (a ++ c :: b) = a.length := by
  have hrev : (a ++ c :: b).reverse = b.reverse ++ c :: a.reverse := by simp
  have hidx : (b.reverse ++ c :: a.reverse).findIdx? (· = c) = some b.length := by
    rw [List.findIdx?_append]
    have hnone : b.reverse.findIdx? (· = c) = none := by
      rw [List.findIdx?_eq_none_iff]
      intro x hx
      rw [decide_eq_false_iff_not]
      rintro rfl
      exact hb (List.mem_reverse.mp hx)
    rw [hnone]
    simp [List.findIdx?_cons]
  unfold rfind
  rw [hrev, hidx]
  simp only [List.length_append, List.length_cons]
  omega

namespace FileOf

variable {fn pn ver : Str}

/-- The revision follows the only dash of the version. -/
theorem split (h : FileOf fn pn ver) : ∃ v n, ver = v ++ '-' :: 'r' :: n ∧ '-' ∉ v ∧ '-' ∉ n := by
  obtain ⟨v, n, hver⟩ := h.revision
  have heq : ver = v ++ '-' :: 'r' :: n := by
    rw [hver, List.append_assoc]
    rfl
  have hcount := (valid_spec h.valid).2
  rw [heq, List.count_append, List.count_cons_self, List.count_cons] at hcount
  have hr : ('r' == '-') = false := by decide
  rw [hr] at hcount
  refine ⟨v, n, heq, ?_, ?_⟩
  · exact List.count_eq_zero.mp (by omega)
  · exact List.count_eq_zero.mp (by omega)

theorem stem_eq (h : FileOf fn pn ver) : stem fn = pn ++ '-' :: ver := by
  have hlen : (pn ++ '-' :: ver ++ ".apk".toList).length - 4 = (pn ++ '-' :: ver).length := by
    rw [List.length_append]
    exact Nat.add_sub_cancel _ 4
  unfold stem
  rw [h.eq, hlen, List.take_left]

theorem nameEnd_eq (h : FileOf fn pn ver) : nameEnd (pn ++ '-' :: ver) = pn.length := by
  obtain ⟨v, n, rfl, hv, hn⟩ := h.split
  have hlast : rfind '-' (pn ++ '-' :: (v ++ '-' :: 'r' :: n)) = (pn ++ '-' :: v).length := by
    have hassoc : pn ++ '-' :: (v ++ '-' :: 'r' :: n) = (pn ++ '-' :: v) ++ '-' :: 'r' :: n := by
      simp
    rw [hassoc]
    apply rfind_append
    simpa using hn
  have hprefix : (pn ++ '-' :: (v ++ '-' :: 'r' :: n)).take (pn ++ '-' :: v).length =
      pn ++ '-' :: v := by
    have hassoc : pn ++ '-' :: (v ++ '-' :: 'r' :: n) = (pn ++ '-' :: v) ++ '-' :: 'r' :: n := by
      simp
    rw [hassoc, List.take_left]
  have hpos : (0 : Int) < (pn ++ '-' :: v).length := by simp; omega
  unfold nameEnd
  dsimp only
  rw [hlast, if_pos hpos, Int.toNat_natCast, hprefix, rfind_append '-' pn hv]

theorem name_eq (h : FileOf fn pn ver) : (stem fn).take (nameEnd (stem fn)).toNat = pn := by
  rw [h.stem_eq, h.nameEnd_eq, Int.toNat_natCast, List.take_left]

theorem version_eq (h : FileOf fn pn ver) : (stem fn).drop (pn.length + 1) = ver := by
  have hassoc : pn ++ '-' :: ver = (pn ++ ['-']) ++ ver := by simp
  have hlen : pn.length + 1 = (pn ++ ['-']).length := by simp
  rw [h.stem_eq, hassoc, hlen, List.drop_left]

/-- A file belongs to one version of one package. -/
theorem unique {pn' ver' : Str} (h : FileOf fn pn ver) (h' : FileOf fn pn' ver') :
    pn' = pn ∧ ver' = ver := by
  have hpn : pn' = pn := h'.name_eq.symm.trans h.name_eq
  subst hpn
  exact ⟨rfl, h'.version_eq.symm.trans h.version_eq⟩

theorem isApk (h : FileOf fn pn ver) : Repo.isApk fn = true := by
  unfold Repo.isApk
  rw [h.eq]
  exact List.isSuffixOf_iff_suffix.mpr (List.suffix_append _ _)

end FileOf

end Cbuild.Repo
