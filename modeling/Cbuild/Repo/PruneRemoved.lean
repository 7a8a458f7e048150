import Cbuild.Lib.Replace
import Cbuild.Repo.FileName

/-! # Packages whose template is gone

`do_prune_removed` of `runner.py` goes through the repositories that have an index and
deletes the files of packages without a template. An automatic package has none of its
own: it stays as long as its base has a template and the file of the base in the same
version is there, which the same loop may be about to delete.
-/

namespace Cbuild.Repo

open Apk Lib
open Fetch (rfind)

/-- The names of `autopkgs` in `cbuild/core/template.py`. -/
def autopkgs : List Str :=
  ["dbg".toList, "static".toList, "doc".toList, "man".toList, "dinit-links".toList,
    "dinit".toList, "initramfs-tools".toList, "udev".toList, "bashcomp".toList,
    "zshcomp".toList, "fishcomp".toList, "nucomp".toList, "locale".toList, "pycache".toList]

/-- A path from the root. -/
abbrev Path := List Str

namespace Path

def name (p : Path) : Str := p.getLastD []

def parent (p : Path) : Path := p.dropLast

/-- `p / n` -/
def join (p : Path) (n : Str) : Path := if n = [] ∨ n = ['.'] then p else p ++ [n]

@[simp] theorem name_concat (p : Path) (n : Str) : name (p ++ [n]) = n := List.getLastD_concat

@[simp] theorem parent_concat (p : Path) (n : Str) : parent (p ++ [n]) = p := List.dropLast_concat

end Path

/-- What is looked at and not changed. -/
structure Surroundings where
  distdir : Path
  repository : Path
  archn : Str
  dryrun : Bool
  isDir : Path → Bool
  /-- There is a `template.py` in the directory. -/
  hasTemplate : Path → Bool
  /-- There is something of this name, be it a symlink that is broken. -/
  lexists : Path → Bool

structure Repos where
  /-- The files of a directory, in the order in which they are enumerated. -/
  files : Path → List Str
  log : List Str
  /-- A file of the repository at hand has been deleted. -/
  touched : Bool
  /-- The directories that have got a new index. -/
  indexed : List Path

/-- `pathlib.PurePath.stem` -/
def pathStem (fn : Str) : Str :=
  let i := rfind '.' fn
  if 0 < i ∧ i < (fn.length : Int) - 1 then fn.take i.toNat else fn

/-- The name without the suffix of an automatic package. -/
def stripAuto (pkgn : Str) : Str :=
  match autopkgs.find? fun apkg => ('-' :: apkg).isSuffixOf pkgn with
  | some apkg => pkgn.take (pkgn.length - apkg.length - 1)
  | none => pkgn

/-- What becomes of a file. -/
inductive Verdict where
  | malformed
  | keep
  | remove (pkgn : Str)

namespace Surroundings

variable (e : Surroundings)

/-- The file of the base package of a file. -/
def basePath (repo : Path) (fn opkgn pkgn : Str) : Path :=
  let bppath := repo ++ [e.archn, replace opkgn pkgn fn]
  if "-dbg".toList.isSuffixOf opkgn then
    bppath.parent.parent.parent ++ [bppath.parent.name, bppath.name]
  else bppath

def verdict (files : Path → List Str) (tmplp repo : Path) (fn : Str) : Verdict :=
  let rd := nameEnd (pathStem fn)
  if rd < 0 then .malformed
  else
    let opkgn := (pathStem fn).take rd.toNat
    let pkgn := if e.hasTemplate (tmplp.join opkgn) then opkgn else stripAuto opkgn
    if e.hasTemplate (tmplp.join pkgn) then
      if pkgn ≠ opkgn then
        let bppath := e.basePath repo fn opkgn pkgn
        if bppath.name ∈ files bppath.parent then .keep else .remove pkgn
      else .keep
    else .remove pkgn

/-- One file of the loop. -/
def pruneFile (tmplp repo : Path) (s : Repos) (fn : Str) : Repos :=
  match e.verdict s.files tmplp repo fn with
  | .malformed =>
      { s with log := s.log ++
          ["\x0c[orange]WARNING: Malformed file name found, skipping: ".toList ++ fn] }
  | .keep => s
  | .remove pkgn =>
      let broken := if e.lexists (tmplp.join pkgn) then
        ["\x0c[orange]WARNING: Broken symlink for package '".toList ++ pkgn ++ "'".toList] else []
      let log := s.log ++ broken ++ ["Pruning package: ".toList ++ fn]
      if e.dryrun then { s with log := log }
      else
        let dir := repo ++ [e.archn]
        { s with
          log := log
          touched := true
          files := Function.update s.files dir ((s.files dir).filter (· ≠ fn)) }

/-- The directory of the templates of a repository; no value stands for the error that it does
not match any. -/
def category (repo : Path) : Option Path :=
  if e.isDir (e.distdir.join repo.name) then some (e.distdir.join repo.name)
  else if e.isDir (e.distdir.join repo.parent.name) then
    some (e.distdir.join repo.parent.name)
  else none

/-- `_prune` -/
def prune (repo : Path) (s : Repos) : Option Repos := do
  let tmplp ← e.category repo
  let dir := repo ++ [e.archn]
  let s := ((s.files dir).filter isApk).foldl (e.pruneFile tmplp repo) { s with touched := false }
  if s.touched then some { s with indexed := s.indexed ++ [dir] } else some s

/-- `do_prune_removed`, for the repositories of the indexes that there are. -/
def doPruneRemoved (repos : List Path) (s : Repos) : Option Repos :=
  let rec go : List Path → List Path → Repos → Option Repos
    | [], _, s => some s
    | repo :: rest, reposet, s =>
        if ¬ e.repository <+: repo ∨ repo ∈ reposet then go rest reposet s
        else if ¬ e.isDir (repo ++ [e.archn]) then go rest (repo :: reposet) s
        else (e.prune repo s).bind (go rest (repo :: reposet))
  go repos [] s

end Surroundings

/-! ## The parts of the names -/

theorem pathStem_eq {fn pn ver : Str} (h : FileOf fn pn ver) : pathStem fn = pn ++ '-' :: ver := by
  have hfn : fn = (pn ++ '-' :: ver) ++ '.' :: "apk".toList := h.eq
  have hdot : rfind '.' fn = (pn ++ '-' :: ver).length := by
    rw [hfn]
    exact rfind_append '.' _ (by decide)
  have hlen : (fn.length : Int) = (pn ++ '-' :: ver).length + 4 := by
    rw [hfn, List.length_append]
    rfl
  have hpos : 0 < (pn ++ '-' :: ver).length := by
    rw [List.length_append, List.length_cons]
    omega
  unfold pathStem
  rw [hdot, if_pos (by omega), Int.toNat_natCast, hfn, List.take_left]

/-- No suffix is the end of another one. -/
theorem autopkgs_unique {pn a b base base' : Str} (ha : a ∈ autopkgs) (hb : b ∈ autopkgs)
    (hpa : pn = base ++ '-' :: a) (hpb : pn = base' ++ '-' :: b) : a = b ∧ base = base' := by
  have hapart : ∀ a ∈ autopkgs, ∀ b ∈ autopkgs, '-' :: a <:+ '-' :: b → a = b := by
    have hall : (autopkgs.all fun a => autopkgs.all fun b =>
        !('-' :: a).isSuffixOf ('-' :: b) || decide (a = b)) = true := by decide
    intro a ha b hb hsuffix
    have hab := List.all_eq_true.mp (List.all_eq_true.mp hall a ha) b hb
    rw [List.isSuffixOf_iff_suffix.mpr hsuffix] at hab
    exact of_decide_eq_true hab
  have hsa : '-' :: a <:+ pn := ⟨base, hpa.symm⟩
  have hsb : '-' :: b <:+ pn := ⟨base', hpb.symm⟩
  have hab : a = b := by
    rcases List.suffix_or_suffix_of_suffix hsa hsb with h | h
    · exact hapart a ha b hb h
    · exact (hapart b hb a ha h).symm
  subst hab
  exact ⟨rfl, List.append_cancel_right (hpa.symm.trans hpb)⟩

theorem stripAuto_of_suffix {pn a base : Str} (ha : a ∈ autopkgs) (hpn : pn = base ++ '-' :: a) :
    stripAuto pn = base := by
  unfold stripAuto
  cases hfind : autopkgs.find? fun apkg => ('-' :: apkg).isSuffixOf pn with
  | none =>
      have hnot := List.find?_eq_none.mp hfind a ha
      exact absurd (List.isSuffixOf_iff_suffix.mpr ⟨base, hpn.symm⟩) hnot
  | some b =>
      have hfound := List.find?_some hfind
      obtain ⟨base', hb⟩ := List.isSuffixOf_iff_suffix.mp hfound
      obtain ⟨rfl, rfl⟩ := autopkgs_unique ha (List.mem_of_find?_eq_some hfind) hpn hb.symm
      have hlen : pn.length - a.length - 1 = base.length := by
        rw [hpn, List.length_append, List.length_cons]
        omega
      show pn.take (pn.length - a.length - 1) = base
      rw [hlen, hpn, List.take_left]

theorem stripAuto_of_not {pn : Str} (h : ¬ ∃ base, ∃ a ∈ autopkgs, pn = base ++ '-' :: a) :
    stripAuto pn = pn := by
  unfold stripAuto
  cases hfind : autopkgs.find? fun apkg => ('-' :: apkg).isSuffixOf pn with
  | none => rfl
  | some b =>
      have hfound := List.find?_some hfind
      obtain ⟨base, hb⟩ := List.isSuffixOf_iff_suffix.mp hfound
      exact absurd ⟨base, b, List.mem_of_find?_eq_some hfind, hb.symm⟩ h

theorem autopkgs_head : ∀ a ∈ autopkgs, ∃ c s, a = c :: s ∧ iscdigit c = false ∧ c ≠ 'r' := by
  have hall : (autopkgs.all fun a => a.head?.any fun c => !iscdigit c && decide (c ≠ 'r')) =
      true := by decide
  intro a ha
  have h := List.all_eq_true.mp hall a ha
  cases a with
  | nil => cases h
  | cons c s =>
      rw [List.head?_cons, Option.any_some, Bool.and_eq_true, Bool.not_eq_true',
        decide_eq_true_eq] at h
      exact ⟨c, s, rfl, h⟩

/-- Behind each dash of the rest of a file name there is a digit or the letter of the revision. -/
theorem not_infix_rest {fn pn ver a : Str} (h : FileOf fn pn ver) (ha : a ∈ autopkgs) :
    ¬ '-' :: a <:+: '-' :: ver ++ ".apk".toList := by
  obtain ⟨v, n, hver, hv, hn⟩ := h.split
  obtain ⟨c, s, rfl, hc, hr⟩ := autopkgs_head a ha
  obtain ⟨d, hd, hdigit⟩ := (valid_spec h.valid).1
  intro hinfix
  obtain ⟨x, y, hxy⟩ := hinfix
  have hrest : x ++ '-' :: (c :: s ++ y) = '-' :: (v ++ '-' :: ('r' :: n ++ ".apk".toList)) := by
    have hleft : x ++ '-' :: (c :: s ++ y) = x ++ '-' :: c :: s ++ y := by simp
    rw [hleft, hxy, hver]
    simp
  cases x with
  | nil =>
      have htail : c :: (s ++ y) = v ++ '-' :: ('r' :: n ++ ".apk".toList) := (List.cons.inj hrest).2
      have hhead : ver.head? = some c := by
        rw [hver]
        cases v with
        | nil => rw [(List.cons.inj htail).1]; rfl
        | cons c' v => rw [(List.cons.inj htail).1]; rfl
      rw [hhead] at hd
      cases hd
      rw [hdigit] at hc
      cases hc
  | cons c' x =>
      have htail : x ++ '-' :: (c :: s ++ y) = v ++ '-' :: ('r' :: n ++ ".apk".toList) :=
        (List.cons.inj hrest).2
      have hnotin : '-' ∉ 'r' :: n ++ ".apk".toList := by
        simp [hn]
      rcases List.append_eq_append_iff.mp htail with ⟨z, hz, hz'⟩ | ⟨z, hz, hz'⟩
      · cases z with
        | nil => exact hr (List.cons.inj (List.cons.inj hz').2).1
        | cons d' z =>
            have hd' : d' = '-' := (List.cons.inj hz').1.symm
            apply hv
            rw [hz, hd']
            simp
      · cases z with
        | nil => exact hr (List.cons.inj (List.cons.inj hz').2).1.symm
        | cons d' z =>
            apply hnotin
            rw [(List.cons.inj hz').2]
            simp

/-- The file of the base package is that of the same version. -/
theorem replace_name {fn pn ver a base : Str} (h : FileOf fn pn ver) (ha : a ∈ autopkgs)
    (hpn : pn = base ++ '-' :: a) : replace pn base fn = base ++ '-' :: ver ++ ".apk".toList := by
  have hne : pn ≠ [] := by
    rw [hpn]
    simp
  have hrest : ¬ pn <:+: '-' :: ver ++ ".apk".toList := by
    intro hinfix
    apply not_infix_rest h ha
    have hsuffix : '-' :: a <:+: pn := by
      rw [hpn]
      exact (List.suffix_append base _).isInfix
    exact hsuffix.trans hinfix
  have hfn : fn = pn ++ ('-' :: ver ++ ".apk".toList) := by
    rw [h.eq, List.append_assoc]
  rw [hfn, replace_prefix hne hrest, List.append_assoc]

/-! ## What is to be deleted -/

namespace Surroundings

variable (e : Surroundings)

/-- Where the base package of one with this suffix is: those with debug files are in a
repository of their own, within that of their bases. -/
def baseDir (repo : Path) (a : Str) : Path :=
  (if a = "dbg".toList then repo.parent else repo) ++ [e.archn]

/-- There is the file of a base package that has a template, in the same version. -/
def Based (files : Path → List Str) (tmplp repo : Path) (pn ver : Str) : Prop :=
  ∃ base, ∃ a ∈ autopkgs, pn = base ++ '-' :: a ∧ e.hasTemplate (tmplp.join base) = true ∧
    base ++ '-' :: ver ++ ".apk".toList ∈ files (e.baseDir repo a)

/-- The package of the file has no template, and it is not one that goes with its base. -/
def Stale (files : Path → List Str) (tmplp repo : Path) (fn : Str) : Prop :=
  ∃ pn ver, FileOf fn pn ver ∧ e.hasTemplate (tmplp.join pn) = false ∧
    ¬ e.Based files tmplp repo pn ver

/-- The repository has an index and files of the architecture. -/
structure Visited (repos : List Path) (repo : Path) : Prop where
  mem : repo ∈ repos
  below : e.repository <+: repo
  dir : e.isDir (repo ++ [e.archn]) = true

/-- The files of the repositories that are to be deleted. -/
def Removed (repos : List Path) (files : Path → List Str) (d : Path) (fn : Str) : Prop :=
  ∃ repo tmplp, e.Visited repos repo ∧ e.category repo = some tmplp ∧ d = repo ++ [e.archn] ∧
    e.Stale files tmplp repo fn

/-- The repositories match templates, and one within another is not called like a directory
of templates. -/
structure Layout (repos : List Path) : Prop where
  category : ∀ repo, e.Visited repos repo → (e.category repo).isSome = true
  sub : ∀ repo, e.Visited repos repo → e.Visited repos repo.parent →
    e.isDir (e.distdir.join repo.name) = false

/-- The files are those of packages in valid versions. -/
def Named (repos : List Path) (files : Path → List Str) : Prop :=
  ∀ repo, e.Visited repos repo → ∀ fn ∈ files (repo ++ [e.archn]), isApk fn = true →
    ∃ pn ver, FileOf fn pn ver

variable {e} {repos : List Path} {files files' : Path → List Str} {tmplp repo : Path}
  {fn pn ver : Str}

theorem basePath_eq {a base : Str} (h : FileOf fn pn ver) (ha : a ∈ autopkgs)
    (hpn : pn = base ++ '-' :: a) : e.basePath repo fn pn base =
      e.baseDir repo a ++ [base ++ '-' :: ver ++ ".apk".toList] := by
  have hdbg : "-dbg".toList.isSuffixOf pn = true ↔ a = "dbg".toList := by
    rw [List.isSuffixOf_iff_suffix]
    constructor
    · intro hsuffix
      obtain ⟨base', hbase'⟩ := hsuffix
      exact (autopkgs_unique ha (by decide) hpn hbase'.symm).1
    · rintro rfl
      exact ⟨base, hpn.symm⟩
  unfold basePath baseDir
  rw [replace_name h ha hpn]
  by_cases hd : a = "dbg".toList
  · rw [if_pos (hdbg.mpr hd), if_pos hd]
    have hsplit : repo ++ [e.archn, base ++ '-' :: ver ++ ".apk".toList] =
        repo ++ [e.archn] ++ [base ++ '-' :: ver ++ ".apk".toList] := by simp
    rw [hsplit, Path.parent_concat, Path.name_concat, Path.parent_concat, Path.name_concat]
    simp
  · rw [if_neg (fun h => hd (hdbg.mp h)), if_neg hd]
    simp

theorem ne_base {a base : Str} (hpn : pn = base ++ '-' :: a) : base ≠ pn := by
  intro heq
  have hlen := congrArg List.length (heq.trans hpn)
  rw [List.length_append, List.length_cons] at hlen
  omega

/-- A file is kept or deleted, as its package is to be. -/
theorem verdict_cases (e : Surroundings) (files : Path → List Str) (tmplp repo : Path)
    (h : FileOf fn pn ver) :
    e.verdict files tmplp repo fn = .keep ∧ ¬ e.Stale files tmplp repo fn ∨
      (∃ pkgn, e.verdict files tmplp repo fn = .remove pkgn) ∧ e.Stale files tmplp repo fn := by
  have hpos : ¬ ((pn.length : Int) < 0) := by omega
  have htake : (pn ++ '-' :: ver).take pn.length = pn := List.take_left
  unfold verdict
  dsimp only
  rw [pathStem_eq h, h.nameEnd_eq, if_neg hpos, Int.toNat_natCast, htake]
  by_cases ht : e.hasTemplate (tmplp.join pn) = true
  · left
    rw [if_pos ht, if_pos ht, if_neg (not_not_intro rfl)]
    refine ⟨rfl, ?_⟩
    intro hstale
    obtain ⟨pn', ver', h', hno, -⟩ := hstale
    rw [(h.unique h').1, ht] at hno
    cases hno
  · have hno : e.hasTemplate (tmplp.join pn) = false := by simpa using ht
    rw [if_neg ht]
    by_cases hauto : ∃ base, ∃ a ∈ autopkgs, pn = base ++ '-' :: a
    · obtain ⟨base, a, ha, hpn⟩ := hauto
      rw [stripAuto_of_suffix ha hpn]
      by_cases hb : e.hasTemplate (tmplp.join base) = true
      · rw [if_pos hb, if_pos (ne_base hpn), basePath_eq h ha hpn, Path.parent_concat,
          Path.name_concat]
        by_cases hfile : base ++ '-' :: ver ++ ".apk".toList ∈ files (e.baseDir repo a)
        · left
          rw [if_pos hfile]
          refine ⟨rfl, ?_⟩
          intro hstale
          obtain ⟨pn', ver', h', -, hnot⟩ := hstale
          obtain ⟨rfl, rfl⟩ := h.unique h'
          exact hnot ⟨base, a, ha, hpn, hb, hfile⟩
        · right
          rw [if_neg hfile]
          refine ⟨⟨_, rfl⟩, pn, ver, h, hno, ?_⟩
          intro hbased
          obtain ⟨base', a', ha', hpn', -, hfile'⟩ := hbased
          obtain ⟨rfl, rfl⟩ := autopkgs_unique ha ha' hpn hpn'
          exact hfile hfile'
      · right
        rw [if_neg hb]
        refine ⟨⟨_, rfl⟩, pn, ver, h, hno, ?_⟩
        intro hbased
        obtain ⟨base', a', ha', hpn', hb', -⟩ := hbased
        obtain ⟨rfl, rfl⟩ := autopkgs_unique ha ha' hpn hpn'
        exact hb hb'
    · right
      rw [stripAuto_of_not hauto, if_neg ht]
      refine ⟨⟨_, rfl⟩, pn, ver, h, hno, ?_⟩
      intro hbased
      obtain ⟨base, a, ha, hpn, -, -⟩ := hbased
      exact hauto ⟨base, a, ha, hpn⟩

/-! ## The base packages stay -/

/-- Of the files there were, some of those that are to be deleted are gone. -/
structure Among (e : Surroundings) (repos : List Path) (files files' : Path → List Str) : Prop where
  sub : ∀ d fn, fn ∈ files' d → fn ∈ files d
  gone : ∀ d fn, fn ∈ files d → fn ∉ files' d → e.Removed repos files d fn

theorem Layout.category_parent (hlayout : e.Layout repos) (h : e.Visited repos repo)
    (hp : e.Visited repos repo.parent) : e.category repo.parent = e.category repo := by
  have hsome := hlayout.category repo h
  have hsub := hlayout.sub repo h hp
  unfold Surroundings.category at hsome ⊢
  rw [hsub] at hsome ⊢
  by_cases hdir : e.isDir (e.distdir.join repo.parent.name) = true
  · simp [hdir]
  · simp [hdir] at hsome

/-- What a package that goes with its base needs is not deleted. -/
theorem Among.based_iff (hlayout : e.Layout repos) (h : Among e repos files files')
    (hrepo : e.Visited repos repo) (hcat : e.category repo = some tmplp)
    (hfile : FileOf fn pn ver) :
    e.Based files' tmplp repo pn ver ↔ e.Based files tmplp repo pn ver := by
  constructor
  · intro hbased
    obtain ⟨base, a, ha, hpn, ht, hmem⟩ := hbased
    exact ⟨base, a, ha, hpn, ht, h.sub _ _ hmem⟩
  · intro hbased
    obtain ⟨base, a, ha, hpn, ht, hmem⟩ := hbased
    refine ⟨base, a, ha, hpn, ht, ?_⟩
    by_contra hgone
    obtain ⟨r, t, hr, hrcat, hdir, hstale⟩ := h.gone _ _ hmem hgone
    have hreq : (if a = "dbg".toList then repo.parent else repo) = r :=
      List.append_cancel_right hdir
    have htmplp : t = tmplp := by
      rw [← hreq] at hr hrcat
      split at hrcat
      next hd =>
        rw [if_pos hd] at hr
        rw [hlayout.category_parent hrepo hr, hcat] at hrcat
        exact (Option.some.inj hrcat).symm
      next =>
        rw [hcat] at hrcat
        exact (Option.some.inj hrcat).symm
    obtain ⟨pn', ver', hfile', hno, -⟩ := hstale
    have hbase : FileOf (base ++ '-' :: ver ++ ".apk".toList) base ver :=
      ⟨rfl, hfile.revision, hfile.valid⟩
    rw [(hbase.unique hfile').1, htmplp, ht] at hno
    cases hno

theorem Among.stale_iff (hlayout : e.Layout repos) (h : Among e repos files files')
    (hrepo : e.Visited repos repo) (hcat : e.category repo = some tmplp) :
    e.Stale files' tmplp repo fn ↔ e.Stale files tmplp repo fn := by
  unfold Stale
  constructor
  · intro hstale
    obtain ⟨pn, ver, hfile, hno, hnot⟩ := hstale
    rw [h.based_iff hlayout hrepo hcat hfile] at hnot
    exact ⟨pn, ver, hfile, hno, hnot⟩
  · intro hstale
    obtain ⟨pn, ver, hfile, hno, hnot⟩ := hstale
    rw [← h.based_iff hlayout hrepo hcat hfile] at hnot
    exact ⟨pn, ver, hfile, hno, hnot⟩

/-! ## The loops -/

/-- What is left of the files without those of `gone`. -/
def Without (files : Path → List Str) (gone : Path → Str → Prop) (files' : Path → List Str) : Prop :=
  ∀ d fn, fn ∈ files' d ↔ fn ∈ files d ∧ ¬ gone d fn

variable {gone : Path → Str → Prop} {s : Repos}

theorem Without.congr {gone' : Path → Str → Prop} (h : Without files gone files')
    (hgone : ∀ d fn, fn ∈ files d → (gone d fn ↔ gone' d fn)) : Without files gone' files' := by
  intro d fn
  rw [h d fn]
  constructor
  · intro hmem
    exact ⟨hmem.1, fun hg => hmem.2 ((hgone d fn hmem.1).mpr hg)⟩
  · intro hmem
    exact ⟨hmem.1, fun hg => hmem.2 ((hgone d fn hmem.1).mp hg)⟩

theorem Without.among (h : Without files gone files')
    (hgone : ∀ d fn, gone d fn → e.Removed repos files d fn) : Among e repos files files' := by
  constructor
  · intro d fn hmem
    exact ((h d fn).mp hmem).1
  · intro d fn hmem hnot
    apply hgone
    by_contra hno
    exact hnot ((h d fn).mpr ⟨hmem, hno⟩)

/-- One file: it is deleted if it is to be. -/
theorem Without.pruneFile (hdry : e.dryrun = false) (hlayout : e.Layout repos)
    (hgone : ∀ d fn, gone d fn → e.Removed repos files d fn) (h : Without files gone s.files)
    (hrepo : e.Visited repos repo) (hcat : e.category repo = some tmplp)
    (hfile : FileOf fn pn ver) :
    Without files (fun d g => gone d g ∨ d = repo ++ [e.archn] ∧ g = fn ∧
      e.Stale files tmplp repo g) (e.pruneFile tmplp repo s fn).files := by
  have hstale : e.Stale s.files tmplp repo fn ↔ e.Stale files tmplp repo fn :=
    (h.among hgone).stale_iff hlayout hrepo hcat
  unfold Surroundings.pruneFile
  rcases verdict_cases e s.files tmplp repo hfile with ⟨hv, hnot⟩ | ⟨⟨pkgn, hv⟩, hst⟩
  · rw [hv]
    apply h.congr
    intro d g _
    constructor
    · exact Or.inl
    · intro hg
      rcases hg with hg | ⟨-, rfl, hg⟩
      · exact hg
      · exact absurd (hstale.mpr hg) hnot
  · rw [hv, hdry]
    intro d g
    show g ∈ Function.update s.files _ _ d ↔ _
    by_cases hd : d = repo ++ [e.archn]
    · subst hd
      rw [Function.update_self, List.mem_filter, decide_eq_true_eq, h]
      constructor
      · intro hmem
        refine ⟨hmem.1.1, ?_⟩
        rintro (hg | ⟨-, heq, -⟩)
        · exact hmem.1.2 hg
        · exact hmem.2 heq
      · intro hmem
        refine ⟨⟨hmem.1, fun hg => hmem.2 (Or.inl hg)⟩, ?_⟩
        rintro rfl
        exact hmem.2 (Or.inr ⟨rfl, rfl, hstale.mp hst⟩)
    · rw [Function.update_of_ne hd, h]
      simp [hd]

/-- The files of one repository. -/
theorem Without.pruneFiles (hdry : e.dryrun = false) (hlayout : e.Layout repos)
    (hrepo : e.Visited repos repo) (hcat : e.category repo = some tmplp) (fns : List Str)
    (hfns : ∀ fn ∈ fns, ∃ pn ver, FileOf fn pn ver)
    (hgone : ∀ d fn, gone d fn → e.Removed repos files d fn) (h : Without files gone s.files) :
    Without files (fun d g => gone d g ∨ d = repo ++ [e.archn] ∧ g ∈ fns ∧
      e.Stale files tmplp repo g) (fns.foldl (e.pruneFile tmplp repo) s).files := by
  induction fns generalizing s gone with
  | nil =>
      apply h.congr
      intro d g _
      simp
  | cons fn fns ih =>
      obtain ⟨pn, ver, hfile⟩ := hfns fn List.mem_cons_self
      have hstep := h.pruneFile hdry hlayout hgone hrepo hcat hfile
      have hrest := ih (fun g hg => hfns g (List.mem_cons_of_mem fn hg)) (by
        intro d g hg
        rcases hg with hg | ⟨hd, -, hst⟩
        · exact hgone d g hg
        · exact ⟨repo, tmplp, hrepo, hcat, hd, hst⟩) hstep
      apply hrest.congr
      intro d g _
      rw [List.mem_cons, or_assoc, ← and_or_left, ← or_and_right]

theorem Without.prune (hdry : e.dryrun = false) (hlayout : e.Layout repos)
    (hnamed : e.Named repos files) (hrepo : e.Visited repos repo)
    (hcat : e.category repo = some tmplp)
    (hgone : ∀ d fn, gone d fn → e.Removed repos files d fn) (h : Without files gone s.files) :
    ∃ s', e.prune repo s = some s' ∧ Without files (fun d g => gone d g ∨
      d = repo ++ [e.archn] ∧ e.Stale files tmplp repo g) s'.files := by
  have hfns : ∀ fn ∈ (s.files (repo ++ [e.archn])).filter isApk, ∃ pn ver, FileOf fn pn ver := by
    intro fn hfn
    obtain ⟨hmem, hapk⟩ := List.mem_filter.mp hfn
    exact hnamed repo hrepo fn ((h _ fn).mp hmem).1 hapk
  have hloop := Without.pruneFiles (s := { s with touched := false }) hdry hlayout hrepo hcat _ hfns
    hgone h
  have hdone : Without files (fun d g => gone d g ∨ d = repo ++ [e.archn] ∧
      e.Stale files tmplp repo g) (((s.files (repo ++ [e.archn])).filter isApk).foldl
        (e.pruneFile tmplp repo) { s with touched := false }).files := by
    apply hloop.congr
    intro d g hmem
    constructor
    · rintro (hg | ⟨hd, -, hst⟩)
      · exact Or.inl hg
      · exact Or.inr ⟨hd, hst⟩
    · rintro (hg | ⟨hd, hst⟩)
      · exact Or.inl hg
      · by_cases hg : gone d g
        · exact Or.inl hg
        · subst hd
          have hapk : isApk g = true := by
            obtain ⟨pn, ver, hfile, -⟩ := hst
            exact hfile.isApk
          have hthere : g ∈ s.files (repo ++ [e.archn]) := (h _ g).mpr ⟨hmem, hg⟩
          exact Or.inr ⟨rfl, List.mem_filter.mpr ⟨hthere, hapk⟩, hst⟩
  unfold Surroundings.prune
  rw [hcat]
  dsimp only [Option.bind_eq_bind, Option.bind_some]
  split
  · exact ⟨_, rfl, hdone⟩
  · exact ⟨_, rfl, hdone⟩

/-- Those that are to be deleted in the repositories of a list. -/
def RemovedIn (e : Surroundings) (repos rs : List Path) (files : Path → List Str) (d : Path)
    (fn : Str) : Prop :=
  ∃ repo tmplp, e.Visited repos repo ∧ repo ∈ rs ∧ e.category repo = some tmplp ∧
    d = repo ++ [e.archn] ∧ e.Stale files tmplp repo fn

section RemovedIn

variable {rs rest : List Path} {repo d : Path} {fn : Str}

theorem RemovedIn.mono {rs' : List Path} (h : e.RemovedIn repos rs files d fn)
    (hsub : ∀ r, e.Visited repos r → r ∈ rs → r ∈ rs') : e.RemovedIn repos rs' files d fn := by
  obtain ⟨r, t, hr, hmem, hrem⟩ := h
  exact ⟨r, t, hr, hsub r hr hmem, hrem⟩

/-- A repository that is skipped has nothing to add. -/
theorem removedIn_skip (hskip : ¬ e.repository <+: repo ∨ repo ∈ rs) :
    e.RemovedIn repos (rs ++ rest) files d fn ↔
      e.RemovedIn repos (rs ++ repo :: rest) files d fn := by
  constructor
  · intro h
    refine h.mono fun r _ hmem => ?_
    rw [List.mem_append] at hmem ⊢
    exact hmem.imp id (List.mem_cons_of_mem repo)
  · intro h
    refine h.mono fun r hr hmem => ?_
    rcases List.mem_append.mp hmem with hmem | hmem
    · exact List.mem_append_left _ hmem
    · rcases List.mem_cons.mp hmem with rfl | hmem
      · rcases hskip with hbelow | hseen
        · exact absurd hr.below hbelow
        · exact List.mem_append_left _ hseen
      · exact List.mem_append_right _ hmem

/-- Nor has one that is not visited. -/
theorem removedIn_cons_of_not (hno : ¬ e.Visited repos repo) :
    e.RemovedIn repos rs files d fn ↔ e.RemovedIn repos (repo :: rs) files d fn := by
  constructor
  · exact fun h => h.mono fun _ _ => List.mem_cons_of_mem repo
  · intro h
    refine h.mono fun r hr hmem => ?_
    rcases List.mem_cons.mp hmem with rfl | hmem
    · exact absurd hr hno
    · exact hmem

theorem removedIn_cons (hrepo : e.Visited repos repo) {tmplp : Path}
    (hcat : e.category repo = some tmplp) :
    (e.RemovedIn repos rs files d fn ∨ d = repo ++ [e.archn] ∧ e.Stale files tmplp repo fn) ↔
      e.RemovedIn repos (repo :: rs) files d fn := by
  constructor
  · rintro (h | ⟨hd, hst⟩)
    · exact h.mono fun _ _ => List.mem_cons_of_mem repo
    · exact ⟨repo, tmplp, hrepo, List.mem_cons_self, hcat, hd, hst⟩
  · rintro ⟨r, t, hr, hmem, hrcat, hd, hst⟩
    rcases List.mem_cons.mp hmem with heq | hmem
    · subst heq
      have ht : tmplp = t := Option.some.inj (hcat.symm.trans hrcat)
      rw [ht]
      exact Or.inr ⟨hd, hst⟩
    · exact Or.inl ⟨r, t, hr, hmem, hrcat, hd, hst⟩

theorem removedIn_middle : e.RemovedIn repos ((repo :: rs) ++ rest) files d fn ↔
    e.RemovedIn repos (rs ++ repo :: rest) files d fn := by
  have hperm : ∀ r : Path, r ∈ (repo :: rs) ++ rest ↔ r ∈ rs ++ repo :: rest := by
    intro r
    exact (List.perm_middle.mem_iff).symm
  unfold RemovedIn
  simp only [hperm]

end RemovedIn

theorem Without.go (hdry : e.dryrun = false) (hlayout : e.Layout repos)
    (hnamed : e.Named repos files) (rest reposet : List Path) (hrest : rest ⊆ repos)
    (h : Without files (RemovedIn e repos reposet files) s.files) :
    ∃ s', doPruneRemoved.go e rest reposet s = some s' ∧
      Without files (RemovedIn e repos (reposet ++ rest) files) s'.files := by
  induction rest generalizing reposet s with
  | nil =>
      refine ⟨s, rfl, ?_⟩
      rw [List.append_nil]
      exact h
  | cons repo rest ih =>
      have hsub : rest ⊆ repos := fun r hr => hrest (List.mem_cons_of_mem repo hr)
      unfold doPruneRemoved.go
      split
      next hskip =>
        obtain ⟨s', hs', hw⟩ := ih reposet hsub h
        exact ⟨s', hs', hw.congr fun _ _ _ => removedIn_skip hskip⟩
      next hskip =>
        have hbelow : e.repository <+: repo := by
          by_contra hnot
          exact hskip (Or.inl hnot)
        split
        next hdir =>
          have hno : ¬ e.Visited repos repo := fun hr => hdir hr.dir
          obtain ⟨s', hs', hw⟩ := ih (repo :: reposet) hsub
            (h.congr fun _ _ _ => removedIn_cons_of_not hno)
          exact ⟨s', hs', hw.congr fun _ _ _ => removedIn_middle⟩
        next hdir =>
          have hrepo : e.Visited repos repo :=
            ⟨hrest List.mem_cons_self, hbelow, by simpa using hdir⟩
          obtain ⟨tmplp, hcat⟩ := Option.isSome_iff_exists.mp (hlayout.category repo hrepo)
          have hgone : ∀ d fn, RemovedIn e repos reposet files d fn →
              e.Removed repos files d fn := by
            rintro d fn ⟨r, t, hr, -, hrem⟩
            exact ⟨r, t, hr, hrem⟩
          obtain ⟨s₁, hs₁, hw₁⟩ := h.prune hdry hlayout hnamed hrepo hcat hgone
          obtain ⟨s', hs', hw⟩ := ih (repo :: reposet) hsub
            (hw₁.congr fun _ _ _ => removedIn_cons hrepo hcat)
          refine ⟨s', ?_, hw.congr fun _ _ _ => removedIn_middle⟩
          rw [hs₁]
          exact hs'

theorem doPruneRemoved_without (hdry : e.dryrun = false) (hlayout : e.Layout repos)
    (hnamed : e.Named repos s.files) : ∃ s', e.doPruneRemoved repos s = some s' ∧
      Without s.files (e.Removed repos s.files) s'.files := by
  have hstart : Without s.files (RemovedIn e repos [] s.files) s.files := by
    intro d fn
    constructor
    · intro hmem
      refine ⟨hmem, ?_⟩
      rintro ⟨r, t, -, hr, -⟩
      cases hr
    · exact And.left
  obtain ⟨s', hs', hw⟩ := hstart.go hdry hlayout hnamed repos [] (List.Subset.refl repos)
  refine ⟨s', hs', hw.congr ?_⟩
  intro d fn _
  constructor
  · rintro ⟨r, t, hr, -, hrem⟩
    exact ⟨r, t, hr, hrem⟩
  · rintro ⟨r, t, hr, hrem⟩
    exact ⟨r, t, hr, hr.mem, hrem⟩

/-! ## The order of the visits, and a second run -/

variable {repos' : List Path}

theorem Visited.mono (h : e.Visited repos' repo) (hsub : repos' ⊆ repos) : e.Visited repos repo :=
  ⟨hsub h.mem, h.below, h.dir⟩

theorem Layout.mono (h : e.Layout repos) (hsub : repos' ⊆ repos) : e.Layout repos' := by
  constructor
  · intro repo hrepo
    exact h.category repo (hrepo.mono hsub)
  · intro repo hrepo hparent
    exact h.sub repo (hrepo.mono hsub) (hparent.mono hsub)

theorem stale_congr (h : ∀ d fn, fn ∈ files' d ↔ fn ∈ files d) :
    e.Stale files' tmplp repo fn ↔ e.Stale files tmplp repo fn := by
  unfold Stale Based
  simp only [h]

/-- Exactly the files of removed packages are deleted. Neither the order of the repositories nor
that of their files matters, and what is left stays in a second run. -/
theorem doPruneRemoved_exact (e : Surroundings) (repos : List Path) (s : Repos)
    (hdry : e.dryrun = false) (hlayout : e.Layout repos) (hnamed : e.Named repos s.files) :
    ∃ s', e.doPruneRemoved repos s = some s' ∧
      (∀ d fn, fn ∈ s'.files d ↔ fn ∈ s.files d ∧ ¬ e.Removed repos s.files d fn) ∧
      (∀ repos' s₂, repos'.Perm repos → (∀ d, (s₂.files d).Perm (s.files d)) →
        ∃ s₂', e.doPruneRemoved repos' s₂ = some s₂' ∧
          ∀ d fn, fn ∈ s₂'.files d ↔ fn ∈ s'.files d) ∧
      ∀ repos' ⊆ repos, ∃ s'', e.doPruneRemoved repos' s' = some s'' ∧
        ∀ d fn, fn ∈ s''.files d ↔ fn ∈ s'.files d := by
  obtain ⟨s', hs', hw⟩ := doPruneRemoved_without hdry hlayout hnamed
  refine ⟨s', hs', hw, ?_, ?_⟩
  · intro repos' s₂ hperm hfiles
    have hsame : ∀ d fn, fn ∈ s₂.files d ↔ fn ∈ s.files d := fun d fn => (hfiles d).mem_iff
    have hnamed₂ : e.Named repos' s₂.files := by
      intro repo hrepo fn hfn
      exact hnamed repo (hrepo.mono hperm.subset) fn ((hsame _ fn).mp hfn)
    obtain ⟨s₂', hs₂', hw₂⟩ := doPruneRemoved_without hdry (hlayout.mono hperm.subset) hnamed₂
    refine ⟨s₂', hs₂', ?_⟩
    intro d fn
    have hremoved : e.Removed repos' s₂.files d fn ↔ e.Removed repos s.files d fn := by
      unfold Removed
      constructor
      · rintro ⟨r, t, hr, hcat, hd, hst⟩
        exact ⟨r, t, hr.mono hperm.subset, hcat, hd, (stale_congr hsame).mp hst⟩
      · rintro ⟨r, t, hr, hcat, hd, hst⟩
        exact ⟨r, t, hr.mono hperm.symm.subset, hcat, hd, (stale_congr hsame).mpr hst⟩
    rw [hw₂ d fn, hw d fn, hremoved, hsame]
  · intro repos' hsub
    have hnamed' : e.Named repos' s'.files := by
      intro repo hrepo fn hfn
      exact hnamed repo (hrepo.mono hsub) fn ((hw _ fn).mp hfn).1
    obtain ⟨s'', hs'', hw''⟩ := doPruneRemoved_without hdry (hlayout.mono hsub) hnamed'
    refine ⟨s'', hs'', ?_⟩
    intro d fn
    rw [hw'' d fn]
    constructor
    · exact And.left
    · intro hmem
      refine ⟨hmem, ?_⟩
      rintro ⟨r, t, hr, hcat, hd, hst⟩
      have hr' := hr.mono hsub
      have hstale : e.Stale s.files t r fn :=
        ((hw.among fun _ _ h => h).stale_iff hlayout hr' hcat).mp hst
      exact ((hw d fn).mp hmem).2 ⟨r, t, hr', hcat, hd, hstale⟩

end Surroundings

/-- A repository with one for debug files in it: the debug files of a package that is there, of
one in another version, and a package without a template. -/
def debugRepos : Repos where
  files := fun d =>
    if d = ["repo".toList, "main".toList, "x86_64".toList] then
      ["foo-1.1-r0.apk".toList, "old-2-r0.apk".toList]
    else if d = ["repo".toList, "main".toList, "debug".toList, "x86_64".toList] then
      ["foo-dbg-1.0-r0.apk".toList, "foo-dbg-1.1-r0.apk".toList]
    else []
  log := []
  touched := false
  indexed := []

def debugSurroundings : Surroundings where
  distdir := ["cports".toList]
  repository := ["repo".toList]
  archn := "x86_64".toList
  dryrun := false
  isDir := fun p => p ∈ [["cports".toList, "main".toList],
    ["repo".toList, "main".toList, "x86_64".toList],
    ["repo".toList, "main".toList, "debug".toList, "x86_64".toList]]
  hasTemplate := fun p => p = ["cports".toList, "main".toList, "foo".toList]
  lexists := fun p => p = ["cports".toList, "main".toList, "foo".toList]

def debugPaths : List Path :=
  [["repo".toList, "main".toList], ["repo".toList, "main".toList, "debug".toList]]

theorem debugRepos_layout : debugSurroundings.Layout debugPaths := by
  constructor
  · intro repo hrepo
    have hmem := hrepo.mem
    simp only [debugPaths, List.mem_cons, List.not_mem_nil, or_false] at hmem
    rcases hmem with rfl | rfl <;> decide
  · intro repo hrepo hparent
    have hmem := hrepo.mem
    simp only [debugPaths, List.mem_cons, List.not_mem_nil, or_false] at hmem
    rcases hmem with rfl | rfl
    · exact absurd hparent.mem (by decide)
    · decide

theorem debugRepos_named : debugSurroundings.Named debugPaths debugRepos.files := by
  intro repo hrepo fn hfn _
  have hmem := hrepo.mem
  simp only [debugPaths, List.mem_cons, List.not_mem_nil, or_false] at hmem
  rcases hmem with rfl | rfl
  · have hfiles : fn ∈ ["foo-1.1-r0.apk".toList, "old-2-r0.apk".toList] := hfn
    simp only [List.mem_cons, List.not_mem_nil, or_false] at hfiles
    rcases hfiles with rfl | rfl
    · exact ⟨"foo".toList, "1.1-r0".toList, by decide, ⟨"1.1".toList, "0".toList, by decide⟩,
        by decide +kernel⟩
    · exact ⟨"old".toList, "2-r0".toList, by decide, ⟨"2".toList, "0".toList, by decide⟩,
        by decide +kernel⟩
  · have hfiles : fn ∈ ["foo-dbg-1.0-r0.apk".toList, "foo-dbg-1.1-r0.apk".toList] := hfn
    simp only [List.mem_cons, List.not_mem_nil, or_false] at hfiles
    rcases hfiles with rfl | rfl
    · exact ⟨"foo-dbg".toList, "1.0-r0".toList, by decide, ⟨"1.0".toList, "0".toList, by decide⟩,
        by decide +kernel⟩
    · exact ⟨"foo-dbg".toList, "1.1-r0".toList, by decide, ⟨"1.1".toList, "0".toList, by decide⟩,
        by decide +kernel⟩

theorem debugRepos_exact : ∃ s', debugSurroundings.doPruneRemoved debugPaths debugRepos = some s' ∧
    (∀ d fn, fn ∈ s'.files d ↔ fn ∈ debugRepos.files d ∧
      ¬ debugSurroundings.Removed debugPaths debugRepos.files d fn) ∧
    (∀ repos' s₂, repos'.Perm debugPaths → (∀ d, (s₂.files d).Perm (debugRepos.files d)) →
      ∃ s₂', debugSurroundings.doPruneRemoved repos' s₂ = some s₂' ∧
        ∀ d fn, fn ∈ s₂'.files d ↔ fn ∈ s'.files d) ∧
    ∀ repos' ⊆ debugPaths, ∃ s'', debugSurroundings.doPruneRemoved repos' s' = some s'' ∧
      ∀ d fn, fn ∈ s''.files d ↔ fn ∈ s'.files d :=
  Surroundings.doPruneRemoved_exact debugSurroundings debugPaths debugRepos rfl debugRepos_layout
    debugRepos_named

end Cbuild.Repo
