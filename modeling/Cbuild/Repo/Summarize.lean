import Cbuild.Apk.Match
import Cbuild.Apk.VersionOrder
import Cbuild.Lib.Latest
import Cbuild.Repo.FileName

/-! # The files of a repository that count

`summarize_repo` of `cbuild/apk/cli.py` keeps one file for each package name, the
newest one by the time of modification and then by the version; the index lists
those, and `prune` deletes the others.
-/

namespace Cbuild.Repo

open Apk Lib

/-- What is read of a file. It is also the pair that `rtimes` has for a name. -/
structure Package (τ : Type) where
  mtime : τ
  name : Str
  deriving DecidableEq

structure Summary (τ : Type) where
  rtimes : Dict Str (Package τ)
  obsolete : List Str
  log : List Str

namespace Summary

variable {τ : Type}

def malformed (fn : Str) : Str :=
  "\x0c[orange]WARNING: Malformed file name found, skipping: ".toList ++ fn

def lower (fromf tof : Str) : Str :=
  "\x0c[orange]WARNING: Using lower version (".toList ++ fromf ++ " => ".toList ++ tof ++
    "): newer timestamp...".toList

def warn (quiet : Bool) (s : Summary τ) (line : Str) : Summary τ :=
  if quiet then s else { s with log := s.log ++ [line] }

/-- The warning about a newer file of a lower version. The comparison is not strict. -/
def warnLower (quiet : Bool) (s : Summary τ) (fromf fromv tof tov : Str) : Summary τ :=
  if versionCompareOp tov fromv = .lt then s.warn quiet (lower fromf tof) else s

variable [LinearOrder τ]

/-- One file of the loop; no value stands for the `RuntimeError` on a version that is not
valid. -/
def step (quiet : Bool) (s : Summary τ) (f : Package τ) : Option (Summary τ) :=
  let pf := stem f.name
  let rd := nameEnd pf
  if rd < 0 then some (s.warn quiet (malformed f.name))
  else
    let pn := pf.take rd.toNat
    let fv := pf.drop (rd.toNat + 1)
    match s.rtimes.get pn with
    | none => some { s with rtimes := s.rtimes.set pn f }
    | some o =>
        let ov := (stem o.name).drop (rd.toNat + 1)
        let taken := { s with rtimes := s.rtimes.set pn f, obsolete := s.obsolete ++ [o.name] }
        let left := { s with obsolete := s.obsolete ++ [f.name] }
        if o.mtime < f.mtime then some (taken.warnLower quiet o.name ov f.name fv)
        else if f.mtime < o.mtime then some (left.warnLower quiet f.name fv o.name ov)
        else (versionCompare fv ov).map fun c => if c = .gt then taken else left

end Summary

variable {τ : Type}

/-- The files that `glob` gives. -/
def apks (repo : List (Package τ)) : List (Package τ) := repo.filter fun f => isApk f.name

/-- `unlink`; no value stands for the error on a file that is not there. -/
def unlink (repo : List (Package τ)) (fn : Str) : Option (List (Package τ)) :=
  if fn ∈ repo.map Package.name then some (repo.filter fun f => f.name ≠ fn) else none

section
variable [LinearOrder τ]

/-- `summarize_repo`: the list it appends to, and the rest of what it has come to. -/
def summarizeRepo (repo : List (Package τ)) (olist : List Str) (quiet : Bool) :
    Option (List Str × Summary τ) :=
  ((apks repo).foldlM (Summary.step quiet) ⟨[], [], []⟩).map fun s =>
    (olist ++ s.rtimes.values.map Package.name, s)

/-- `prune` of a directory that exists. -/
def prune (repo : List (Package τ)) (dry : Bool) : Option (List (Package τ)) := do
  let (_, s) ← summarizeRepo repo [] true
  if dry then some repo else s.obsolete.foldlM unlink repo

end

/-! ## What the loop keeps -/

/-- The summary stands for what has been picked so far. -/
structure Stands (s : Summary τ) (p : Picked Str (Package τ)) : Prop where
  rtimes : s.rtimes = p.kept
  obsolete : s.obsolete = p.passed.map Package.name
  named : ∀ x ∈ p.kept, ∃ ver, FileOf x.2.name x.1 ver

theorem Stands.warn {s : Summary τ} {p : Picked Str (Package τ)} (h : Stands s p) (quiet : Bool)
    (line : Str) : Stands (s.warn quiet line) p := by
  unfold Summary.warn
  split
  · exact h
  · exact ⟨h.rtimes, h.obsolete, h.named⟩

theorem Stands.warnLower {s : Summary τ} {p : Picked Str (Package τ)} (h : Stands s p)
    (quiet : Bool) (fromf fromv tof tov : Str) :
    Stands (s.warnLower quiet fromf fromv tof tov) p := by
  unfold Summary.warnLower
  split
  · exact h.warn quiet _
  · exact h

theorem named_set {d : Dict Str (Package τ)} {pn ver : Str} {f : Package τ}
    (hd : ∀ x ∈ d, ∃ ver, FileOf x.2.name x.1 ver) (hf : FileOf f.name pn ver) :
    ∀ x ∈ d.set pn f, ∃ ver, FileOf x.2.name x.1 ver := by
  intro x hx
  unfold Dict.set at hx
  split at hx
  · obtain ⟨y, hy, rfl⟩ := List.mem_map.mp hx
    by_cases hkey : y.1 = pn
    · rw [if_pos hkey]
      exact ⟨ver, hf⟩
    · rw [if_neg hkey]
      exact hd y hy
  · rcases List.mem_append.mp hx with hx | hx
    · exact hd x hx
    · rw [List.mem_singleton.mp hx]
      exact ⟨ver, hf⟩

/-! ## The order of the files -/

def Package.pname (f : Package τ) : Str := (stem f.name).take (nameEnd (stem f.name)).toNat

def Package.version (f : Package τ) : Str :=
  (stem f.name).drop ((nameEnd (stem f.name)).toNat + 1)

theorem Package.pname_eq {f : Package τ} {pn ver : Str} (h : FileOf f.name pn ver) :
    f.pname = pn := h.name_eq

theorem Package.version_eq {f : Package τ} {pn ver : Str} (h : FileOf f.name pn ver) :
    f.version = ver := by
  unfold Package.version
  rw [h.stem_eq, h.nameEnd_eq, Int.toNat_natCast, ← h.stem_eq]
  exact h.version_eq

/-- The files are those of packages in valid versions. -/
def Named (repo : List (Package τ)) : Prop := ∀ f ∈ apks repo, FileOf f.name f.pname f.version

/-- Two files of one package that differ neither in their times nor in their versions. -/
structure Tied (f g : Package τ) : Prop where
  pname : f.pname = g.pname
  mtime : f.mtime = g.mtime
  version : versionCompareOp f.version g.version = .eq

/-- The names of what is kept are names of no other file. -/
theorem name_mem_iff {repo : List (Package τ)} (hnames : (repo.map Package.name).Nodup) {fs : List (Package τ)}
    (hfs : ∀ f ∈ fs, f ∈ apks repo) {f : Package τ} (hf : f ∈ apks repo) :
    f.name ∈ fs.map Package.name ↔ f ∈ fs := by
  constructor
  · intro hmem
    obtain ⟨g, hg, heq⟩ := List.mem_map.mp hmem
    have hgf : g = f := List.inj_on_of_nodup_map hnames (List.mem_of_mem_filter (hfs g hg))
      (List.mem_of_mem_filter hf) heq
    rw [← hgf]
    exact hg
  · intro hmem
    exact List.mem_map_of_mem hmem

variable [LinearOrder τ]

/-- By the time of modification, then by the version. -/
def Package.cmp (f g : Package τ) : Ordering :=
  compareLex (fun f g => compare f.mtime g.mtime)
    (fun f g => versionCompareOp f.version g.version) f g

instance : Std.TransCmp (Package.cmp : Package τ → Package τ → Ordering) := by
  have htime : Std.TransCmp fun f g : Package τ => compare f.mtime g.mtime :=
    transCmp_comap Package.mtime
  have hversion : Std.TransCmp fun f g : Package τ => versionCompareOp f.version g.version :=
    transCmp_comap Package.version
  exact inferInstanceAs (Std.TransCmp (compareLex _ _))

/-! ## The loop -/

/-- A file either takes the place of the one kept or is obsolete, as the order says. -/
theorem Stands.step {s : Summary τ} {p : Picked Str (Package τ)} (h : Stands s p) (quiet : Bool)
    {f : Package τ} {pn ver : Str} (hf : FileOf f.name pn ver) :
    ∃ s', s.step quiet f = some s' ∧ Stands s' (p.step Package.pname Package.cmp f) := by
  have hpn : f.pname = pn := Package.pname_eq hf
  have hpos : ¬ ((pn.length : Int) < 0) := by omega
  have htake : (pn ++ '-' :: ver).take pn.length = pn := List.take_left
  have hfv : (pn ++ '-' :: ver).drop (pn.length + 1) = ver := by
    rw [← hf.stem_eq]
    exact hf.version_eq
  unfold Summary.step Picked.step
  dsimp only
  rw [hf.stem_eq, hf.nameEnd_eq, if_neg hpos, Int.toNat_natCast, htake, hfv, hpn, h.rtimes]
  cases hget : p.kept.get pn with
  | none => exact ⟨_, rfl, rfl, h.obsolete, named_set h.named hf⟩
  | some o =>
      obtain ⟨oldver, ho⟩ := h.named (pn, o) (Dict.mem_of_get hget)
      have hov : (stem o.name).drop (pn.length + 1) = oldver := ho.version_eq
      have hcmp : Package.cmp f o =
          (compare f.mtime o.mtime).then (versionCompareOp ver oldver) := by
        show (compare f.mtime o.mtime).then (versionCompareOp f.version o.version) = _
        rw [Package.version_eq hf, Package.version_eq ho]
      have htaken : Stands ⟨p.kept.set pn f, s.obsolete ++ [o.name], s.log⟩
          ⟨p.kept.set pn f, p.passed ++ [o]⟩ := by
        refine ⟨rfl, ?_, named_set h.named hf⟩
        show s.obsolete ++ [o.name] = (p.passed ++ [o]).map Package.name
        rw [h.obsolete, List.map_append]
        rfl
      have hleft : Stands ⟨p.kept, s.obsolete ++ [f.name], s.log⟩ ⟨p.kept, p.passed ++ [f]⟩ := by
        refine ⟨rfl, ?_, h.named⟩
        show s.obsolete ++ [f.name] = (p.passed ++ [f]).map Package.name
        rw [h.obsolete, List.map_append]
        rfl
      dsimp only
      rw [hov, hcmp]
      rcases lt_trichotomy f.mtime o.mtime with hlt | heq | hgt
      · rw [if_neg hlt.asymm, if_pos hlt, compare_lt_iff_lt.mpr hlt]
        exact ⟨_, rfl, hleft.warnLower quiet _ _ _ _⟩
      · have hvalid : versionCompare ver oldver = some (versionCompareOp ver oldver) := by
          unfold versionCompare
          rw [hf.valid, ho.valid]
          rfl
        rw [heq, if_neg (lt_irrefl _), if_neg (lt_irrefl _), compare_eq_iff_eq.mpr rfl, hvalid]
        refine ⟨_, rfl, ?_⟩
        cases versionCompareOp ver oldver with
        | gt => exact htaken
        | lt | eq => exact hleft
      · rw [if_pos hgt, compare_gt_iff_gt.mpr hgt]
        exact ⟨_, rfl, htaken.warnLower quiet _ _ _ _⟩

theorem Stands.run {s : Summary τ} {p : Picked Str (Package τ)} (h : Stands s p) (quiet : Bool)
    {fs : List (Package τ)} (hfs : ∀ f ∈ fs, FileOf f.name f.pname f.version) :
    ∃ s', fs.foldlM (Summary.step quiet) s = some s' ∧
      Stands s' (fs.foldl (Picked.step Package.pname Package.cmp) p) := by
  induction fs generalizing s p with
  | nil => exact ⟨s, rfl, h⟩
  | cons f fs ih =>
      obtain ⟨s₁, hs₁, h₁⟩ := h.step quiet (hfs f List.mem_cons_self)
      obtain ⟨s', hs', h'⟩ := ih h₁ fun g hg => hfs g (List.mem_cons_of_mem f hg)
      refine ⟨s', ?_, h'⟩
      rw [List.foldlM_cons, hs₁]
      exact hs'

theorem summarizeRepo_stands {repo : List (Package τ)} (hnamed : Named repo) (olist : List Str)
    (quiet : Bool) : ∃ s, summarizeRepo repo olist quiet =
      some (olist ++ s.rtimes.values.map Package.name, s) ∧
      Stands s (Picked.pick Package.pname Package.cmp (apks repo)) := by
  have hstart : Stands (⟨[], [], []⟩ : Summary τ) ⟨[], []⟩ := by
    refine ⟨rfl, rfl, ?_⟩
    intro x hx
    cases hx
  obtain ⟨s, hs, h⟩ := hstart.run quiet hnamed
  refine ⟨s, ?_, h⟩
  unfold summarizeRepo
  rw [hs]
  rfl

/-! ## What is kept -/

/-- `kept` has one file of each package, a newest one, and `obsolete` has the others. -/
structure Partition (repo : List (Package τ)) (kept obsolete : List Str) : Prop where
  perm : (kept ++ obsolete).Perm ((apks repo).map Package.name)
  nodup : (kept ++ obsolete).Nodup
  one : ∀ f ∈ apks repo, ∀ g ∈ apks repo, f.name ∈ kept → g.name ∈ kept → f.pname = g.pname → f = g
  newest : ∀ f ∈ apks repo, ∃ g ∈ apks repo, g.name ∈ kept ∧ g.pname = f.pname ∧
    (f.mtime < g.mtime ∨ f.mtime = g.mtime ∧ (versionCompareOp f.version g.version).isLE)

variable {repo : List (Package τ)}

theorem le_of_cmp {f g : Package τ} (h : Package.cmp f g ≠ .gt) : f.mtime < g.mtime ∨
    f.mtime = g.mtime ∧ (versionCompareOp f.version g.version).isLE := by
  change (compare f.mtime g.mtime).then (versionCompareOp f.version g.version) ≠ .gt at h
  rcases lt_trichotomy f.mtime g.mtime with hlt | heq | hgt
  · exact Or.inl hlt
  · right
    rw [compare_eq_iff_eq.mpr heq] at h
    refine ⟨heq, ?_⟩
    cases hc : versionCompareOp f.version g.version with
    | gt => exact absurd hc h
    | lt | eq => rfl
  · rw [compare_gt_iff_gt.mpr hgt] at h
    exact absurd rfl h

theorem tied_of_cmp {f g : Package τ} (hname : g.pname = f.pname) (h : Package.cmp f g = .eq) :
    Tied f g := by
  change (compare f.mtime g.mtime).then (versionCompareOp f.version g.version) = .eq at h
  rw [Ordering.then_eq_eq] at h
  exact ⟨hname.symm, compare_eq_iff_eq.mp h.1, h.2⟩

theorem partition_of_stands (hnames : (repo.map Package.name).Nodup) {s : Summary τ}
    (h : Stands s (Picked.pick Package.pname Package.cmp (apks repo))) :
    Partition repo (s.rtimes.values.map Package.name) s.obsolete := by
  have hpicks := Picked.picks Package.pname Package.cmp (apks repo)
  have hkept : ∀ f ∈ s.rtimes.values, f ∈ apks repo := by
    intro f hf
    rw [h.rtimes] at hf
    exact hpicks.mem_of_kept hf
  have hperm : (s.rtimes.values.map Package.name ++ s.obsolete).Perm
      ((apks repo).map Package.name) := by
    rw [h.rtimes, h.obsolete, ← List.map_append]
    exact hpicks.perm.map Package.name
  constructor
  · exact hperm
  · exact hperm.nodup_iff.mpr (List.Nodup.sublist (List.filter_sublist.map _) hnames)
  · intro f hf g hg hfk hgk hname
    rw [name_mem_iff hnames hkept hf, h.rtimes, hpicks.mem_kept_iff] at hfk
    rw [name_mem_iff hnames hkept hg, h.rtimes, hpicks.mem_kept_iff, ← hname, hfk] at hgk
    exact Option.some.inj hgk
  · intro f hf
    obtain ⟨g, hg, hle⟩ := hpicks.greatest f hf
    have hname : g.pname = f.pname := hpicks.key_of_get hg
    have hmem : g ∈ s.rtimes.values := by
      rw [h.rtimes, hpicks.mem_kept_iff, hname]
      exact hg
    exact ⟨g, hkept g hmem, List.mem_map_of_mem hmem, hname, le_of_cmp hle⟩

/-- A file is kept in one order that is obsolete in another only if it changes places with one
that it is tied with. -/
theorem exchanged {repo' : List (Package τ)} (hperm : repo'.Perm repo)
    (hnames : (repo.map Package.name).Nodup) {s s' : Summary τ}
    (h : Stands s (Picked.pick Package.pname Package.cmp (apks repo)))
    (h' : Stands s' (Picked.pick Package.pname Package.cmp (apks repo'))) {f : Package τ}
    (hf : f.name ∈ s.rtimes.values.map Package.name) (hapk : f ∈ apks repo)
    (hf' : f.name ∉ s'.rtimes.values.map Package.name) :
    ∃ g ∈ apks repo, Tied f g ∧ g.name ∉ s.rtimes.values.map Package.name ∧
      g.name ∈ s'.rtimes.values.map Package.name := by
  have hapks : (apks repo').Perm (apks repo) := hperm.filter _
  have hpicks := Picked.picks Package.pname Package.cmp (apks repo)
  have hpicks' := Picked.picks Package.pname Package.cmp (apks repo')
  have hpart := partition_of_stands hnames h
  have hkept : ∀ f ∈ s.rtimes.values, f ∈ apks repo := by
    intro f hf
    rw [h.rtimes] at hf
    exact hpicks.mem_of_kept hf
  have hfk := (name_mem_iff hnames hkept hapk).mp hf
  rw [h.rtimes] at hfk
  obtain ⟨g, hg, hname, hcmp⟩ := hpicks.tied hpicks' hapks hfk
  have hgapk := hapks.mem_iff.mp (hpicks'.mem_of_kept hg)
  rw [← h'.rtimes] at hg
  refine ⟨g, hgapk, tied_of_cmp hname hcmp, ?_, List.mem_map_of_mem hg⟩
  intro hgk
  have hfg := hpart.one f hapk g hgapk hf hgk hname.symm
  rw [hfg] at hf'
  exact hf' (List.mem_map_of_mem hg)

/-- The files are parted into one newest file of each package and the obsolete ones, and the
order of the files matters between tied ones only. -/
theorem summarizeRepo_newest (repo : List (Package τ)) (hnames : (repo.map Package.name).Nodup)
    (hnamed : Named repo) (olist : List Str) (quiet : Bool) :
    ∃ kept s, summarizeRepo repo olist quiet = some (olist ++ kept, s) ∧
      Partition repo kept s.obsolete ∧
      ∀ repo', repo'.Perm repo → ∀ olist' quiet', ∃ kept' s',
        summarizeRepo repo' olist' quiet' = some (olist' ++ kept', s') ∧
        Partition repo kept' s'.obsolete ∧
        ∀ f ∈ apks repo, (f.name ∈ kept ↔ f.name ∈ kept') ∨
          ∃ g ∈ apks repo, Tied f g ∧ (g.name ∈ kept ↔ f.name ∈ kept') ∧
            (f.name ∈ kept ↔ g.name ∈ kept') := by
  obtain ⟨s, hs, h⟩ := summarizeRepo_stands hnamed olist quiet
  refine ⟨_, s, hs, partition_of_stands hnames h, ?_⟩
  intro repo' hperm olist' quiet'
  have hnamed' : Named repo' := fun f hf => hnamed f ((hperm.filter _).mem_iff.mp hf)
  have hnames' : (repo'.map Package.name).Nodup := (hperm.map Package.name).nodup_iff.mpr hnames
  obtain ⟨s', hs', h'⟩ := summarizeRepo_stands hnamed' olist' quiet'
  have hpart' := partition_of_stands hnames' h'
  have hapks : (apks repo').Perm (apks repo) := hperm.filter _
  refine ⟨_, s', hs', ?_, ?_⟩
  · constructor
    · exact hpart'.perm.trans (hapks.map Package.name)
    · exact hpart'.nodup
    · intro f hf g hg
      exact hpart'.one f (hapks.mem_iff.mpr hf) g (hapks.mem_iff.mpr hg)
    · intro f hf
      obtain ⟨g, hg, hrest⟩ := hpart'.newest f (hapks.mem_iff.mpr hf)
      exact ⟨g, hapks.mem_iff.mp hg, hrest⟩
  · intro f hf
    by_cases hk : f.name ∈ s.rtimes.values.map Package.name
    · by_cases hk' : f.name ∈ s'.rtimes.values.map Package.name
      · exact Or.inl ⟨fun _ => hk', fun _ => hk⟩
      · obtain ⟨g, hg, htied, hgk, hgk'⟩ := exchanged hperm hnames h h' hk hf hk'
        exact Or.inr ⟨g, hg, htied, ⟨fun hm => absurd hm hgk, fun hm => absurd hm hk'⟩,
          ⟨fun _ => hgk', fun _ => hk⟩⟩
    · by_cases hk' : f.name ∈ s'.rtimes.values.map Package.name
      · obtain ⟨g, hg, htied, hgk', hgk⟩ :=
          exchanged hperm.symm hnames' h' h hk' (hapks.mem_iff.mpr hf) hk
        exact Or.inr ⟨g, hapks.mem_iff.mp hg, htied, ⟨fun _ => hk', fun _ => hgk⟩,
          ⟨fun hm => absurd hm hk, fun hm => absurd hm hgk'⟩⟩
      · exact Or.inl ⟨fun hm => absurd hm hk, fun hm => absurd hm hk'⟩

/-- Two versions of one package, the later one built first, and another package. -/
def threeFiles : List (Package Nat) :=
  [⟨2, "foo-1.0-r0.apk".toList⟩, ⟨1, "foo-1.1-r0.apk".toList⟩, ⟨1, "bar-2-r3.apk".toList⟩]

theorem threeFiles_newest : ∃ kept s, summarizeRepo threeFiles [] false = some ([] ++ kept, s) ∧
    Partition threeFiles kept s.obsolete ∧
    ∀ repo', repo'.Perm threeFiles → ∀ olist' quiet', ∃ kept' s',
      summarizeRepo repo' olist' quiet' = some (olist' ++ kept', s') ∧
      Partition threeFiles kept' s'.obsolete ∧
      ∀ f ∈ apks threeFiles, (f.name ∈ kept ↔ f.name ∈ kept') ∨
        ∃ g ∈ apks threeFiles, Tied f g ∧ (g.name ∈ kept ↔ f.name ∈ kept') ∧
          (f.name ∈ kept ↔ g.name ∈ kept') := by
  refine summarizeRepo_newest threeFiles (by decide) ?_ [] false
  intro f hf
  have hmem : f ∈ threeFiles := List.mem_of_mem_filter hf
  simp only [threeFiles, List.mem_cons, List.not_mem_nil, or_false] at hmem
  rcases hmem with rfl | rfl | rfl
  · exact ⟨by decide, ⟨"1.0".toList, "0".toList, by decide⟩, by decide +kernel⟩
  · exact ⟨by decide, ⟨"1.1".toList, "0".toList, by decide⟩, by decide +kernel⟩
  · exact ⟨by decide, ⟨"2".toList, "3".toList, by decide⟩, by decide +kernel⟩

/-! ## Pruning -/

omit [LinearOrder τ] in
/-- Names that are there, none of them twice, can be deleted one by one. -/
theorem unlink_all {fns : List Str} (repo : List (Package τ)) (hfns : fns.Nodup)
    (hmem : ∀ fn ∈ fns, fn ∈ repo.map Package.name) :
    fns.foldlM unlink repo = some (repo.filter fun f => f.name ∉ fns) := by
  induction fns generalizing repo with
  | nil => simp
  | cons fn fns ih =>
      have hnodup := List.nodup_cons.mp hfns
      have hthere : fn ∈ repo.map Package.name := hmem fn List.mem_cons_self
      have hrest : ∀ fn' ∈ fns, fn' ∈ (repo.filter fun f => f.name ≠ fn).map Package.name := by
        intro fn' hfn'
        obtain ⟨f, hf, rfl⟩ := List.mem_map.mp (hmem fn' (List.mem_cons_of_mem fn hfn'))
        have hne : f.name ≠ fn := fun heq => hnodup.1 (heq ▸ hfn')
        exact List.mem_map_of_mem (List.mem_filter.mpr ⟨hf, decide_eq_true hne⟩)
      rw [List.foldlM_cons]
      unfold unlink
      rw [if_pos hthere]
      show List.foldlM unlink (repo.filter fun f => f.name ≠ fn) fns = _
      rw [ih _ hnodup.2 hrest, List.filter_filter]
      congr 1
      apply List.filter_congr
      intro f _
      simp [Bool.and_comm]

/-- Pruning deletes every obsolete file, each of them once, and nothing else. -/
theorem prune_leaves (hnames : (repo.map Package.name).Nodup) (hnamed : Named repo) :
    ∃ kept s, summarizeRepo repo [] true = some (kept, s) ∧ Partition repo kept s.obsolete ∧
      prune repo false = some (repo.filter fun f => f.name ∉ s.obsolete) := by
  obtain ⟨s, hs, h⟩ := summarizeRepo_stands hnamed [] true
  have hpart := partition_of_stands hnames h
  refine ⟨_, s, hs, hpart, ?_⟩
  unfold prune
  rw [hs]
  apply unlink_all repo (List.nodup_append.mp hpart.nodup).2.1
  intro fn hfn
  have hapk := hpart.perm.mem_iff.mp (List.mem_append_right _ hfn)
  exact (List.filter_sublist.map Package.name).subset hapk

end Cbuild.Repo
