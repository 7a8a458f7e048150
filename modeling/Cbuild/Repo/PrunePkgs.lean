import Cbuild.Repo.PruneRemoved
import Cbuild.Repo.Summarize

/-! # Pruning the repositories

`do_prune_pkgs` of `runner.py` deletes the older files of each package from every repository, then
the files of packages whose template is gone. What goes with a base package is judged by the files
of the base that the first pass has left.
-/

namespace Cbuild.Repo

open Apk Lib

/-- The packages in the directories. -/
abbrev Store (τ : Type) : Type := Path → List (Package τ)

def Store.names {τ : Type} (st : Store τ) : Path → List Str := fun d => (st d).map Package.name

namespace Surroundings

variable {τ : Type} [LinearOrder τ] (e : Surroundings)

/-- `cli.prune` for a repository and the architecture. -/
def pruneObsolete (repo : Path) (st : Store τ) : Option (Store τ) :=
  let dir := repo ++ [e.archn]
  if e.isDir dir then
    (Repo.prune (st dir) e.dryrun).map fun left => Function.update st dir left
  else some st

/-- The loop of `do_prune_obsolete` over the repositories of the indexes, from those in `reposet`
on. -/
def pruneObsoleteFrom : List Path → List Path → Store τ → Option (Store τ)
  | [], _, st => some st
  | repo :: rest, reposet, st =>
      if ¬ e.repository <+: repo ∨ repo ∈ reposet then pruneObsoleteFrom rest reposet st
      else (e.pruneObsolete repo st).bind (pruneObsoleteFrom rest (repo :: reposet))

/-- `do_prune_obsolete` -/
def doPruneObsolete (repos : List Path) (st : Store τ) : Option (Store τ) :=
  e.pruneObsoleteFrom repos [] st

/-- `do_prune_removed`, with the packages of the files that are left. -/
def pruneRemovedFiles (repos : List Path) (st : Store τ) : Option (Store τ) :=
  (e.doPruneRemoved repos ⟨st.names, [], false, []⟩).map fun s d =>
    (st d).filter fun f => f.name ∈ s.files d

/-- `do_prune_pkgs` -/
def doPrunePkgs (repos : List Path) (st : Store τ) : Option (Store τ) :=
  (e.doPruneObsolete repos st).bind (e.pruneRemovedFiles repos)

end Surroundings

/-! ## What is pruned -/

section

variable {τ : Type} {e : Surroundings} {repos : List Path} {st st' : Store τ}

/-- The repositories have files in valid versions, and no file twice. -/
structure Surroundings.Stocked (e : Surroundings) (repos : List Path) (st : Store τ) : Prop where
  nodup : ∀ repo, e.Visited repos repo → (st.names (repo ++ [e.archn])).Nodup
  named : ∀ repo, e.Visited repos repo → Repo.Named (st (repo ++ [e.archn]))

theorem Surroundings.Stocked.files (h : e.Stocked repos st) : e.Named repos st.names := by
  intro repo hv fn hfn hapk
  obtain ⟨f, hf, rfl⟩ := List.mem_map.mp hfn
  exact ⟨f.pname, f.version, h.named repo hv f (List.mem_filter.mpr ⟨hf, hapk⟩)⟩

theorem Surroundings.Stocked.sublist (h : e.Stocked repos st) (hsub : ∀ d, (st' d).Sublist (st d)) :
    e.Stocked repos st' where
  nodup repo hv := (h.nodup repo hv).sublist ((hsub _).map _)
  named repo hv f hf := h.named repo hv f (((hsub _).filter _).subset hf)

/-- Files are kept if their packages are not removed. -/
theorem Surroundings.Stocked.pruneRemovedFiles (h : e.Stocked repos st) (hdry : e.dryrun = false)
    (hlayout : e.Layout repos) : ∃ keep : Path → List Str,
      e.pruneRemovedFiles repos st = some (fun d => (st d).filter fun f => f.name ∈ keep d) ∧
      ∀ d, ∀ f ∈ st d, f.name ∈ keep d ↔ ¬ e.Removed repos st.names d f.name := by
  obtain ⟨s', hs', hw⟩ :=
    doPruneRemoved_without (s := ⟨st.names, [], false, []⟩) hdry hlayout h.files
  refine ⟨s'.files, by rw [Surroundings.pruneRemovedFiles, hs']; rfl, ?_⟩
  intro d f hf
  rw [hw d f.name]
  exact and_iff_right (List.mem_map_of_mem hf)

theorem Surroundings.Stocked.pruneRemoved (h : e.Stocked repos st) (hdry : e.dryrun = false)
    (hlayout : e.Layout repos) : ∃ st', e.pruneRemovedFiles repos st = some st' ∧
      (∀ d, (st' d).Sublist (st d)) ∧
      ∀ d f, f ∈ st' d ↔ f ∈ st d ∧ ¬ e.Removed repos st.names d f.name := by
  obtain ⟨keep, hrun, hkeep⟩ := h.pruneRemovedFiles hdry hlayout
  refine ⟨_, hrun, fun d => List.filter_sublist, ?_⟩
  intro d f
  rw [List.mem_filter, decide_eq_true_eq]
  exact and_congr_right fun hf => hkeep d f hf

end

variable {τ : Type} [LinearOrder τ]

/-! ## The older files -/

/-- What `prune` leaves of a directory. -/
def latest (repo : List (Package τ)) : List (Package τ) := (Repo.prune repo false).getD repo

theorem prune_latest {repo : List (Package τ)} (hnames : (repo.map Package.name).Nodup)
    (hnamed : Named repo) : Repo.prune repo false = some (latest repo) := by
  obtain ⟨kept, s, -, -, hprune⟩ := prune_leaves hnames hnamed
  rw [latest, hprune]
  rfl

namespace Surroundings

variable {e : Surroundings} {repos rs seen : List Path} {repo : Path} {st st' st₁ st₂ : Store τ}
  {f : Package τ}

/-- The older files are gone from the repositories in `seen`. -/
structure Shortened (e : Surroundings) (repos seen : List Path) (st st' : Store τ) : Prop where
  passed : ∀ repo ∈ seen, e.Visited repos repo →
    st' (repo ++ [e.archn]) = latest (st (repo ++ [e.archn]))
  other : ∀ d, (∀ repo ∈ seen, e.Visited repos repo → d ≠ repo ++ [e.archn]) → st' d = st d

theorem Shortened.skip (h : Shortened e repos seen st st')
    (hskip : ¬ e.Visited repos repo ∨ repo ∈ seen) : Shortened e repos (repo :: seen) st st' := by
  constructor
  · intro r hr hv
    obtain rfl | hr := List.mem_cons.mp hr
    · obtain hno | hmem := hskip
      · exact absurd hv hno
      · exact h.passed r hmem hv
    · exact h.passed r hr hv
  · exact fun d hd => h.other d fun r hr => hd r (List.mem_cons_of_mem _ hr)

theorem Shortened.congr {seen' : List Path} (h : Shortened e repos seen st st')
    (hmem : ∀ r, r ∈ seen' ↔ r ∈ seen) : Shortened e repos seen' st st' where
  passed r hr := h.passed r ((hmem r).mp hr)
  other d hd := h.other d fun r hr => hd r ((hmem r).mpr hr)

theorem Shortened.visit (h : Shortened e repos seen st st') (hv : e.Visited repos repo) :
    Shortened e repos (repo :: seen) st
      (Function.update st' (repo ++ [e.archn]) (latest (st (repo ++ [e.archn])))) := by
  constructor
  · intro r hr hrv
    by_cases hrepo : r = repo
    · rw [hrepo, Function.update_self]
    · rw [Function.update_of_ne fun heq => hrepo (List.append_cancel_right heq)]
      exact h.passed r ((List.mem_cons.mp hr).resolve_left hrepo) hrv
  · intro d hd
    rw [Function.update_of_ne (hd repo List.mem_cons_self hv)]
    exact h.other d fun r hr => hd r (List.mem_cons_of_mem _ hr)

theorem pruneObsolete_shortened (hdry : e.dryrun = false) (hst : Stocked e repos st)
    (h : Shortened e repos seen st st') (hnew : repo ∉ seen) (hmem : repo ∈ repos)
    (hbelow : e.repository <+: repo) :
    ∃ st'', e.pruneObsolete repo st' = some st'' ∧ Shortened e repos (repo :: seen) st st'' := by
  unfold pruneObsolete
  by_cases hdir : e.isDir (repo ++ [e.archn]) = true
  · have hv : e.Visited repos repo := ⟨hmem, hbelow, hdir⟩
    have hsame : st' (repo ++ [e.archn]) = st (repo ++ [e.archn]) := by
      apply h.other
      rintro r hr - heq
      rw [List.append_cancel_right heq] at hnew
      exact hnew hr
    refine ⟨_, ?_, h.visit hv⟩
    rw [if_pos hdir, hsame, hdry, prune_latest (hst.nodup repo hv) (hst.named repo hv)]
    rfl
  · refine ⟨st', if_neg hdir, h.skip (Or.inl ?_)⟩
    exact fun hv => hdir hv.dir

theorem pruneObsoleteFrom_shortened (hdry : e.dryrun = false) (hst : Stocked e repos st)
    (hsub : rs ⊆ repos) (h : Shortened e repos seen st st') :
    ∃ st'', e.pruneObsoleteFrom rs seen st' = some st'' ∧
      Shortened e repos (rs ++ seen) st st'' := by
  induction rs generalizing seen st' with
  | nil => exact ⟨st', rfl, h⟩
  | cons repo rs ih =>
      obtain ⟨hmem, hsub⟩ := List.cons_subset.mp hsub
      rw [pruneObsoleteFrom, List.cons_append]
      by_cases hskip : ¬ e.repository <+: repo ∨ repo ∈ seen
      · obtain ⟨st₂, hst₂, h₂⟩ := ih hsub h
        refine ⟨st₂, by rw [if_pos hskip, hst₂], h₂.skip ?_⟩
        exact hskip.imp (fun hno hv => hno hv.below) (List.mem_append_right rs)
      · rw [not_or, not_not] at hskip
        obtain ⟨st₁, hst₁, h₁⟩ := pruneObsolete_shortened hdry hst h hskip.2 hmem hskip.1
        obtain ⟨st₂, hst₂, h₂⟩ := ih hsub h₁
        refine ⟨st₂, ?_, h₂.congr fun r => by simp [or_left_comm]⟩
        rw [if_neg (not_or.mpr ⟨not_not.mpr hskip.1, hskip.2⟩), hst₁]
        exact hst₂

/-- What the first pass comes to. -/
structure Pruned (e : Surroundings) (repos : List Path) (st st₁ : Store τ) : Prop where
  newest : ∀ repo, e.Visited repos repo →
    ∃ kept obsolete, Partition (st (repo ++ [e.archn])) kept obsolete ∧
      st₁ (repo ++ [e.archn]) = (st (repo ++ [e.archn])).filter fun f => f.name ∉ obsolete
  other : ∀ d, (∀ repo, e.Visited repos repo → d ≠ repo ++ [e.archn]) → st₁ d = st d

theorem doPruneObsolete_pruned (hdry : e.dryrun = false) (hst : Stocked e repos st) :
    ∃ st₁, e.doPruneObsolete repos st = some st₁ ∧ Pruned e repos st st₁ := by
  have hstart : Shortened e repos [] st st := ⟨fun r hr => (List.not_mem_nil hr).elim, fun _ _ => rfl⟩
  obtain ⟨st₁, hst₁, h₁⟩ := pruneObsoleteFrom_shortened hdry hst (List.Subset.refl repos) hstart
  rw [List.append_nil] at h₁
  refine ⟨st₁, hst₁, ?_, fun d hd => h₁.other d fun r _ hv => hd r hv⟩
  intro repo hv
  obtain ⟨kept, s, -, hpart, hprune⟩ := prune_leaves (hst.nodup repo hv) (hst.named repo hv)
  refine ⟨kept, s.obsolete, hpart, ?_⟩
  rw [h₁.passed repo hv.mem hv, latest, hprune]
  rfl

/-! ## Both passes -/

theorem Pruned.sublist (h : Pruned e repos st st₁) (d : Path) : (st₁ d).Sublist (st d) := by
  by_cases hd : ∃ repo, e.Visited repos repo ∧ d = repo ++ [e.archn]
  · obtain ⟨repo, hv, rfl⟩ := hd
    obtain ⟨kept, obsolete, -, hleft⟩ := h.newest repo hv
    rw [hleft]
    exact List.filter_sublist
  · rw [h.other d fun repo hv heq => hd ⟨repo, hv, heq⟩]

/-- Where each package has one file, none of them is an older one. -/
theorem Pruned.fixed (h : Pruned e repos st st₁) (hsub : ∀ d, (st' d).Sublist (st₁ d))
    (h' : Pruned e repos st' st₂) : st₂ = st' := by
  funext d
  by_cases hd : ∃ repo, e.Visited repos repo ∧ d = repo ++ [e.archn]
  · obtain ⟨repo, hv, rfl⟩ := hd
    obtain ⟨kept, obsolete, hpart, hleft⟩ := h.newest repo hv
    obtain ⟨kept', obsolete', hpart', hleft'⟩ := h'.newest repo hv
    have hkept : ∀ f ∈ apks (st' (repo ++ [e.archn])),
        f ∈ apks (st (repo ++ [e.archn])) ∧ f.name ∈ kept := by
      intro f hf
      obtain ⟨hf, hapk⟩ := List.mem_filter.mp hf
      have hf₁ := (hsub _).subset hf
      rw [hleft, List.mem_filter, decide_eq_true_eq] at hf₁
      have hf₀ : f ∈ apks (st (repo ++ [e.archn])) := List.mem_filter.mpr ⟨hf₁.1, hapk⟩
      have hname := hpart.perm.mem_iff.mpr (List.mem_map_of_mem hf₀)
      exact ⟨hf₀, (List.mem_append.mp hname).resolve_right hf₁.2⟩
    rw [hleft', List.filter_eq_self]
    intro f hf
    rw [decide_eq_true_eq]
    intro hobs
    have hname := hpart'.perm.mem_iff.mp (List.mem_append_right _ hobs)
    obtain ⟨f', hf', hname'⟩ := List.mem_map.mp hname
    obtain ⟨g, hg, hgk, hgn, -⟩ := hpart'.newest f' hf'
    have heq : g = f' := hpart.one g (hkept g hg).1 f' (hkept f' hf').1 (hkept g hg).2
      (hkept f' hf').2 hgn
    rw [heq, hname'] at hgk
    exact (List.nodup_append.mp hpart'.nodup).2.2 _ hgk _ hobs rfl
  · exact h'.other d fun repo hv heq => hd ⟨repo, hv, heq⟩

/-- Of each package the newest file stays, if there is a template for it, or if it goes with a
base package whose newest file has the same version. Nothing else is deleted, and a second run
deletes nothing. -/
theorem doPrunePkgs_exact (hdry : e.dryrun = false) (hlayout : e.Layout repos)
    (hst : Stocked e repos st) :
    ∃ st₁ st', e.doPrunePkgs repos st = some st' ∧ Pruned e repos st st₁ ∧
      (∀ d f, f ∈ st' d ↔ f ∈ st₁ d ∧ ¬ e.Removed repos st₁.names d f.name) ∧
      e.doPrunePkgs repos st' = some st' := by
  obtain ⟨st₁, hst₁, hpruned⟩ := doPruneObsolete_pruned hdry hst
  have hstock₁ := hst.sublist hpruned.sublist
  obtain ⟨st', hst', hsub, hexact⟩ := hstock₁.pruneRemoved hdry hlayout
  refine ⟨st₁, st', by rw [doPrunePkgs, hst₁]; exact hst', hpruned, hexact, ?_⟩
  have hstock' := hstock₁.sublist hsub
  obtain ⟨st₂, hst₂, hpruned₂⟩ := doPruneObsolete_pruned hdry hstock'
  rw [doPrunePkgs, hst₂, hpruned.fixed hsub hpruned₂]
  obtain ⟨keep, hrun, hkeep⟩ := hstock'.pruneRemovedFiles hdry hlayout
  refine hrun.trans (congrArg some (funext fun d => ?_))
  rw [List.filter_eq_self]
  intro f hf
  rw [decide_eq_true_eq, hkeep d f hf]
  rintro ⟨r, t, hr, hcat, hd, hstale⟩
  -- the base packages of what is left are left too
  have hamong : Among e repos st₁.names st'.names := by
    constructor
    · exact fun d fn hfn => ((hsub d).map Package.name).subset hfn
    · intro d fn hfn hgone
      obtain ⟨g, hg, rfl⟩ := List.mem_map.mp hfn
      by_contra hno
      exact hgone (List.mem_map_of_mem ((hexact d g).mpr ⟨hg, hno⟩))
  have hstale₁ := (hamong.stale_iff hlayout hr hcat).mp hstale
  exact ((hexact d f).mp hf).2 ⟨r, t, hr, hcat, hd, hstale₁⟩

end Surroundings

def mainFiles : List (Package Nat) :=
  [⟨1, "foo-1.0-r0.apk".toList⟩, ⟨2, "foo-1.1-r0.apk".toList⟩, ⟨1, "old-2-r0.apk".toList⟩]

/-- The newest debug files are of the older version. -/
def debugFiles : List (Package Nat) :=
  [⟨2, "foo-dbg-1.0-r0.apk".toList⟩, ⟨1, "foo-dbg-1.1-r0.apk".toList⟩]

def debugStore : Store Nat := fun d =>
  if d = ["repo".toList, "main".toList, "x86_64".toList] then mainFiles
  else if d = ["repo".toList, "main".toList, "debug".toList, "x86_64".toList] then debugFiles
  else []

theorem debugStore_stocked : debugSurroundings.Stocked debugPaths debugStore := by
  constructor
  · intro repo hv
    have hmem := hv.mem
    simp only [debugPaths, List.mem_cons, List.not_mem_nil, or_false] at hmem
    rcases hmem with rfl | rfl
    · decide
    · decide
  · intro repo hv f hf
    have hf := List.mem_of_mem_filter hf
    have hmem := hv.mem
    simp only [debugPaths, List.mem_cons, List.not_mem_nil, or_false] at hmem
    rcases hmem with rfl | rfl
    · have hf : f ∈ mainFiles := hf
      simp only [mainFiles, List.mem_cons, List.not_mem_nil, or_false] at hf
      rcases hf with rfl | rfl | rfl
      · exact ⟨by decide, ⟨"1.0".toList, "0".toList, by decide⟩, by decide +kernel⟩
      · exact ⟨by decide, ⟨"1.1".toList, "0".toList, by decide⟩, by decide +kernel⟩
      · exact ⟨by decide, ⟨"2".toList, "0".toList, by decide⟩, by decide +kernel⟩
    · have hf : f ∈ debugFiles := hf
      simp only [debugFiles, List.mem_cons, List.not_mem_nil, or_false] at hf
      rcases hf with rfl | rfl
      · exact ⟨by decide, ⟨"1.0".toList, "0".toList, by decide⟩, by decide +kernel⟩
      · exact ⟨by decide, ⟨"1.1".toList, "0".toList, by decide⟩, by decide +kernel⟩

theorem debugStore_pruned : ∃ st₁ st', debugSurroundings.doPrunePkgs debugPaths debugStore = some st' ∧
    debugSurroundings.Pruned debugPaths debugStore st₁ ∧
    (∀ d f, f ∈ st' d ↔ f ∈ st₁ d ∧
      ¬ debugSurroundings.Removed debugPaths st₁.names d f.name) ∧
    debugSurroundings.doPrunePkgs debugPaths st' = some st' :=
  Surroundings.doPrunePkgs_exact rfl debugRepos_layout debugStore_stocked

end Cbuild.Repo
