import Cbuild.Extract.Moved

/-! # What the extraction leaves

A run that fails raises what it has detected and leaves no source directory that is not empty, and
one that does not leaves the contents in place, exactly if nothing has been extracted to a
directory of its own when a source fails and there is room for all of them otherwise.
-/

namespace Cbuild.Extract

open Lib Fs

variable {C : Type} {run : Run C} {pkg : Pkg} {fs fs₀ fs' : Fs Str C}
  {extractdir : Tree Str C} {edirs : List (EDir C)} {exc : Exc}

/-- The build directory is there, as the directory for the state is in it, and the source directory
is not a link. -/
structure Entry (pkg : Pkg) (fs : Fs Str C) : Prop where
  closed : fs.Closed
  builddir : fs.DirsTo pkg.builddir
  noLink : ∀ absolute target, fs.node pkg.srcdir ≠ some (.link absolute target)

/-- The source paths are within the source directory. -/
def PathsWithin (pkg : Pkg) : Prop :=
  ∀ sp ∈ pkg.sourcePaths, sp = [] ∨ sp = ['.'] ∨ Within sp

/-! ## The start -/

/-- There is no source directory. -/
structure Start (pkg : Pkg) (fs : Fs Str C) : Prop where
  closed : fs.Closed
  builddir : fs.DirsTo pkg.builddir
  absent : fs.node pkg.srcdir = none

theorem wpath_eq (pkg : Pkg) : pkg.wpath = pkg.builddir.map .down ++ [.down pkg.wrksrc] := by
  unfold Pkg.wpath Pkg.srcdir
  rw [List.map_append]
  rfl

theorem srcdir_ne_nil (pkg : Pkg) : pkg.srcdir ≠ [] :=
  List.append_ne_nil_of_right_ne_nil pkg.builddir (List.cons_ne_nil pkg.wrksrc [])

theorem pathExists_wpath (hbuilddir : fs.DirsTo pkg.builddir)
    (hlink : ∀ absolute target, fs.node pkg.srcdir ≠ some (.link absolute target)) :
    fs.pathExists pkg.wpath = (fs.node pkg.srcdir).isSome := by
  unfold pathExists
  rw [wpath_eq, stat_snoc hbuilddir.stat_self (hbuilddir _ (List.prefix_refl _)) _ hlink]
  show Except.isOk (if (fs.node pkg.srcdir).isSome = true then _ else _) = _
  cases (fs.node pkg.srcdir).isSome
  · rfl
  · rfl

theorem Start.pathExists (h : Start pkg fs) : fs.pathExists pkg.wpath = false := by
  rw [pathExists_wpath h.builddir, h.absent]
  · rfl
  · intro absolute target heq
    rw [h.absent] at heq
    cases heq

theorem Start.straight (h : Start pkg fs) : Straight pkg fs where
  closed := h.closed
  dirs := by
    intro q hq v hv
    rcases List.prefix_concat_iff.mp hq with heq | hq
    · rw [heq] at hv
      have habsent := h.absent
      unfold Pkg.srcdir at habsent
      rw [habsent] at hv
      cases hv
    · rw [h.builddir q hq] at hv
      exact (Option.some.inj hv).symm

/-- What a clean start leaves as it was. -/
theorem startClean_ok (h : Entry pkg fs) (hstart : startClean pkg fs = .ok fs₀) :
    Start pkg fs₀ ∧ fs.Vacant pkg.srcdir ∧ ∀ q, q ≠ pkg.srcdir → fs₀.node q = fs.node q := by
  have hexists := pathExists_wpath h.builddir h.noLink
  unfold startClean at hstart
  cases hnode : fs.node pkg.srcdir with
  | none =>
      rw [hexists, hnode] at hstart
      cases hstart
      exact ⟨⟨h.closed, h.builddir, hnode⟩, Or.inl hnode, fun q _ => rfl⟩
  | some v =>
      rw [hexists, hnode] at hstart
      cases hrm : fs.rmdir pkg.wpath with
      | error e =>
          rw [hrm] at hstart
          cases hstart
      | ok fs₁ =>
          rw [hrm] at hstart
          cases hstart
          obtain ⟨q, hplace, hdir, hempty, rfl⟩ := rmdir_spec hrm
          rw [Pkg.wpath, Pkg.srcdir, h.builddir.place pkg.wrksrc] at hplace
          obtain rfl : pkg.srcdir = q := Except.ok.inj hplace
          have hother : ∀ q, q ≠ pkg.srcdir → node (Dict.erase fs pkg.srcdir) q = fs.node q := by
            intro q hq
            rw [node_erase (srcdir_ne_nil pkg), if_neg (Ne.symm hq)]
          refine ⟨⟨?_, ?_, ?_⟩, Or.inr ⟨hdir, hempty⟩, hother⟩
          · intro q n hn
            rw [node_erase (srcdir_ne_nil pkg)] at hn
            split at hn
            · cases hn
            · rw [hother, h.closed q n hn]
              rintro rfl
              rw [hempty n] at hn
              cases hn
          · intro q hq
            rw [hother, h.builddir q hq]
            rintro rfl
            have hle := hq.length_le
            unfold Pkg.srcdir at hle
            rw [List.length_append, List.length_singleton] at hle
            omega
          · rw [node_erase (srcdir_ne_nil pkg), if_pos rfl]

theorem startClean_error (hstart : startClean pkg fs = .error exc) : exc = .package .dirty := by
  unfold startClean at hstart
  split at hstart
  · cases hrm : fs.rmdir pkg.wpath with
    | error e =>
        rw [hrm] at hstart
        cases hstart
        rfl
    | ok fs₁ =>
        rw [hrm] at hstart
        cases hstart
  · cases hstart

/-! ## The shared directory -/

/-- What there is when the others are moved. -/
def primary (pkg : Pkg) (extractdir : Tree Str C) (fs : Fs Str C) : Fs Str C :=
  if Blank extractdir then fs else fs.graft pkg.srcdir (flattened extractdir)

theorem handleExtractdir_ok (h : Start pkg fs) (extractdir : Tree Str C) :
    handleExtractdir pkg (.ok ()) extractdir fs = (.ok (), primary pkg extractdir fs) := by
  show renameEdir extractdir pkg.wpath false fs = _
  unfold primary
  by_cases hblank : Blank extractdir
  · rw [if_pos hblank, renameEdir_blank hblank]
  · rw [if_neg hblank]
    apply renameEdir_of_placeable hblank
    have hexists := h.pathExists
    refine ⟨fun htrue => ?_, ⟨fs, ?_, ?_⟩, ?_, Or.inl h.absent⟩
    · rw [hexists] at htrue
      cases htrue
    · rw [hexists]
      rfl
    · rw [wpath_eq, List.dropLast_concat]
      exact h.builddir.mkdirs
    · exact h.builddir.place pkg.wrksrc

/-- It is moved to the source directory, and nothing is lost. -/
theorem primary_spec (h : Start pkg fs) (extractdir : Tree Str C) :
    Straight pkg (primary pkg extractdir fs) ∧ fs.Extends (primary pkg extractdir fs) ∧
      (Blank extractdir ∧ primary pkg extractdir fs = fs ∨
        (primary pkg extractdir fs).node pkg.srcdir = some .dir ∧
          ∀ r, (primary pkg extractdir fs).node (pkg.srcdir ++ r) = (flattened extractdir).node r) := by
  unfold primary
  by_cases hblank : Blank extractdir
  · rw [if_pos hblank]
    exact ⟨h.straight, Extends.refl fs, Or.inl ⟨hblank, rfl⟩⟩
  rw [if_neg hblank]
  have hnode := node_graft_append fs (flattened extractdir) (srcdir_ne_nil pkg)
  have hroot := hnode []
  rw [List.append_nil] at hroot
  have hvacant : fs.Vacant pkg.srcdir := Or.inl h.absent
  have hkept := hvacant.graft_extends h.closed (srcdir_ne_nil pkg) (flattened extractdir)
  refine ⟨⟨?_, ?_⟩, hkept, Or.inr ⟨hroot, hnode⟩⟩
  · exact closed_graft h.closed (closed_flattened extractdir)
      (h.builddir _ (List.prefix_refl _))
  · intro q hq v hv
    rcases List.prefix_concat_iff.mp hq with heq | hq
    · rw [heq] at hv
      exact (Option.some.inj (hroot.symm.trans hv)).symm
    · rw [hkept q _ (h.builddir q hq)] at hv
      exact (Option.some.inj hv).symm

/-! ## The end -/

theorem dirsTo_srcdir (hclosed : fs.Closed) (h : fs.node pkg.srcdir = some .dir) :
    fs.DirsTo pkg.srcdir := by
  intro q hq
  obtain ⟨r, hr⟩ := hq
  by_cases hnil : r = []
  · rw [hnil, List.append_nil] at hr
    rw [hr, h]
  · rw [← hr] at h
    exact hclosed.dir_above hnil h

/-- The source directory is there at the end. -/
theorem recreate_ok (hs : Straight pkg fs) (h : fs.node pkg.srcdir = some .dir ∨ Start pkg fs) :
    ∃ fs', recreate pkg fs = .ok fs' ∧ fs.Extends fs' ∧ fs'.node pkg.srcdir = some .dir := by
  unfold recreate
  rcases h with hdir | hstart
  · have hexists : fs.pathExists pkg.wpath = true :=
      pathExists_iff.mpr ⟨_, (dirsTo_srcdir hs.closed hdir).stat_self⟩
    rw [if_pos hexists]
    exact ⟨fs, rfl, Extends.refl fs, hdir⟩
  · have hplace : fs.place pkg.wpath = .ok pkg.srcdir := hstart.builddir.place pkg.wrksrc
    have hmk : fs.mkdir pkg.wpath = .ok (Dict.set fs pkg.srcdir .dir) := by
      unfold Fs.mkdir
      rw [hplace]
      dsimp only
      rw [wpath_eq, List.getLast?_concat, hstart.absent]
    rw [hstart.pathExists, if_neg Bool.false_ne_true, hmk]
    refine ⟨_, rfl, fun q v hv => mkdir_mono hmk hv, ?_⟩
    rw [node_set (srcdir_ne_nil pkg), if_pos rfl]

/-! ## The sources -/

theorem choose_error {stage : Nat} {d : Str} {e : Error} (h : choose stage d = .error e)
    (wpath : List (Comp Str)) : e ≠ .taken wpath := by
  unfold choose at h
  dsimp only at h
  repeat' split at h
  all_goals cases h
  all_goals exact fun heq => by cases heq

/-- A source fails with an error of its own, or its extractor raises. -/
def Detects (exc : Exc) : Prop :=
  exc = .raised ∨ ∃ e, exc = .package e ∧ ∀ wpath, e ≠ .taken wpath

theorem mem_unfilled {sources : List (Str × Option Str)} {ed : EDir C} (h : ed ∈ unfilled sources) :
    ∃ d, (d, some ed.sp) ∈ sources := by
  obtain ⟨⟨d, sp⟩, hmem, hsome⟩ := List.mem_filterMap.mp h
  cases sp with
  | none => cases hsome
  | some sp =>
      cases hsome
      exact ⟨d, hmem⟩

/-- A source adds its own directory, if it has one, before the loop goes on or ends with it. -/
theorem extractSources_cons {stage : Nat} {d : Str} {sp : Option Str}
    {rest : List (Str × Option Str)} {extractdir extractdir' : Tree Str C} {body : Except Exc Unit}
    (h : extractSources run stage ((d, sp) :: rest) extractdir = (body, extractdir', edirs)) :
    ∃ own edirs₁, edirs = own ++ edirs₁ ∧ (∀ ed ∈ own, sp = some ed.sp) ∧
      ((∃ extractdir₁, extractSources run stage rest extractdir₁ = (body, extractdir', edirs₁)) ∨
        edirs₁ = unfilled rest ∧ ∃ exc, body = .error exc ∧ Detects exc) := by
  have hunfilled : ∀ ed ∈ unfilled (C := C) [(d, sp)], sp = some ed.sp := by
    intro ed hed
    obtain ⟨d', hd'⟩ := mem_unfilled hed
    exact (congrArg Prod.snd (List.mem_singleton.mp hd')).symm
  rw [extractSources] at h
  split at h
  · rcases hrest : extractSources run stage rest extractdir with ⟨r, extractdir₁, edirs₁⟩
    rw [hrest] at h
    cases h
    exact ⟨_, edirs₁, rfl, hunfilled, Or.inl ⟨extractdir, hrest⟩⟩
  · split at h
    · rename_i e hchoose
      cases h
      exact ⟨unfilled [(d, sp)], unfilled rest, List.filterMap_append (l := [(d, sp)]), hunfilled,
        Or.inr ⟨rfl, _, rfl, Or.inr ⟨e, rfl, choose_error hchoose⟩⟩⟩
    · rename_i fname suffix exf hchoose
      rcases hrun : run exf fname suffix (if sp.isSome then emptyTree else extractdir) with
        ⟨outcome, tree⟩
      rw [hrun] at h
      have hown : ∀ ed ∈ (sp.map fun sp => EDir.mk sp tree).toList, sp = some ed.sp := by
        intro ed hed
        cases sp with
        | none => cases hed
        | some sp => rw [List.mem_singleton.mp hed]
      cases outcome with
      | raised =>
          cases h
          exact ⟨_, _, rfl, hown, Or.inr ⟨rfl, _, rfl, Or.inl rfl⟩⟩
      | failed =>
          cases h
          exact ⟨_, _, rfl, hown, Or.inr ⟨rfl, _, rfl,
            Or.inr ⟨.failed fname, rfl, fun wpath heq => by cases heq⟩⟩⟩
      | done =>
          dsimp only at h
          rcases hrest : extractSources run stage rest
            (if sp.isSome then extractdir else tree) with ⟨r, extractdir₁, edirs₁⟩
          rw [hrest] at h
          cases h
          exact ⟨_, edirs₁, rfl, hown, Or.inl ⟨_, hrest⟩⟩

theorem extractSources_error {stage : Nat} {sources : List (Str × Option Str)}
    {extractdir extractdir' : Tree Str C}
    (h : extractSources run stage sources extractdir = (.error exc, extractdir', edirs)) :
    Detects exc := by
  induction sources generalizing extractdir edirs with
  | nil => cases h
  | cons source rest ih =>
      obtain ⟨own, edirs₁, _, _, ⟨extractdir₁, hrest⟩ | ⟨_, exc', hexc, hdetects⟩⟩ :=
        extractSources_cons h
      · exact ih hrest
      · cases hexc
        exact hdetects

/-- The directories are those of the source paths. -/
theorem mem_extractSources {stage : Nat} {sources : List (Str × Option Str)}
    {extractdir extractdir' : Tree Str C} {body : Except Exc Unit}
    (h : extractSources run stage sources extractdir = (body, extractdir', edirs)) {ed : EDir C}
    (hed : ed ∈ edirs) : ∃ d, (d, some ed.sp) ∈ sources := by
  induction sources generalizing extractdir edirs with
  | nil =>
      cases h
      cases hed
  | cons source rest ih =>
      have hrest : (∃ d, (d, some ed.sp) ∈ rest) → ∃ d, (d, some ed.sp) ∈ source :: rest := by
        intro hex
        exact ⟨hex.choose, List.mem_cons_of_mem source hex.choose_spec⟩
      obtain ⟨d, sp⟩ := source
      obtain ⟨own, edirs₁, rfl, hown, hor⟩ := extractSources_cons h
      rcases List.mem_append.mp hed with hed | hed
      · rw [hown ed hed]
        exact ⟨d, List.mem_cons_self⟩
      · rcases hor with ⟨extractdir₁, hexts⟩ | ⟨rfl, _⟩
        · exact hrest (ih hexts hed)
        · exact hrest (mem_unfilled hed)

theorem mem_makeEdirs {paths : List (Option Str)} (h : makeEdirs pkg = some paths) {sp : Str}
    (hsp : some sp ∈ paths) : sp ∈ pkg.sourcePaths ∧ sp ≠ [] ∧ sp ≠ ['.'] := by
  unfold makeEdirs at h
  split at h
  · cases h
    obtain ⟨d, _, hd⟩ := List.mem_map.mp hsp
    cases hd
  · split at h
    · cases h
    · cases h
      obtain ⟨sp', hmem, heq⟩ := List.mem_map.mp hsp
      split at heq
      · cases heq
      · rename_i hnot
        cases heq
        exact ⟨hmem, not_or.mp hnot⟩

theorem within_of_extractSources (hpaths : PathsWithin pkg) {paths : List (Option Str)}
    (hmake : makeEdirs pkg = some paths) {stage : Nat} {extractdir extractdir' : Tree Str C}
    {body : Except Exc Unit} (h : extractSources run stage (pkg.source.zip paths) extractdir =
      (body, extractdir', edirs)) :
    ∀ ed ∈ edirs, Within ed.sp ∧ ed.sp ∈ pkg.sourcePaths := by
  intro ed hed
  obtain ⟨d, hd⟩ := mem_extractSources h hed
  obtain ⟨hmem, hnil, hdot⟩ := mem_makeEdirs hmake (List.of_mem_zip hd).2
  exact ⟨((hpaths ed.sp hmem).resolve_left hnil).resolve_left hdot, hmem⟩

/-! ## Runs -/

/-- What has been extracted is in place, and nothing that was there is lost. -/
def Placed (run : Run C) (pkg : Pkg) (fs fs' : Fs Str C) : Prop :=
  ∃ paths extractdir edirs, makeEdirs pkg = some paths ∧
    extractSources run pkg.stage (pkg.source.zip paths) emptyTree = (.ok (), extractdir, edirs) ∧
    fs.Extends fs' ∧ (¬ Blank extractdir → Holds fs' pkg.wpath (flattened extractdir)) ∧
    ∀ ed ∈ edirs, ¬ Blank ed.tree → Holds fs' (target pkg.wpath ed.sp) (flattened ed.tree)

/-- A run that fails raises the package error that it has detected and leaves no source directory,
or an empty one, or it has done nothing. A run that does not leaves what it has extracted in place,
unless something is to be replaced. -/
structure Sound (run : Run C) (pkg : Pkg) (fs : Fs Str C) : Prop where
  failing : ∀ exc fs', invoke run pkg fs = (.error exc, fs') → (∃ e, exc = .package e) ∧
    detected run pkg fs = some exc ∧ (fs'.Vacant pkg.srcdir ∨ fs' = fs)
  successful : ∀ fs', invoke run pkg fs = (.ok (), fs') →
    (∀ sp ∈ pkg.sourcePaths, replaces sp = false) → Placed run pkg fs fs'

/-- Nothing is extracted to a directory of its own if a source fails, none of the extractors raises,
and there is room for what is extracted. -/
def HarmlessFrom (run : Run C) (pkg : Pkg) (paths : List (Option Str)) (fs : Fs Str C) : Prop :=
  match extractSources run pkg.stage (pkg.source.zip paths) emptyTree with
  | (.error exc, _, edirs) => exc ≠ .raised ∧ ∀ ed ∈ edirs, Blank ed.tree
  | (.ok (), extractdir, edirs) => Room pkg.wpath edirs (primary pkg extractdir fs)

/-- From a clean start there are as many source paths as sources, and no harm is done with them. -/
def Harmless (run : Run C) (pkg : Pkg) (fs : Fs Str C) : Prop :=
  ∀ fs₀, startClean pkg fs = .ok fs₀ → ∃ paths, makeEdirs pkg = some paths ∧
    HarmlessFrom run pkg paths fs₀

theorem closeEdirs_all_blank (h : ∀ ed ∈ edirs, Blank ed.tree) (fs : Fs Str C) :
    closeEdirs pkg.wpath edirs fs = (.ok (), fs) := by
  induction edirs with
  | nil => rfl
  | cons ed edirs ih =>
      rw [closeEdirs_blank (h ed List.mem_cons_self)]
      exact ih fun ed hed => h ed (List.mem_cons_of_mem _ hed)

/-- A run with a source directory that is not empty in the end has not kept it as it was. -/
theorem not_kept (hstart : Start pkg fs₀ ∧ fs.Vacant pkg.srcdir ∧
      ∀ q, q ≠ pkg.srcdir → fs₀.node q = fs.node q) (hs : Straight pkg fs')
    (hfilled : Filled pkg fs') : ¬ (fs'.Vacant pkg.srcdir ∨ fs' = fs) := by
  intro hor
  rcases hor with hvacant | heq
  · exact hs.not_vacant hfilled hvacant
  · rw [heq] at hs hfilled
    exact hs.not_vacant hfilled hstart.2.1

/-- How a run ends after what is done with the directories open. -/
def finish (pkg : Pkg) (edirs : List (EDir C)) (r : Except Exc Unit × Fs Str C) :
    Except Exc Unit × Fs Str C :=
  match closeEdirs pkg.wpath edirs r.2 with
  | (.error e, fs) => (.error e, fs)
  | (.ok (), fs) =>
      match r.1 with
      | .error e => (.error e, fs)
      | .ok () =>
          match recreate pkg fs with
          | .error e => (.error e, fs)
          | .ok fs => (.ok (), fs)

theorem invoke_eq {paths : List (Option Str)} (hstart : startClean pkg fs = .ok fs₀)
    (hmake : makeEdirs pkg = some paths) {body : Except Exc Unit}
    (hext : extractSources run pkg.stage (pkg.source.zip paths) emptyTree =
      (body, extractdir, edirs)) :
    invoke run pkg fs = finish pkg edirs (handleExtractdir pkg body extractdir fs₀) := by
  unfold invoke
  rw [hstart]
  dsimp only
  rw [hmake]
  dsimp only
  rw [hext]
  rfl

section Started

variable {paths : List (Option Str)} (hentry : Entry pkg fs)
  (hstart : startClean pkg fs = .ok fs₀) (hpaths : PathsWithin pkg)
  (hmake : makeEdirs pkg = some paths)

include hentry hstart hpaths hmake

/-- A source fails: nothing may have been extracted to a directory of its own. -/
theorem sound_of_error (hext : extractSources run pkg.stage (pkg.source.zip paths) emptyTree =
      (.error exc, extractdir, edirs)) :
    Sound run pkg fs ↔ exc ≠ .raised ∧ ∀ ed ∈ edirs, Blank ed.tree := by
  have hclean := startClean_ok hentry hstart
  have hs := hclean.1.straight
  have hwithin := within_of_extractSources hpaths hmake hext
  have hinvoke : invoke run pkg fs = finish pkg edirs (.error exc, fs₀) :=
    invoke_eq hstart hmake hext
  unfold finish at hinvoke
  have hdetected : detected run pkg fs = some exc := by
    unfold detected
    rw [hstart]
    dsimp only
    rw [hmake]
    dsimp only
    rw [hext]
  have hown := extractSources_error hext
  constructor
  · intro hsound
    rcases closeEdirs_cases edirs hs fun ed hed => (hwithin ed hed).1 with
      hroom | ⟨fs', ⟨wpath, htaken, _⟩ | ⟨e, hos⟩⟩
    · obtain ⟨fs', hclose, hs', hor, _⟩ := hroom.closeEdirs hs fun ed hed => (hwithin ed hed).1
      rw [hclose] at hinvoke
      obtain ⟨⟨e, hpackage⟩, _, hvacant⟩ := hsound.failing exc fs' hinvoke
      constructor
      · rw [hpackage]
        exact fun heq => by cases heq
      · rcases hor with hfilled | ⟨_, hblank⟩
        · exact absurd hvacant (not_kept hclean hs' hfilled)
        · exact hblank
    · -- what is raised is not what was detected
      rw [htaken] at hinvoke
      obtain ⟨_, hsame, _⟩ := hsound.failing _ fs' hinvoke
      rw [hdetected] at hsame
      rcases hown with hraised | ⟨e, he, hne⟩
      · rw [hraised] at hsame
        cases hsame
      · rw [he] at hsame
        cases hsame
        exact absurd rfl (hne wpath)
    · rw [hos] at hinvoke
      obtain ⟨⟨e, hpackage⟩, _⟩ := hsound.failing _ fs' hinvoke
      cases hpackage
  · intro hharmless
    obtain ⟨hraised, hblank⟩ := hharmless
    rw [closeEdirs_all_blank hblank] at hinvoke
    constructor
    · intro exc' fs' hrun
      rw [hinvoke] at hrun
      cases hrun
      obtain ⟨e, he, _⟩ := hown.resolve_left hraised
      exact ⟨⟨e, he⟩, hdetected, Or.inl (Or.inl hclean.1.absent)⟩
    · intro fs' hrun
      rw [hinvoke] at hrun
      cases hrun

/-- All sources are extracted: there has to be room for them. -/
theorem sound_of_ok (hext : extractSources run pkg.stage (pkg.source.zip paths) emptyTree =
      (.ok (), extractdir, edirs)) :
    Sound run pkg fs ↔ Room pkg.wpath edirs (primary pkg extractdir fs₀) := by
  have hclean := startClean_ok hentry hstart
  obtain ⟨hs, hprimary, hcontents⟩ := primary_spec hclean.1 extractdir
  have hwithin := within_of_extractSources hpaths hmake hext
  have hinvoke := invoke_eq hstart hmake hext
  rw [handleExtractdir_ok hclean.1] at hinvoke
  unfold finish at hinvoke
  constructor
  · intro hsound
    rcases closeEdirs_cases edirs hs fun ed hed => (hwithin ed hed).1 with
      hroom | ⟨fs', ⟨wpath, htaken, hs', hfilled⟩ | ⟨e, hos⟩⟩
    · exact hroom
    · rw [htaken] at hinvoke
      exact absurd (hsound.failing _ fs' hinvoke).2.2 (not_kept hclean hs' hfilled)
    · rw [hos] at hinvoke
      obtain ⟨⟨e, hpackage⟩, _⟩ := hsound.failing _ fs' hinvoke
      cases hpackage
  · intro hroom
    obtain ⟨fs₁, hclose, hs₁, hor, _⟩ := hroom.closeEdirs hs fun ed hed => (hwithin ed hed).1
    have hsrc : fs₁.node pkg.srcdir = some .dir ∨ Start pkg fs₁ := by
      rcases hor with ⟨n, hn⟩ | ⟨rfl, _⟩
      · exact Or.inl (hs₁.closed _ n hn)
      · rcases hcontents with ⟨_, heq⟩ | ⟨hdir, _⟩
        · rw [heq]
          exact Or.inr hclean.1
        · exact Or.inl hdir
    obtain ⟨fs₂, hrecreate, hlast, hdir⟩ := recreate_ok hs₁ hsrc
    rw [hclose] at hinvoke
    dsimp only at hinvoke
    rw [hrecreate] at hinvoke
    constructor
    · intro exc' fs' hrun
      rw [hinvoke] at hrun
      cases hrun
    · intro fs' hrun hplus
      rw [hinvoke] at hrun
      cases hrun
      obtain ⟨hext', hall⟩ := hroom.placed_all hs (fun ed hed => (hwithin ed hed).1)
        (fun ed hed => hplus _ (hwithin ed hed).2) hclose
      refine ⟨paths, extractdir, edirs, hmake, hext, ?_, ?_, ?_⟩
      · intro q v hv
        by_cases hq : q = pkg.srcdir
        · rw [hq] at hv ⊢
          rcases hclean.2.1 with hnone | ⟨hdir', _⟩
          · rw [hnone] at hv
            cases hv
          · rw [hdir'] at hv
            cases hv
            exact hdir
        · rw [← hclean.2.2 q hq] at hv
          exact hlast q v (hext' q v (hprimary q v hv))
      · intro hblank
        rcases hcontents with ⟨hblank', _⟩ | ⟨hdir', hnode⟩
        · exact absurd hblank' hblank
        · refine ⟨pkg.srcdir, hlast.stat (hext'.stat (dirsTo_srcdir hs.closed hdir').stat_self), ?_⟩
          intro r v hv
          rw [← hnode r] at hv
          exact hlast _ v (hext' _ v hv)
      · intro ed hed hblank
        exact (hall ed hed hblank).extends hlast

theorem sound_iff_from : Sound run pkg fs ↔ HarmlessFrom run pkg paths fs₀ := by
  unfold HarmlessFrom
  rcases hext : extractSources run pkg.stage (pkg.source.zip paths) emptyTree with
    ⟨exc | ⟨⟩, extractdir, edirs⟩
  · exact sound_of_error hentry hstart hpaths hmake hext
  · exact sound_of_ok hentry hstart hpaths hmake hext

end Started

/-- A run is sound exactly if it does no harm. -/
theorem invoke_sound_iff (hentry : Entry pkg fs) (hpaths : PathsWithin pkg) :
    Sound run pkg fs ↔ Harmless run pkg fs := by
  unfold Harmless
  cases hstart : startClean pkg fs with
  | error exc =>
      have hinvoke : invoke run pkg fs = (.error exc, fs) := by
        unfold invoke
        rw [hstart]
      apply iff_of_true
      · constructor
        · intro exc' fs' hrun
          rw [hinvoke] at hrun
          cases hrun
          refine ⟨⟨.dirty, startClean_error hstart⟩, ?_, Or.inr rfl⟩
          unfold detected
          rw [hstart]
        · intro fs' hrun
          rw [hinvoke] at hrun
          cases hrun
      · intro fs₀ heq
        cases heq
  | ok fs₀ =>
      cases hmake : makeEdirs pkg with
      | none =>
          have hinvoke : invoke run pkg fs = (.error .type, fs₀) := by
            unfold invoke
            rw [hstart]
            dsimp only
            rw [hmake]
          apply iff_of_false
          · intro hsound
            obtain ⟨⟨e, hpackage⟩, _⟩ := hsound.failing _ fs₀ hinvoke
            cases hpackage
          · intro hharmless
            obtain ⟨paths, heq, _⟩ := hharmless fs₀ rfl
            cases heq
      | some paths =>
          have hiff : Sound run pkg fs ↔ HarmlessFrom run pkg paths fs₀ :=
            sound_iff_from hentry hstart hpaths hmake
          constructor
          · intro hsound fs₁ heq
            cases heq
            exact ⟨paths, rfl, hiff.mp hsound⟩
          · intro hharmless
            obtain ⟨paths', heq, hfrom⟩ := hharmless fs₀ rfl
            cases heq
            exact hiff.mpr hfrom

/-! ## Two sources, each in a directory of its own -/

section Small

def smallTree : Tree Str Unit where
  fs := [(["f".toList], .file ())]
  closed := closed_singleton _ _

/-- Each source has one file. -/
def smallRun : Run Unit := fun _ _ _ _ => (.done, smallTree)

def smallPkg (second : Str) : Pkg where
  source := ["u/a.tar".toList, second]
  sourcePaths := ["x".toList, "y".toList]
  stage := 2
  builddir := ["b".toList]
  wrksrc := "w".toList

def smallFs : Fs Str Unit := [(["b".toList], .dir)]

theorem small_entry (second : Str) : Entry (smallPkg second) smallFs where
  closed := closed_singleton _ _
  builddir := by
    intro q hq
    rcases List.prefix_concat_iff.mp (show q <+: [] ++ ["b".toList] from hq) with rfl | hq
    · rfl
    · rw [List.prefix_nil.mp hq]
      rfl
  noLink := by
    intro absolute target heq
    cases heq

theorem small_within (second : Str) : PathsWithin (smallPkg second) := by
  intro sp hsp
  have hpath : ∀ c ∈ ["x".toList, "y".toList], Within c := by
    intro c hc
    rcases List.mem_pair.mp hc with rfl | rfl
    · exact ⟨by decide, "x".toList, [], by decide +kernel⟩
    · exact ⟨by decide, "y".toList, [], by decide +kernel⟩
  exact Or.inr (Or.inr (hpath sp hsp))

theorem small_sound_iff : Sound smallRun (smallPkg "u/b.tar".toList) smallFs ↔
    Harmless smallRun (smallPkg "u/b.tar".toList) smallFs :=
  invoke_sound_iff (small_entry _) (small_within _)

/-- The second source has a suffix that is not known, and the first is moved into place. -/
theorem extracted_left_behind : ∃ (run : Run Unit) (pkg : Pkg) (fs : Fs Str Unit),
    Entry pkg fs ∧ PathsWithin pkg ∧ ¬ Sound run pkg fs := by
  refine ⟨smallRun, smallPkg "u/b.foo".toList, smallFs, small_entry _, small_within _, ?_⟩
  intro hsound
  generalize hrun : invoke smallRun (smallPkg "u/b.foo".toList) smallFs = res
  have hfails : res.1 = .error (.package (.suffix "b.foo".toList)) := by
    rw [← hrun]
    decide +kernel
  have hleft : res.2.node ["b".toList, "w".toList] = some .dir ∧
      (res.2.node ["b".toList, "w".toList, "x".toList]).isSome = true := by
    rw [← hrun]
    decide +kernel
  obtain ⟨_, _, hvacant | hkept⟩ := hsound.failing _ res.2 (hrun.trans (Prod.ext hfails rfl))
  · rcases hvacant with hnone | ⟨_, hempty⟩
    · rw [show (smallPkg "u/b.foo".toList).srcdir = ["b".toList, "w".toList] from rfl, hleft.1]
        at hnone
      cases hnone
    · have hx := hempty "x".toList
      rw [show (smallPkg "u/b.foo".toList).srcdir ++ ["x".toList] =
        ["b".toList, "w".toList, "x".toList] from rfl] at hx
      rw [hx] at hleft
      cases hleft.2
  · rw [hkept] at hleft
    cases hleft.1

end Small

end Cbuild.Extract
