import Cbuild.Initrd.Boot
import Cbuild.Initrd.Modules

/-! # The modules of the image

`scripts/mkinitrd.sh` stages what `resolve-modules.py` prints: each module is unpacked into
the root of the image and named in `etc/modules.load`, the list `load_modules` reads. The
loop over the modules ends a pipeline, so that the script goes on when the loop succeeds. So does
`zstd`, which packs whatever of the archive it is given.
-/

namespace Cbuild.Mkinitrd

open Lib Modules
open FileModes (parts)
open Initrd (lines trim)
open Upgrade (splitlines splitlinesFrom strip isLineBreak)

/-! ## Names of modules -/

inductive Format
  | zst | xz | gz
  deriving DecidableEq

def Format.suffix : Format → Str
  | .zst => ".zst".toList
  | .xz => ".xz".toList
  | .gz => ".gz".toList

/-- The `case` on the name. -/
def formatOf (module : Str) : Option Format :=
  [Format.zst, .xz, .gz].find? (·.suffix.isSuffixOf module)

def targetModule (module : Str) : Str :=
  match formatOf module with
  | some format => removeSuffix format.suffix module
  | none => module

/-! ## What the script is given -/

/-- The guarantees of `depmod`. -/
structure Depmod (text : Str) (builtin : Option Str) : Prop where
  acyclic : Acyclic (DependsOn text)
  names : DistinctNames text
  ko : ∀ path, Listed text path → ko <:+ targetModule path
  apart : ∀ path, Listed text path → moduleName path ∉ builtins builtin

/-- `$MODULES_DIR` -/
structure KernelDir where
  release : Str
  dep : Option Str
  builtin : Option Str
  /-- The regular files, by their paths in it. -/
  file : Str → Option Str
  release_line : '\n' ∉ release
  depmod : ∀ text, dep = some text → Depmod text builtin

/-- The words of `$MODULES`: none is an option. -/
structure Request where
  modules : List Str
  names : ∀ module ∈ modules, module.head? ≠ some '-'

/-- What can fail besides the resolver. -/
inductive Op
  /-- All that comes before the modules. -/
  | prepare
  | needCmd (format : Format)
  | mkdir (module : Str)
  | write (module : Str)
  | append (module : Str)
  /-- `touch`, by `xargs` -/
  | touch
  /-- `find`, `sort` or `cpio` -/
  | archive
  | zstd
  /-- `sha_sidecar` or the manifest. -/
  | sums

structure Host where
  fails : Op → Bool
  /-- `zstd -qdc`, `xz -dc` and `gzip -dc` -/
  decompress : Format → Str → Option Str

/-! ## The script -/

/-- `$STAGE`, as far as it holds modules. -/
structure Stage where
  /-- The files in `lib/modules/$release`. -/
  file : Str → Option Str
  /-- `etc/modules.load` -/
  load : Str

def Stage.empty : Stage := ⟨fun _ => none, []⟩

/-- The path of a module in the image. -/
def modulePath (release module : Str) : Str :=
  "/lib/modules/".toList ++ release ++ '/' :: targetModule module

/-- What is written to the destination. -/
def unpacked (h : Host) (k : KernelDir) (module : Str) : Option Str :=
  (k.file module).bind fun text =>
    match formatOf module with
    | some format => h.decompress format text
    | none => some text

/-- The body of the loop; without a result the shell that runs it has exited. -/
def stageModule (h : Host) (k : KernelDir) (s : Stage) (module : Str) : Option Stage :=
  if module = [] then some s
  else if (k.file module).isNone then none
  else if (formatOf module).any (h.fails <| .needCmd ·) then none
  else if h.fails (.mkdir module) || h.fails (.write module) then none
  else
    match unpacked h k module with
    | none => none
    | some text =>
        if h.fails (.append module) then none
        else some
          { file := Function.update s.file (targetModule module) (some text)
            load := s.load ++ modulePath k.release module ++ ['\n'] }

/-- `read -r` until it fails: a line that does not end is not read. -/
def readLines (text : Str) : List Str := (text.splitOn '\n').dropLast

/-- What the resolver prints: nothing if it fails. -/
def printed (k : KernelDir) (r : Request) : Str :=
  match (script k.dep k.builtin r.modules).run with
  | some (.ok text) => text
  | _ => []

/-- `$IMAGE` -/
structure Image where
  /-- The root it is packed from. -/
  root : Stage
  /-- All of the archive has come through the pipe. -/
  whole : Bool

structure Outcome where
  image : Option Image
  succeeds : Bool

def Outcome.exit : Outcome := ⟨none, false⟩

/-- What comes after the modules. The image is there when the sums are taken. -/
def pack (h : Host) (stage : Stage) : Outcome :=
  if h.fails .touch || h.fails .zstd then .exit
  else ⟨some ⟨stage, !h.fails .archive⟩, !h.fails .sums⟩

/-- The script. The status of the resolver is not that of the pipeline. -/
def mkinitrd (h : Host) (k : KernelDir) (r : Request) : Outcome :=
  if h.fails .prepare then .exit
  else
    match (readLines (printed k r)).foldlM (stageModule h k) Stage.empty with
    | none => .exit
    | some stage => pack h stage

/-! ## What it is for -/

/-- Neither an empty line nor a comment. -/
def isModule (line : Str) : Bool := line ≠ [] ∧ line.head? ≠ some '#'

/-- The modules that `load_modules` gives to `insmod`. -/
def inserted (load : Str) : List Str := ((lines load).map trim).filter isModule

def Resolvable (k : KernelDir) (r : Request) : Prop :=
  ∃ text, k.dep = some text ∧ ¬Unresolved text k.builtin r.modules

def nonBuiltin (k : KernelDir) (r : Request) : List Str :=
  r.modules.filter (normalized · ∉ builtins k.builtin)

/-- The list of the image is the closure, each module after its dependencies, and the
modules are there. -/
structure Staged (h : Host) (k : KernelDir) (r : Request) (stage : Stage) (text : Str)
    (ordered : List Str) : Prop where
  closure : Resolved text (nonBuiltin k r) ordered
  load : lines stage.load = ordered.map (modulePath k.release)
  inserted : inserted stage.load = ordered.map (modulePath k.release)
  file : ∀ module ∈ ordered, ∃ content, unpacked h k module = some content ∧
    stage.file (targetModule module) = some content

structure ImageComplete (h : Host) (k : KernelDir) (r : Request) : Prop where
  staged : ∀ image, (mkinitrd h k r).image = some image →
    ∃ text ordered, k.dep = some text ∧ Staged h k r image.root text ordered
  resolved : ¬Resolvable k r → (mkinitrd h k r).image = none

/-- A command fails before there is an image. -/
def FailsEarly (h : Host) : Prop :=
  h.fails .prepare = true ∨ h.fails .touch = true ∨ h.fails .zstd = true

/-! ## Names and paths -/

/-- A path is a directory, or nothing, and a name. -/
theorem exists_dir_name (path : Str) : ∃ dir name : Str, path = dir ++ name ∧ '/' ∉ name ∧
    (dir = [] ∨ ∃ parent, dir = parent ++ ['/']) := by
  induction path using List.reverseRecOn with
  | nil => exact ⟨[], [], rfl, List.not_mem_nil, Or.inl rfl⟩
  | append_singleton path c ih =>
      obtain ⟨dir, name, hpath, hname, hdir⟩ := ih
      by_cases hc : c = '/'
      · subst hc
        exact ⟨path ++ ['/'], [], by simp, List.not_mem_nil, Or.inr ⟨path, rfl⟩⟩
      · refine ⟨dir, name ++ [c], by rw [hpath, List.append_assoc], ?_, hdir⟩
        simp [hname, Ne.symm hc]

variable {dir name suffix path : Str}

theorem suffix_name_iff (hdir : dir = [] ∨ ∃ parent, dir = parent ++ ['/'])
    (hsuffix : '/' ∉ suffix) : suffix <:+ dir ++ name ↔ suffix <:+ name := by
  rcases hdir with rfl | ⟨parent, rfl⟩
  · rfl
  · constructor
    · intro h
      have hslash : '/' :: name <:+ parent ++ ['/'] ++ name := ⟨parent, by simp⟩
      rcases List.suffix_or_suffix_of_suffix h hslash with h' | ⟨t, ht⟩
      · rcases List.suffix_cons_iff.mp h' with rfl | h'
        · exact absurd List.mem_cons_self hsuffix
        · exact h'
      · exact absurd (ht ▸ List.mem_append_right t List.mem_cons_self) hsuffix
    · intro h
      exact h.trans (List.suffix_append _ _)

theorem getLastD_parts (hdir : dir = [] ∨ ∃ parent, dir = parent ++ ['/']) (hname : '/' ∉ name)
    (hne : name ≠ []) (hdot : name ≠ ['.']) : (parts (dir ++ name)).getLastD [] = name := by
  have hlast : parts (dir ++ name) = parts dir ++ [name] := by
    unfold parts
    rcases hdir with rfl | ⟨parent, rfl⟩
    · rw [List.nil_append, List.splitOn_eq_singleton hname]
      simp [hne, hdot]
    · rw [List.append_assoc, List.singleton_append, List.splitOn_append_cons_self,
        List.splitOn_append_cons_self, List.splitOn_eq_singleton hname]
      simp [hne, hdot]
  rw [hlast, List.getLastD_concat]

theorem slash_not_mem_suffix (format : Format) : '/' ∉ format.suffix := by
  cases format <;> decide

theorem formatOf_append (hdir : dir = [] ∨ ∃ parent, dir = parent ++ ['/']) :
    formatOf (dir ++ name) = formatOf name := by
  unfold formatOf
  congr 1
  funext format
  rw [Bool.eq_iff_iff, List.isSuffixOf_iff_suffix, List.isSuffixOf_iff_suffix]
  exact suffix_name_iff hdir (slash_not_mem_suffix format)

theorem suffix_of_formatOf {format : Format} (h : formatOf name = some format) :
    format.suffix <:+ name := by
  have hfind := List.find?_some h
  exact List.isSuffixOf_iff_suffix.mp hfind

theorem removeSuffix_append (h : suffix <:+ name) :
    removeSuffix suffix (dir ++ name) = dir ++ removeSuffix suffix name := by
  unfold removeSuffix
  rw [if_pos (List.isSuffixOf_iff_suffix.mpr h),
    if_pos (List.isSuffixOf_iff_suffix.mpr (h.trans (List.suffix_append _ _))),
    List.length_append, Nat.add_sub_assoc h.length_le, List.take_length_add_append]

theorem targetModule_append (hdir : dir = [] ∨ ∃ parent, dir = parent ++ ['/']) :
    targetModule (dir ++ name) = dir ++ targetModule name := by
  unfold targetModule
  rw [formatOf_append hdir]
  cases hformat : formatOf name with
  | none => rfl
  | some format => exact removeSuffix_append (suffix_of_formatOf hformat)

/-- A name that ends in `.ko` is not packed. -/
theorem formatOf_ko (h : ko <:+ name) : formatOf name = none := by
  obtain ⟨stem, rfl⟩ := h
  unfold formatOf
  rw [List.find?_eq_none]
  intro format _ hsuffix
  obtain ⟨t, ht⟩ := List.isSuffixOf_iff_suffix.mp hsuffix
  have hlast := congrArg List.getLast? ht
  revert hlast
  cases format <;> simp [Format.suffix, ko]

theorem moduleName_eq (path : Str) :
    moduleName path = underscored (removeSuffix ko (targetModule ((parts path).getLastD []))) := by
  unfold moduleName targetModule formatOf
  generalize (parts path).getLastD [] = name
  simp only [List.find?_cons, List.find?_nil, Format.suffix]
  cases ".zst".toList.isSuffixOf name <;> cases ".xz".toList.isSuffixOf name <;>
    cases ".gz".toList.isSuffixOf name <;> rfl

theorem targetModule_shortens (module : Str) : targetModule module <+: module := by
  unfold targetModule removeSuffix
  split
  · split
    · exact List.take_prefix _ _
    · exact List.prefix_refl _
  · exact List.prefix_refl _

/-- A module keeps its name when it is unpacked. -/
theorem moduleName_targetModule (h : ko <:+ targetModule path) :
    moduleName (targetModule path) = moduleName path := by
  obtain ⟨dir, name, rfl, hname, hdir⟩ := exists_dir_name path
  rw [targetModule_append hdir] at h ⊢
  have hko : ko <:+ targetModule name := (suffix_name_iff hdir (by decide)).mp h
  have hshort := targetModule_shortens name
  have hne : ∀ s : Str, ko <:+ s → s ≠ [] ∧ s ≠ ['.'] := by
    rintro s ⟨t, rfl⟩
    exact ⟨by simp [ko], fun heq => by simpa [ko] using congrArg List.length heq⟩
  have htarget := hne _ hko
  rw [moduleName_eq, moduleName_eq,
    getLastD_parts hdir (fun hmem => hname (hshort.subset hmem)) htarget.1 htarget.2]
  rw [getLastD_parts hdir hname]
  · unfold targetModule
    rw [formatOf_ko (by simpa [targetModule] using hko)]
  · rintro rfl
    exact htarget.1 (List.prefix_nil.mp hshort)
  · rintro rfl
    exact htarget.2 (by decide)

/-! ## Lines -/

theorem newline_not_mem_splitlinesFrom {cur text line : Str} (hcur : '\n' ∉ cur)
    (h : line ∈ splitlinesFrom cur text) : '\n' ∉ line := by
  fun_induction splitlinesFrom cur text with
  | case1 => exact absurd h List.not_mem_nil
  | case2 cur => rwa [List.mem_singleton.mp h]
  | case3 cur text ih =>
      rcases List.mem_cons.mp h with rfl | h
      · exact hcur
      · exact ih List.not_mem_nil h
  | case4 cur c text _ _ ih =>
      rcases List.mem_cons.mp h with rfl | h
      · exact hcur
      · exact ih List.not_mem_nil h
  | case5 cur c text _ hbreak ih =>
      have hc : '\n' ≠ c := by
        rintro rfl
        exact hbreak (by decide)
      exact ih (by simp [hcur, hc]) h

theorem newline_not_mem_listed {text path : Str} (h : Listed text path) : '\n' ∉ path := by
  obtain ⟨deps, hmem⟩ := h
  obtain ⟨line, hline, hread⟩ := List.mem_filterMap.mp hmem
  have hnone : '\n' ∉ line := newline_not_mem_splitlinesFrom List.not_mem_nil hline
  unfold readLine at hread
  split at hread
  · cases hread
    intro hnewline
    unfold strip at hnewline
    rw [List.mem_reverse] at hnewline
    have hinner := List.mem_reverse.mp ((List.dropWhile_sublist _).subset hnewline)
    exact hnone ((List.takeWhile_sublist _).subset ((List.dropWhile_sublist _).subset hinner))
  · cases hread

theorem readLines_stdout {ordered : List Str} (h : ∀ module ∈ ordered, '\n' ∉ module) :
    readLines (stdout ordered) = if ordered = [] then [[]] else ordered := by
  have hlast : readLines (stdout ordered) = (Apk.pyJoin ['\n'] ordered).splitOn '\n' := by
    unfold readLines stdout
    rw [List.splitOn_append_cons_self, List.splitOn_nil, List.dropLast_concat]
  rw [hlast, Apk.pyJoin]
  split
  · rename_i hnil
    rw [hnil]
    rfl
  · rename_i hne
    exact List.splitOn_intercalate '\n' h hne

/-- The lines of a text that is written line by line. -/
theorem lines_flatMap {ls : List Str} (h : ∀ l ∈ ls, '\n' ∉ l ∧ l.getLast? ≠ some '\r') :
    lines (ls.flatMap (· ++ ['\n'])) = ls := by
  have hsplit : (ls.flatMap (· ++ ['\n'])).splitOn '\n' = ls ++ [[]] := by
    induction ls with
    | nil => rfl
    | cons l ls ih =>
        obtain ⟨hl, hls⟩ := List.forall_mem_cons.mp h
        rw [List.flatMap_cons, List.append_assoc, List.singleton_append,
          List.splitOn_append_cons_self_of_not_mem hl.1, ih hls, List.cons_append]
  unfold lines
  rw [hsplit]
  simp only [List.getLast?_concat, List.dropLast_concat, if_true]
  refine (List.map_congr_left (fun l hl => ?_)).trans (List.map_id ls)
  exact if_neg (h l hl).2

/-! ## One module after another -/

variable {h : Host} {k : KernelDir} {s s' : Stage}

/-- What the body of the loop does for a module, if it goes through. -/
theorem stageModule_eq_some {module : Str} (hne : module ≠ [])
    (hstep : stageModule h k s module = some s') :
    ∃ content, unpacked h k module = some content ∧
      s' = { file := Function.update s.file (targetModule module) (some content)
             load := s.load ++ modulePath k.release module ++ ['\n'] } := by
  unfold stageModule at hstep
  rw [if_neg hne] at hstep
  split at hstep
  · cases hstep
  · split at hstep
    · cases hstep
    · split at hstep
      · cases hstep
      · split at hstep
        · cases hstep
        · rename_i content hcontent
          split at hstep
          · cases hstep
          · cases hstep
            exact ⟨content, hcontent, rfl⟩

/-- The modules of the list are staged. -/
structure Holds (h : Host) (k : KernelDir) (done : List Str) (s : Stage) : Prop where
  load : s.load = (done.map (modulePath k.release)).flatMap (· ++ ['\n'])
  file : ∀ module ∈ done, ∃ content, unpacked h k module = some content ∧
    s.file (targetModule module) = some content

theorem holds_empty (h : Host) (k : KernelDir) : Holds h k [] Stage.empty where
  load := rfl
  file := by simp

theorem Holds.stageModule {done : List Str} {module : Str} (hs : Holds h k done s)
    (hne : module ≠ []) (htarget : ∀ m ∈ done, targetModule m ≠ targetModule module)
    (hstep : stageModule h k s module = some s') : Holds h k (done ++ [module]) s' := by
  obtain ⟨content, hcontent, rfl⟩ := stageModule_eq_some hne hstep
  constructor
  · show s.load ++ modulePath k.release module ++ ['\n'] = _
    rw [hs.load, List.map_append, List.flatMap_append, List.append_assoc]
    simp
  · intro m hm
    rcases List.mem_append.mp hm with hm | hm
    · show ∃ content', _ ∧ Function.update s.file _ _ _ = _
      rw [Function.update_of_ne (htarget m hm)]
      exact hs.file m hm
    · rw [List.mem_singleton.mp hm]
      exact ⟨content, hcontent, Function.update_self ..⟩

theorem Holds.foldlM {done ordered : List Str} (hs : Holds h k done s)
    (hne : ∀ module ∈ ordered, module ≠ [])
    (htarget : ((done ++ ordered).map targetModule).Nodup)
    (hrun : ordered.foldlM (Mkinitrd.stageModule h k) s = some s') :
    Holds h k (done ++ ordered) s' := by
  induction ordered generalizing done s with
  | nil =>
      cases hrun
      rwa [List.append_nil]
  | cons module ordered ih =>
      rw [List.foldlM_cons] at hrun
      obtain ⟨s₁, hstep, hrest⟩ := Option.bind_eq_some_iff.mp hrun
      obtain ⟨hmodule, hne⟩ := List.forall_mem_cons.mp hne
      rw [List.append_cons] at htarget ⊢
      refine ih (hs.stageModule hmodule (fun m hm heq => ?_) hstep) hne htarget hrest
      rw [List.map_append, List.map_append, List.append_assoc, List.nodup_append'] at htarget
      refine htarget.2.2 (List.mem_map_of_mem hm) ?_
      rw [heq]
      exact List.mem_append_left _ List.mem_cons_self

/-! ## The closure -/

variable {r : Request} {text : Str} {ordered : List Str}

theorem Depmod.ne_nil {builtin : Option Str} (hdep : Depmod text builtin) (hlisted : Listed text path) :
    path ≠ [] := by
  rintro rfl
  obtain ⟨t, ht⟩ := hdep.ko [] hlisted
  rw [show targetModule [] = [] by decide, List.append_eq_nil_iff] at ht
  exact absurd ht.2 (by decide)

/-- No two lines are for one file of the image. -/
theorem Depmod.targetModule_inj {builtin : Option Str} (hdep : Depmod text builtin)
    {path path' : Str} (h : Listed text path) (h' : Listed text path')
    (heq : targetModule path = targetModule path') : path = path' := by
  have hname : moduleName path = moduleName path' := by
    rw [← moduleName_targetModule (hdep.ko path h), heq, moduleName_targetModule (hdep.ko path' h')]
  obtain ⟨deps, hmem⟩ := h
  obtain ⟨deps', hmem'⟩ := h'
  have hentry : (path, deps) = (path', deps') := List.inj_on_of_nodup_map hdep.names hmem hmem' hname
  exact congrArg Prod.fst hentry

theorem closure_nonBuiltin_iff (hdep : Depmod text k.builtin) (x : Str) :
    Closure text (nonBuiltin k r) x ↔ Closure text r.modules x := by
  constructor
  · intro hx
    obtain ⟨requested, hmem, hrest⟩ := hx
    exact ⟨requested, List.mem_of_mem_filter hmem, hrest⟩
  · intro hx
    obtain ⟨requested, hmem, path, hfound, hreach⟩ := hx
    refine ⟨requested, List.mem_filter.mpr ⟨hmem, ?_⟩, path, hfound, hreach⟩
    have hapart := hdep.apart path hfound.1
    rw [hfound.2] at hapart
    exact decide_eq_true hapart

theorem resolved_nonBuiltin (hdep : Depmod text k.builtin) (hres : Resolved text r.modules ordered) :
    Resolved text (nonBuiltin k r) ordered where
  nodup := hres.nodup
  mem_iff := fun x => (hres.mem_iff x).trans (closure_nonBuiltin_iff hdep x).symm
  after := hres.after

theorem modulePath_line (hdep : Depmod text k.builtin) (hlisted : Listed text path) :
    '\n' ∉ modulePath k.release path ∧ (modulePath k.release path).getLast? = some 'o' := by
  constructor
  · intro hmem
    unfold modulePath at hmem
    rw [List.mem_append, List.mem_append, List.mem_cons] at hmem
    rcases hmem with (hmem | hmem) | hmem | hmem
    · exact absurd hmem (by decide)
    · exact k.release_line hmem
    · exact absurd hmem (by decide)
    · exact newline_not_mem_listed hlisted ((targetModule_shortens path).subset hmem)
  · obtain ⟨t, ht⟩ := hdep.ko path hlisted
    have hpath : modulePath k.release path =
        ("/lib/modules/".toList ++ k.release ++ '/' :: t) ++ ko := by
      unfold modulePath
      rw [← ht, List.append_assoc _ _ ko, List.cons_append]
    rw [hpath, List.getLast?_append]
    rfl

/-- A module that the loader finds in the list as it stands there. -/
theorem trim_eq {line : Str} (hhead : line.head? = some '/') (hlast : line.getLast? = some 'o') :
    trim line = line := by
  obtain ⟨rest, rfl⟩ := List.head?_eq_some_iff.mp hhead
  unfold trim
  rw [List.dropWhile_cons_of_neg (by decide), List.rdropWhile_eq_self_iff]
  intro hne
  rw [List.getLast?_eq_some_getLast hne, Option.some_inj] at hlast
  rw [hlast]
  decide

theorem Holds.staged (hdep : Depmod text k.builtin) (hres : Resolved text r.modules ordered)
    (hlisted : ∀ module ∈ ordered, Listed text module) {stage : Stage}
    (hs : Holds h k ordered stage) : Staged h k r stage text ordered := by
  have hload : lines stage.load = ordered.map (modulePath k.release) := by
    rw [hs.load]
    refine lines_flatMap (fun l hl => ?_)
    obtain ⟨module, hmem, rfl⟩ := List.mem_map.mp hl
    obtain ⟨hnewline, hlast⟩ := modulePath_line hdep (hlisted module hmem)
    exact ⟨hnewline, by simp [hlast]⟩
  refine ⟨resolved_nonBuiltin hdep hres, hload, ?_, hs.file⟩
  unfold inserted
  rw [hload, List.map_map]
  have htrim : ordered.map (trim ∘ modulePath k.release) = ordered.map (modulePath k.release) :=
    List.map_congr_left
      (fun module hmem => trim_eq rfl (modulePath_line hdep (hlisted module hmem)).2)
  rw [htrim, List.filter_eq_self]
  intro l hl
  obtain ⟨module, _, rfl⟩ := List.mem_map.mp hl
  rfl

/-! ## The loader -/

/-- The commands of the loader for a module. -/
def insertion (program : Dir Initrd.Fs Str) (module : Str) : List Initrd.Event :=
  [.command program ["insmod".toList, module], .loaded module]

theorem insmod_inserts (m : Initrd.Machine) (n : Nat) (module : Str) (w : Initrd.World) :
    wp (Initrd.insmod m n module)
      (fun _ w' => w'.ns = w.ns ∧
        w'.log = w.log ++ insertion (Initrd.lookup w.ns Initrd.armybox) module)
      (fun _ _ => True) w := by
  unfold Initrd.insmod Initrd.call Initrd.fail
  cases m.fails (.startInsmod n) with
  | some e => simp
  | none =>
      cases m.fails (.insmod n) with
      | some e => simp
      | none => simp [Initrd.World.push, insertion]

/-- A loader that goes through has inserted the modules of the list one by one. -/
theorem loadLines_inserts (m : Initrd.Machine) (n : Nat) (ls : List Str) (w : Initrd.World) :
    wp (Initrd.loadLines m n ls)
      (fun _ w' => w'.ns = w.ns ∧
        w'.log = w.log ++
          ((ls.map trim).filter isModule).flatMap
            (insertion (Initrd.lookup w.ns Initrd.armybox)))
      (fun _ _ => True) w := by
  induction ls generalizing n w with
  | nil => simp [Initrd.loadLines]
  | cons line ls ih =>
      unfold Initrd.loadLines
      rw [List.map_cons]
      by_cases hline : trim line ≠ [] ∧ (trim line).head? ≠ some '#'
      · have hmodule : isModule (trim line) = true := decide_eq_true hline
        rw [if_pos hline, List.filter_cons_of_pos hmodule, wp_bind]
        refine wp_mono (insmod_inserts m n (trim line) w) (fun _ w₁ h₁ => ?_) (fun _ _ h => h)
        refine wp_mono (ih (n + 1) w₁) (fun _ w₂ h₂ => ?_) (fun _ _ h => h)
        rw [h₂.1, h₂.2, h₁.1, h₁.2, List.append_assoc, List.flatMap_cons]
        exact ⟨rfl, rfl⟩
      · rw [if_neg hline, List.filter_cons_of_neg (by simpa [isModule] using hline)]
        exact ih (n + 1) w

/-! ## The script as a whole -/

theorem script_raises_of_not_resolvable (hres : ¬Resolvable k r) :
    ∃ e, (script k.dep k.builtin r.modules).Raises e := by
  unfold script
  split
  · exact ⟨_, Fueled.throw_raises.mpr rfl⟩
  · cases hdep : k.dep with
    | none => exact ⟨_, Fueled.throw_raises.mpr rfl⟩
    | some text =>
        have hok := k.depmod text hdep
        rcases main_cases hok.acyclic hok.names k.builtin r.modules with h | ⟨_, _, _, hno⟩
        · exact h.1
        · exact absurd ⟨text, hdep, hno⟩ hres

/-- The image, in terms of what is staged. -/
theorem mkinitrd_image_iff {image : Image} : (mkinitrd h k r).image = some image ↔
    ¬FailsEarly h ∧ image.whole = !h.fails .archive ∧
      (readLines (printed k r)).foldlM (stageModule h k) Stage.empty = some image.root := by
  unfold mkinitrd pack Outcome.exit FailsEarly
  cases h.fails .prepare with
  | true => simp
  | false =>
      cases (readLines (printed k r)).foldlM (stageModule h k) Stage.empty with
      | none => simp
      | some stage =>
          obtain ⟨root, whole⟩ := image
          cases h.fails .touch <;> cases h.fails .zstd <;>
            simp [eq_comm (a := whole), and_comm]

/-- The script succeeds only with an image. -/
theorem mkinitrd_succeeds (h : Host) (k : KernelDir) (r : Request) :
    (mkinitrd h k r).succeeds = true → (mkinitrd h k r).image.isSome := by
  unfold mkinitrd pack Outcome.exit
  split
  · exact nofun
  split
  · exact nofun
  split
  · exact nofun
  · exact fun _ => rfl

/-- A resolver that fails has printed nothing, and there is nothing to stage. -/
theorem mkinitrd_of_not_resolvable (hres : ¬Resolvable k r) (hearly : ¬FailsEarly h) :
    (mkinitrd h k r).image = some ⟨Stage.empty, !h.fails .archive⟩ := by
  obtain ⟨e, he⟩ := script_raises_of_not_resolvable hres
  have hprinted : printed k r = [] := by
    unfold printed
    rw [show (script k.dep k.builtin r.modules).run = some (.error e) from he]
  refine mkinitrd_image_iff.mpr ⟨hearly, rfl, ?_⟩
  rw [hprinted]
  simp [readLines]

/-- What is read from a resolver that goes through. -/
theorem readLines_printed (hdep : k.dep = some text) (hres : ¬Unresolved text k.builtin r.modules) :
    ∃ ordered, Resolved text r.modules ordered ∧ (∀ module ∈ ordered, Listed text module) ∧
      (readLines (printed k r) = ordered ∨ ordered = [] ∧ ∀ l ∈ readLines (printed k r), l = []) := by
  have hok := k.depmod text hdep
  rcases main_cases hok.acyclic hok.names k.builtin r.modules with
    ⟨_, hun⟩ | ⟨ordered, hreturns, hresolved, _⟩
  · exact absurd hun hres
  · have hlisted : ∀ module ∈ ordered, Listed text module := by
      intro module hmem
      by_contra hno
      exact hres (Or.inr ⟨module, (hresolved.mem_iff module).mp hmem, hno⟩)
    refine ⟨ordered, hresolved, hlisted, ?_⟩
    by_cases hmodules : r.modules = []
    · right
      constructor
      · rw [List.eq_nil_iff_forall_not_mem]
        intro x hx
        obtain ⟨requested, hmem, _⟩ := (hresolved.mem_iff x).mp hx
        rw [hmodules] at hmem
        exact List.not_mem_nil hmem
      · simp [printed, script, hmodules, readLines]
    · have hprinted : printed k r = stdout ordered := by
        unfold printed script
        rw [if_neg hmodules, hdep, show (main (some text) k.builtin r.modules).run = _ from hreturns]
      rw [hprinted, readLines_stdout (fun m hm => newline_not_mem_listed (hlisted m hm))]
      by_cases hnil : ordered = []
      · right
        simp [hnil]
      · left
        exact if_neg hnil

theorem foldlM_skip {ls : List Str} (hskip : ∀ l ∈ ls, l = []) (s : Stage) :
    ls.foldlM (stageModule h k) s = some s := by
  induction ls with
  | nil => rfl
  | cons l ls ih =>
      obtain ⟨rfl, hls⟩ := List.forall_mem_cons.mp hskip
      exact ih hls

theorem staged_of_resolvable (hres : Resolvable k r) {stage : Stage}
    (hfold : (readLines (printed k r)).foldlM (stageModule h k) Stage.empty = some stage) :
    ∃ text ordered, k.dep = some text ∧ Staged h k r stage text ordered := by
  obtain ⟨text, hdep, hno⟩ := hres
  obtain ⟨ordered, hresolved, hlisted, hread⟩ := readLines_printed hdep hno
  have hok := k.depmod text hdep
  refine ⟨text, ordered, hdep, ?_⟩
  rcases hread with hread | ⟨rfl, hskip⟩
  · have htarget : (ordered.map targetModule).Nodup :=
      List.Nodup.map_on (fun m hm m' hm' heq =>
        hok.targetModule_inj (hlisted m hm) (hlisted m' hm') heq) hresolved.nodup
    rw [hread] at hfold
    exact ((holds_empty h k).foldlM (fun m hm => hok.ne_nil (hlisted m hm)) htarget hfold).staged
      hok hresolved hlisted
  · rw [foldlM_skip hskip] at hfold
    cases hfold
    exact (holds_empty h k).staged hok hresolved hlisted

theorem imageComplete_iff (h : Host) (k : KernelDir) (r : Request) :
    ImageComplete h k r ↔ Resolvable k r ∨ FailsEarly h := by
  constructor
  · intro hcomplete
    by_contra hno
    obtain ⟨hres, hearly⟩ := not_or.mp hno
    have himage := mkinitrd_of_not_resolvable hres hearly
    rw [hcomplete.resolved hres] at himage
    cases himage
  · intro hcond
    by_cases hres : Resolvable k r
    · refine ⟨fun image himage => ?_, fun hno => absurd hres hno⟩
      obtain ⟨_, _, hfold⟩ := mkinitrd_image_iff.mp himage
      exact staged_of_resolvable hres hfold
    · have hearly := hcond.resolve_left hres
      have hnone : (mkinitrd h k r).image = none := by
        rw [Option.eq_none_iff_forall_ne_some]
        intro image himage
        exact (mkinitrd_image_iff.mp himage).1 hearly
      refine ⟨fun image himage => ?_, fun _ => hnone⟩
      rw [hnone] at himage
      cases himage

theorem depmod_ext4Dep : Depmod ext4Dep none where
  acyclic := acyclic_ext4Dep
  names := distinctNames_ext4Dep
  ko := by
    intro path hlisted
    rcases (listed_ext4Dep path).mp hlisted with rfl | rfl <;> decide +kernel
  apart := by simp [builtins]

def ext4Dir : KernelDir where
  release := "6.12".toList
  dep := some ext4Dep
  builtin := none
  file := fun path => if path = ext4 ∨ path = crc16 then some path else none
  release_line := by decide
  depmod := by
    intro text htext
    cases htext
    exact depmod_ext4Dep

def ready : Host := ⟨fun _ => false, fun _ text => some text⟩

def wantsExt4 : Request := ⟨["ext4".toList], by decide⟩

def wantsNosuch : Request := ⟨["nosuch".toList], by decide⟩

example : (mkinitrd ready ext4Dir wantsExt4).image.map (fun image => lines image.root.load) =
    some ["/lib/modules/6.12/kernel/lib/crc-16.ko".toList,
      "/lib/modules/6.12/kernel/fs/ext4.ko".toList] := by
  decide +kernel

theorem nosuch_not_resolvable : ¬Resolvable ext4Dir wantsNosuch := by
  rintro ⟨text, htext, hno⟩
  cases htext
  refine hno (Or.inl ⟨"nosuch".toList, List.mem_singleton_self _, ?_, List.not_mem_nil⟩)
  rintro path ⟨hlisted, hname⟩
  rcases (listed_ext4Dep path).mp hlisted with rfl | rfl <;> revert hname <;> decide +kernel

/-- The resolver fails, and the image has no modules. -/
theorem nosuch_incomplete : ¬ImageComplete ready ext4Dir wantsNosuch := by
  intro h
  have himage := mkinitrd_of_not_resolvable (h := ready) nosuch_not_resolvable
    (by simp [FailsEarly, ready])
  rw [h.resolved nosuch_not_resolvable] at himage
  cases himage

end Cbuild.Mkinitrd
