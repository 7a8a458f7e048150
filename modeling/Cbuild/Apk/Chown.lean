import Cbuild.Apk.Generate
import Cbuild.Extract.Sources
import Cbuild.Hooks.FileModes

/-! # Owners of files

`gen_mkpkg` writes a line for each item of `file_modes` that sets an owner, to be run when the
package is put together. The directories of items with a plus are made before that, by
`_split_auto`.
-/

namespace Cbuild.Chown

open Lib FileModes Apk

variable {C : Type}

structure Pkg where
  pkgname : Str
  pkgver : Str
  /-- The architecture of a cross build. -/
  crossArch : Option Str
  stage : Nat
  /-- Outside of the container. -/
  destdir : Str
  fileModes : List Entry
  /-- The keys of `file_xattrs`. -/
  fileXattrs : List Str

def Pkg.chrootDestdir (pkg : Pkg) : Str :=
  if pkg.stage = 0 then pkg.destdir
  else "/destdir/".toList ++ (pkg.pkgname ++ '-' :: pkg.pkgver ++
    (match pkg.crossArch with
    | none => []
    | some arch => '/' :: arch) ++ '/' :: pkg.pkgname)

/-! ## The makefile -/

def ownerText : Owner → Str
  | .name s => s
  | .id n => pyInt10 n

def isRoot (o : Owner) : Bool := o = .name "root".toList || o = .id 0

/-- No owner is set. -/
def noop (e : Entry) : Bool := isRoot e.uname && isRoot e.gname

def chcmd (recursive : Bool) : Str := if recursive then "chown -R".toList else "chown".toList

def ownerGroup (e : Entry) : Str := ownerText e.uname ++ ':' :: ownerText e.gname

def Pkg.chownLine (pkg : Pkg) (e : Entry) : Str :=
  '@' :: (chcmd e.recursive ++ ' ' :: (ownerGroup e ++
    ' ' :: shellQuote (pathDiv pkg.chrootDestdir e.key)))

/-- The recipe of the rule for the modes in `gen_mkpkg`. -/
def Pkg.genModes (pkg : Pkg) : List Str :=
  if pkg.stage = 0 then []
  else (pkg.fileModes.filter fun e => !noop e || e.key ∈ pkg.fileXattrs).map pkg.chownLine

/-! ## The directories -/

def Pkg.mkdir (pkg : Pkg) (fs : Fs Str C) (e : Entry) : Except Errno (Fs Str C) :=
  if e.isdir then
    let p := Extract.parts (pathDiv pkg.destdir e.key.tail)
    if e.recursive then fs.mkdirs p else fs.mkdirOk p
  else .ok fs

/-- The last loop of `_split_auto`. -/
def Pkg.splitAuto (pkg : Pkg) (fs : Fs Str C) : Except Errno (Fs Str C) :=
  pkg.fileModes.foldlM pkg.mkdir fs

/-- What the lines see: the directory `below` is bound to `/destdir` in the container. -/
def container (root : Fs Str C) (below : List Str) (fs : Fs Str C) : Fs Str C :=
  root.graft ["destdir".toList] (fs.subtree below)

/-! ## Declared owners -/

/-- The path of an item, which is relative to the package. -/
def Pkg.path (pkg : Pkg) (e : Entry) : Str :=
  purePath (pkg.chrootDestdir ++ '/' :: if e.isdir then e.key.tail else e.key)

def Pkg.chown (pkg : Pkg) (e : Entry) : List Str :=
  "chown".toList :: ((if e.recursive then ["-R".toList] else []) ++ [ownerGroup e, pkg.path e])

/-- The item has its line, which changes the owner of what is at its path. -/
structure Owned (pkg : Pkg) (tree : Fs Str C) (e : Entry) : Prop where
  line : pkg.chownLine e ∈ pkg.genModes
  runs : ∀ mk : Make, mk.recipeWords (pkg.chownLine e) = some (pkg.chown e)
  there : tree.pathExists (Extract.parts (pkg.path e)) = true

def Realises (pkg : Pkg) (tree : Fs Str C) : Prop :=
  ∀ e ∈ pkg.fileModes, noop e = false → Owned pkg tree e

/-- When it does. -/
structure Ready (pkg : Pkg) (tree : Fs Str C) (e : Entry) : Prop where
  plain : e.isdir = false
  relative : e.key.head? ≠ some '/'
  owner : Bareword (ownerGroup e)
  path : '$' ∉ pkg.path e ∧ '\n' ∉ pkg.path e
  there : tree.pathExists (Extract.parts (pkg.path e)) = true

/-! ## Paths -/

variable {pkg : Pkg} {tree fs fs' : Fs Str C} {e : Entry} {c : Char}

theorem count_pyJoin (hc : c ≠ '/') (ps : List Str) :
    (pyJoin ['/'] ps).count c = ps.flatten.count c := by
  unfold pyJoin
  induction ps with
  | nil => rfl
  | cons p ps ih =>
      cases ps with
      | nil => simp
      | cons q ps =>
          rw [List.intercalate_cons_cons, List.append_assoc, List.count_append, List.singleton_append,
            List.count_cons_of_ne hc.symm, ih, ← List.count_append]
          rfl

theorem count_splitOn (hc : c ≠ '/') (s : Str) : (s.splitOn '/').flatten.count c = s.count c := by
  rw [← count_pyJoin hc, pyJoin, List.intercalate_splitOn]

theorem count_filter_names (hc : c ≠ '.') (ps : List Str) :
    (ps.filter fun n => n ≠ [] ∧ n ≠ ['.']).flatten.count c = ps.flatten.count c := by
  induction ps with
  | nil => rfl
  | cons p ps ih =>
      rw [List.flatten_cons, List.count_append, ← ih]
      by_cases hp : p ≠ [] ∧ p ≠ ['.']
      · rw [List.filter_cons_of_pos (by simpa using hp), List.flatten_cons, List.count_append]
      · have hnone : p.count c = 0 := by
          rw [not_and_or, not_not, not_not] at hp
          rcases hp with rfl | rfl
          · rfl
          · exact List.count_eq_zero.mpr (by simpa using hc)
        rw [List.filter_cons_of_neg (by simpa using hp), hnone, Nat.zero_add]

/-- Only slashes and dots are added or left out. -/
theorem count_purePath (hc : c ≠ '/') (hc' : c ≠ '.') (s : Str) :
    (purePath s).count c = s.count c := by
  have hroot : ∀ root : Str, (∀ d ∈ root, d = '/') → root.count c = 0 := by
    intro root h
    exact List.count_eq_zero.mpr (fun hmem => hc (h c hmem))
  have hpath : ∀ path : Str, (if path = [] then ['.'] else path).count c = path.count c := by
    intro path
    by_cases h : path = []
    · rw [if_pos h, h]
      exact List.count_eq_zero.mpr (by simpa using hc')
    · rw [if_neg h]
  unfold purePath
  dsimp only
  rw [hpath, List.count_append, count_pyJoin hc, count_filter_names hc', count_splitOn hc, hroot,
    Nat.zero_add]
  split
  · simp
  split
  · simp
  · exact List.forall_mem_nil _

theorem purePath_cons {s : Str} (h : "/".toList.isPrefixOf s = true) :
    ∃ w, purePath s = '/' :: w := by
  have hpath : ∀ root path : Str, root.head? = some '/' →
      ∃ w, (if root ++ path = [] then ['.'] else root ++ path) = '/' :: w := by
    intro root path hroot
    cases root with
    | nil => cases hroot
    | cons d root =>
        rw [List.head?_cons, Option.some.injEq] at hroot
        exact ⟨root ++ path, by rw [hroot]; rfl⟩
  unfold purePath
  dsimp only
  apply hpath
  rw [if_pos h]
  split
  · rfl
  · rfl

theorem chrootDestdir_eq (hstage : 0 < pkg.stage) :
    ∃ r, pkg.chrootDestdir = "/destdir/".toList ++ r := by
  rw [Pkg.chrootDestdir, if_neg (by omega)]
  exact ⟨_, rfl⟩

theorem path_cons (hstage : 0 < pkg.stage) (e : Entry) : ∃ w, pkg.path e = '/' :: w := by
  obtain ⟨r, hr⟩ := chrootDestdir_eq hstage
  rw [Pkg.path, hr]
  exact purePath_cons rfl

theorem pathDiv_of_relative (base : Str) {s : Str} (h : s.head? ≠ some '/') :
    pathDiv base s = purePath (base ++ '/' :: s) := by
  unfold pathDiv
  rw [if_neg]
  intro hpre
  cases s with
  | nil => cases hpre
  | cons d s =>
      rw [show "/".toList = ['/'] from rfl, List.isPrefixOf_cons_cons, Bool.and_eq_true, beq_iff_eq] at hpre
      exact h (by rw [List.head?_cons, ← hpre.1])

theorem pathDiv_of_absolute (base : Str) {s : Str} (h : s.head? = some '/') :
    pathDiv base s = purePath s := by
  cases s with
  | nil => cases h
  | cons d s =>
      rw [List.head?_cons, Option.some.injEq] at h
      rw [h, pathDiv, if_pos (show "/".toList.isPrefixOf ('/' :: s) = true from rfl)]

/-! ## Lines -/

/-- The words of the command before the owner. -/
def chcmdWords (recursive : Bool) : List Str :=
  if recursive then ["-R".toList] else []

theorem chownLine_eq (pkg : Pkg) (e : Entry) : pkg.chownLine e =
    '@' :: spaced ("chown".toList :: chcmdWords e.recursive)
      (ownerGroup e ++ ' ' :: shellQuote (pathDiv pkg.chrootDestdir e.key)) := by
  unfold Pkg.chownLine chcmd chcmdWords
  cases e.recursive with
  | true => rfl
  | false => rfl

theorem bareword_chcmd (recursive : Bool) :
    ∀ u ∈ "chown".toList :: chcmdWords recursive, Bareword u := by
  rw [List.forall_mem_cons]
  refine ⟨bareword_of_allSafe (by simp) (by decide), ?_⟩
  cases recursive with
  | true =>
      intro u hu
      rw [List.mem_singleton.mp hu]
      exact bareword_of_allSafe (by simp) (by decide)
  | false => exact List.forall_mem_nil _

theorem unflagged_chown : Unflagged "chown".toList := by
  intro c hc
  cases hc
  rfl

theorem ownerGroup_ne_nil (e : Entry) : ownerGroup e ≠ [] := by
  unfold ownerGroup
  simp

/-- A line runs only with what its path has. -/
theorem count_of_runs
    (hdollar : (pathDiv pkg.chrootDestdir e.key).count '$' ≤ (pkg.path e).count '$')
    (h : ∀ mk : Make, mk.recipeWords (pkg.chownLine e) = some (pkg.chown e))
    (hc : isShellSafe c = true) :
    (pathDiv pkg.chrootDestdir e.key).count c = (pkg.path e).count c := by
  have hrun := h Make.nothingDefined
  rw [chownLine_eq] at hrun
  have hne : ∀ d ∈ shellSpecial, c ≠ d := by
    intro d hd hcd
    rw [hcd, not_safe_of_mem hd] at hc
    contradiction
  have hquote : ∀ {d : Char}, d ≠ '\'' → d ≠ '"' → d ≠ ' ' →
      (ownerGroup e ++ ' ' :: shellQuote (pathDiv pkg.chrootDestdir e.key)).count d =
        (ownerGroup e).count d + (pathDiv pkg.chrootDestdir e.key).count d := by
    intro d hd hd' hd''
    rw [List.count_append, List.count_cons_of_ne hd''.symm, count_quote hd hd']
  have hwords := Make.words_of_recipeWords unflagged_chown
    (bareword_chcmd e.recursive) ⟨_, _, rfl⟩
    (by rw [hquote (by decide) (by decide) (by decide)]; simpa using hdollar) hrun
  have hkept : c ∉ [' ', '\t', '\'', '"', '\\'] := by
    simp only [List.mem_cons, List.not_mem_nil, or_false, not_or]
    exact ⟨hne _ (by decide), hne _ (by decide), hne _ (by decide), hne _ (by decide),
      hne _ (by decide)⟩
  have hcount := count_shellWords_eq hkept hwords.2.2
  rw [hquote (hne _ (by decide)) (hne _ (by decide)) (hne _ (by decide))] at hcount
  simp at hcount
  omega

theorem not_runs_of_isdir (h : e.isdir = true) :
    ¬ ∀ mk : Make, mk.recipeWords (pkg.chownLine e) = some (pkg.chown e) := by
  intro hruns
  obtain ⟨s, hs⟩ : ∃ s, e.key = '+' :: s := by
    unfold Entry.isdir at h
    cases hkey : e.key with
    | nil => simp [hkey] at h
    | cons d s => exact ⟨s, by simpa [hkey] using h⟩
  have hcount : ∀ c, c ≠ '/' → c ≠ '.' → (pathDiv pkg.chrootDestdir e.key).count c =
      (pkg.path e).count c + if c = '+' then 1 else 0 := by
    intro c hc hc'
    rw [pathDiv_of_relative _ (by simp [hs]), Pkg.path, if_pos h, hs, List.tail_cons,
      count_purePath hc hc', count_purePath hc hc']
    simp only [List.count_append, List.count_cons, beq_iff_eq, eq_comm (a := '+'), Ne.symm hc,
      if_false]
    omega
  have hplus := hcount '+' (by decide) (by decide)
  rw [count_of_runs (by rw [hcount '$' (by decide) (by decide)]; simp) hruns (by decide)] at hplus
  simp at hplus

/-- A path from the root is not below `/destdir`. -/
theorem not_runs_of_absolute (hstage : 0 < pkg.stage) (h : e.key.head? = some '/') :
    ¬ ∀ mk : Make, mk.recipeWords (pkg.chownLine e) = some (pkg.chown e) := by
  intro hruns
  obtain ⟨r, hr⟩ := chrootDestdir_eq hstage
  have hdir : e.isdir = false := by simp [Entry.isdir, h]
  have hcount : ∀ c, c ≠ '/' → c ≠ '.' → (pkg.path e).count c =
      ("/destdir/".toList ++ r).count c + (pathDiv pkg.chrootDestdir e.key).count c := by
    intro c hc hc'
    rw [pathDiv_of_absolute _ h, Pkg.path, hdir, if_neg Bool.false_ne_true, hr,
      count_purePath hc hc', count_purePath hc hc', List.count_append,
      List.count_cons_of_ne hc.symm]
  have hd := hcount 'd' (by decide) (by decide)
  rw [count_of_runs (by rw [hcount '$' (by decide) (by decide)]; exact Nat.le_add_left _ _) hruns
    (by decide), List.count_append] at hd
  simp at hd

/-- The line of an item with a relative path and no plus. -/
theorem runs_iff (hstage : 0 < pkg.stage) (hdir : e.isdir = false)
    (hrel : e.key.head? ≠ some '/') :
    (∀ mk : Make, mk.recipeWords (pkg.chownLine e) = some (pkg.chown e)) ↔
      Bareword (ownerGroup e) ∧ '$' ∉ pkg.path e ∧ '\n' ∉ pkg.path e := by
  obtain ⟨w, hw⟩ := path_cons hstage e
  have hpath : pathDiv pkg.chrootDestdir e.key = '/' :: w := by
    rw [pathDiv_of_relative _ hrel, ← hw, Pkg.path, hdir, if_neg Bool.false_ne_true]
  rw [chownLine_eq, hpath, Pkg.chown, hw]
  exact Make.recipeWords_bare_iff unflagged_chown (bareword_chcmd e.recursive)
    (ownerGroup_ne_nil e) (by decide)

theorem chownLine_mem (hstage : 0 < pkg.stage) (he : e ∈ pkg.fileModes) (hset : noop e = false) :
    pkg.chownLine e ∈ pkg.genModes := by
  rw [Pkg.genModes, if_neg (by omega)]
  exact List.mem_map_of_mem (List.mem_filter.mpr ⟨he, by simp [hset]⟩)

/-! ## Directories -/

theorem isDir_of_extends (hext : fs.Extends fs') {p : List (Comp Str)} (h : fs.isDir p = true) :
    fs'.isDir p = true := by
  rw [Fs.isDir_iff] at h ⊢
  obtain ⟨q, hstat, hnode⟩ := h
  exact ⟨q, hext.stat hstat, hext q _ hnode⟩

/-- One item leaves what is there, and makes its directory. -/
theorem mkdir_spec (h : pkg.mkdir fs e = .ok fs') : fs.Extends fs' ∧
    (e.isdir = true → fs'.isDir (Extract.parts (pathDiv pkg.destdir e.key.tail)) = true) := by
  unfold Pkg.mkdir at h
  cases hdir : e.isdir with
  | false =>
      rw [hdir, if_neg Bool.false_ne_true] at h
      cases h
      exact ⟨Fs.Extends.refl fs, nofun⟩
  | true =>
      rw [hdir, if_pos rfl] at h
      cases hrec : e.recursive with
      | true =>
          rw [hrec, if_pos rfl] at h
          exact ⟨Fs.mkdirs_extends h,
            fun _ => (Fs.mkdirs_spec (I := fun _ => True) trivial (fun _ _ _ _ _ _ => trivial) h).2⟩
      | false =>
          rw [hrec, if_neg Bool.false_ne_true] at h
          rcases Fs.mkdirOk_cases h with hmk | ⟨rfl, hold⟩
          · exact ⟨fun q v hv => Fs.mkdir_mono hmk hv, fun _ => Fs.isDir_of_mkdir hmk⟩
          · exact ⟨Fs.Extends.refl _, fun _ => hold⟩

theorem splitAuto_spec {l : List Entry} (h : l.foldlM pkg.mkdir fs = .ok fs') : fs.Extends fs' ∧
    ∀ e ∈ l, e.isdir = true →
      fs'.isDir (Extract.parts (pathDiv pkg.destdir e.key.tail)) = true := by
  induction l generalizing fs with
  | nil =>
      cases h
      exact ⟨Fs.Extends.refl _, List.forall_mem_nil _⟩
  | cons e l ih =>
      rw [List.foldlM_cons] at h
      cases hmk : pkg.mkdir fs e with
      | error err =>
          rw [hmk] at h
          cases h
      | ok fs₁ =>
          rw [hmk] at h
          have hone := mkdir_spec hmk
          have hrest := ih h
          refine ⟨hone.1.trans hrest.1, List.forall_mem_cons.mpr ⟨fun hdir => ?_, hrest.2⟩⟩
          exact isDir_of_extends hrest.1 (hone.2 hdir)

/-- Every declared owner is set, on what the item denotes, exactly when no item that sets one has
a plus, and each can be written as it is. The directories of items with a plus are all there. -/
theorem chownLines_iff (hstage : 0 < pkg.stage) (root : Fs Str C) (below : List Str)
    (hsplit : pkg.splitAuto fs = .ok fs') :
    (Realises pkg (container root below fs') ↔
      ∀ e ∈ pkg.fileModes, noop e = false → Ready pkg (container root below fs') e) ∧
    ∀ e ∈ pkg.fileModes, e.isdir = true →
      fs'.isDir (Extract.parts (pathDiv pkg.destdir e.key.tail)) = true := by
  refine ⟨⟨fun h e he hset => ?_, fun h e he hset => ?_⟩, (splitAuto_spec hsplit).2⟩
  · have howned := h e he hset
    have hdir : e.isdir = false := by
      rw [← Bool.not_eq_true]
      exact fun hdir => not_runs_of_isdir hdir howned.runs
    have hrel : e.key.head? ≠ some '/' :=
      fun hrel => not_runs_of_absolute hstage hrel howned.runs
    have hruns := (runs_iff hstage hdir hrel).mp howned.runs
    exact ⟨hdir, hrel, hruns.1, hruns.2, howned.there⟩
  · have hready := h e he hset
    exact ⟨chownLine_mem hstage he hset,
      (runs_iff hstage hready.plain hready.relative).mpr ⟨hready.owner, hready.path⟩, hready.there⟩

/-! ## A package with a user of its own -/

private def fooPkg (key : Str) : Pkg where
  pkgname := "foo".toList
  pkgver := "1.0".toList
  crossArch := none
  stage := 3
  destdir := "/b/foo-1.0/foo".toList
  fileModes := [⟨key, .name "foo".toList, .name "foo".toList, 0o750, true⟩]
  fileXattrs := []

/-- The directories of `usr/foo`, below `/b`. -/
private def installed : Fs Str Nat :=
  [["b"], ["b", "foo-1.0"], ["b", "foo-1.0", "foo"], ["b", "foo-1.0", "foo", "usr"],
    ["b", "foo-1.0", "foo", "usr", "foo"]].map fun q => (q.map String.toList, .dir)

theorem fooDir_owned : Realises (fooPkg "usr/foo".toList) (container [] ["b".toList] installed) := by
  have hsplit : (fooPkg "usr/foo".toList).splitAuto installed = .ok installed := rfl
  refine (chownLines_iff (by decide) [] ["b".toList] hsplit).1.mpr (fun e he _ => ?_)
  rw [fooPkg, List.mem_singleton] at he
  subst he
  refine ⟨by decide, by decide, bareword_of_allSafe (by decide) (by decide), ?_, ?_⟩
  · decide +kernel
  · decide +kernel

/-- The directory is made without the plus, and its owner is changed with it. -/
theorem plusDir_not_owned : ¬ ∀ (pkg : Pkg) (root fs fs' : Fs Str Nat) (below : List Str),
    0 < pkg.stage → pkg.splitAuto fs = .ok fs' → Realises pkg (container root below fs') := by
  intro h
  have hmade : ((fooPkg "+var/lib/foo".toList).splitAuto installed).isOk = true := by
    decide +kernel
  cases hsplit : (fooPkg "+var/lib/foo".toList).splitAuto installed with
  | error e =>
      rw [hsplit] at hmade
      cases hmade
  | ok fs' =>
      have howned := h _ [] installed fs' ["b".toList] (by decide) hsplit _
        (List.mem_singleton_self _) (by decide)
      exact not_runs_of_isdir (by decide) howned.runs

end Cbuild.Chown
