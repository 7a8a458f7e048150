import Cbuild.Fetch.Synced
import Cbuild.Lib.Dict

/-! # Pruning the sources

`do_prune_sources` of `runner.py` keeps the entries of the `by_sha256` cache whose sum is in the
text of a template, and of the source directories those of current versions, with the files that
are links of such an entry.
-/

namespace Cbuild.Fetch

open Lib

/-! ## The sums in a template -/

/-- `[0-9a-fA-F]` -/
def isHexDigit (c : Char) : Bool :=
  ('0' ≤ c && c ≤ '9') || ('a' ≤ c && c ≤ 'f') || ('A' ≤ c && c ≤ 'F')

/-- `"[0-9a-fA-F]{64}"` at the start of the text, without its quotes. -/
def matchSha : Str → Option Str
  | '"' :: s =>
      let sha := s.take 64
      if sha.length = 64 ∧ sha.all isHexDigit ∧ (s.drop 64).head? = some '"' then some sha else none
  | _ => none

/-- `re.findall`, after so many characters that belong to the last match. -/
def findShas : Nat → Str → List Str
  | _, [] => []
  | skip + 1, _ :: s => findShas skip s
  | 0, c :: s =>
      match matchSha (c :: s) with
      | some sha => sha :: findShas 65 s
      | none => findShas 0 s

def lower (s : Str) : Str := s.map Char.toLower

structure Tmpl where
  /-- The name and the version, unless the template is in error. -/
  pkg : Option (Str × Str)
  /-- The lines of its `template.py`. -/
  lines : List Str

/-- The directory of the sources of a package. -/
def dirName (pkg : Str × Str) : Str := pkg.1 ++ '-' :: pkg.2

def existing (tmpls : List Tmpl) : List Str := (tmpls.filterMap Tmpl.pkg).map dirName

def shaList (tmpls : List Tmpl) : List Str :=
  tmpls.flatMap fun t => t.lines.flatMap fun ln => (findShas 0 ln).map lower

/-! ## The directories -/

/-- What a name stands for. What a link points to is not looked at. -/
inductive Entry
  | file (ino : Nat)
  | link (ino : Nat)
  | dir (ino : Nat) (entries : List (Str × Entry))
  | other (ino : Nat)

/-- `lstat().st_ino` -/
def Entry.ino : Entry → Nat
  | file ino => ino
  | link ino => ino
  | dir ino _ => ino
  | other ino => ino

/-- `is_file() and not is_symlink()` -/
def Entry.isFile : Entry → Bool
  | file _ => true
  | _ => false

structure Sources where
  /-- The entries of `by_sha256`, which is made if it is not there. -/
  bySha256 : Dict Str Entry
  /-- Everything else in the directory of sources. -/
  rest : Dict Str Entry

/-- `_prune_path` -/
def prunePath (dryrun : Bool) (f : Str × Entry) (left : Dict Str Entry) : Dict Str Entry :=
  if dryrun then f :: left else left

/-- The first loop: what is left, the inodes of what is kept and the log. -/
def pruneHardlinks (dryrun : Bool) (shalist : List Str) :
    Dict Str Entry → Dict Str Entry × List Nat × List Str
  | [] => ([], [], [])
  | sf :: es =>
      let (left, inoset, log) := pruneHardlinks dryrun shalist es
      let cks := lower (sf.1.take 64)
      if cks.length ≠ 64 ∨ cks ∉ shalist ∨ sf.2.isFile = false then
        (prunePath dryrun sf left, inoset, ("Prune hardlink: ".toList ++ sf.1) :: log)
      else (sf :: left, sf.2.ino :: inoset, log)

/-- The loop over a source directory. -/
def pruneUntracked (dryrun : Bool) (inoset : List Nat) :
    Dict Str Entry → Dict Str Entry × List Str
  | [] => ([], [])
  | sf :: es =>
      let (left, log) := pruneUntracked dryrun inoset es
      if sf.2.ino ∉ inoset then
        (prunePath dryrun sf left, ("Prune untracked: ".toList ++ sf.1) :: log)
      else (sf :: left, log)

/-- The second loop. -/
def pruneOrphaned (dryrun : Bool) (exist : List Str) (inoset : List Nat) :
    Dict Str Entry → Dict Str Entry × List Str
  | [] => ([], [])
  | f :: es =>
      let (left, log) := pruneOrphaned dryrun exist inoset es
      if f.1 = "cbuild.lock".toList then (f :: left, log)
      else if f.1 ∉ exist then
        (prunePath dryrun f left, ("Prune orphaned: ".toList ++ f.1) :: log)
      else
        match f.2 with
        | .dir ino entries =>
            let (entries, untracked) := pruneUntracked dryrun inoset entries
            ((f.1, .dir ino entries) :: left, untracked ++ log)
        | _ => (prunePath dryrun f left, ("Prune spurious: ".toList ++ f.1) :: log)

/-- `do_prune_sources` -/
def doPruneSources (dryrun : Bool) (tmpls : List Tmpl) (s : Sources) : Sources × List Str :=
  let (bySha256, inoset, hardlinks) := pruneHardlinks dryrun (shaList tmpls) s.bySha256
  let (rest, orphaned) := pruneOrphaned dryrun (existing tmpls) inoset s.rest
  (⟨bySha256, rest⟩,
    ["Collecting templates...".toList, "Reading templates...".toList,
      "Collecting checksums...".toList, "Collecting inodes and pruning hardlinks...".toList] ++
    hardlinks ++ "Pruning sources...".toList :: orphaned ++ ["Sources pruning complete.".toList])

/-! ## The sums that are found -/

/-- A sum has 64 digits. -/
theorem matchSha_some {s sha : Str} (h : matchSha s = some sha) : ∃ rest, s = '"' :: sha ++ '"' :: rest ∧
    sha.length = 64 ∧ sha.all isHexDigit = true := by
  unfold matchSha at h
  split at h
  · rename_i s
    dsimp only at h
    split at h
    · rename_i hsha
      cases h
      obtain ⟨rest, hrest⟩ := List.head?_eq_some_iff.mp hsha.2.2
      refine ⟨rest, ?_, hsha.1, hsha.2.1⟩
      rw [List.cons_append, ← hrest, List.take_append_drop]
    · nomatch h
  · nomatch h

theorem length_of_mem_findShas {skip : Nat} {s sha : Str} (h : sha ∈ findShas skip s) :
    sha.length = 64 := by
  induction s generalizing skip with
  | nil => cases skip <;> nomatch h
  | cons c s ih =>
      cases skip with
      | succ skip => exact ih h
      | zero =>
          rw [findShas] at h
          cases hmatch : matchSha (c :: s) with
          | none =>
              rw [hmatch] at h
              exact ih h
          | some sha' =>
              rw [hmatch] at h
              rcases List.mem_cons.mp h with rfl | h
              · obtain ⟨-, -, hlen, -⟩ := matchSha_some hmatch
                exact hlen
              · exact ih h

variable {shalist exist : List Str} {inoset : List Nat}

/-- The cache keeps the file. -/
def Wanted (shalist : List Str) (sf : Str × Entry) : Bool :=
  decide ((lower (sf.1.take 64)).length = 64 ∧ lower (sf.1.take 64) ∈ shalist) && sf.2.isFile

/-- A source directory keeps the file. -/
def Tracked (inoset : List Nat) (sf : Str × Entry) : Bool := decide (sf.2.ino ∈ inoset)

/-- What is left of an entry of the directory of sources. -/
def leaves (exist : List Str) (inoset : List Nat) (f : Str × Entry) : Option (Str × Entry) :=
  if f.1 = "cbuild.lock".toList then some f
  else if f.1 ∉ exist then none
  else
    match f.2 with
    | .dir ino entries => some (f.1, .dir ino (entries.filter (Tracked inoset)))
    | _ => none

theorem pruneHardlinks_eq (shalist : List Str) (es : Dict Str Entry) (dryrun : Bool) :
    ((pruneHardlinks dryrun shalist es).1 = if dryrun then es else es.filter (Wanted shalist)) ∧
      (pruneHardlinks dryrun shalist es).2.1 = (es.filter (Wanted shalist)).map (·.2.ino) ∧
      (pruneHardlinks dryrun shalist es).2.2 =
        (es.filter fun sf => !Wanted shalist sf).map fun sf => "Prune hardlink: ".toList ++ sf.1 := by
  induction es with
  | nil => cases dryrun <;> exact ⟨rfl, rfl, rfl⟩
  | cons sf es ih =>
      obtain ⟨hleft, hinoset, hlog⟩ := ih
      rw [pruneHardlinks]
      dsimp only
      by_cases hw : Wanted shalist sf = true
      · have hno : ¬ ((lower (sf.1.take 64)).length ≠ 64 ∨ lower (sf.1.take 64) ∉ shalist ∨
            sf.2.isFile = false) := by
          simp only [Wanted, Bool.and_eq_true, decide_eq_true_eq] at hw
          simp [hw.1.1, hw.1.2, hw.2]
        rw [if_neg hno, hleft, hinoset, hlog]
        cases dryrun <;> simp [hw]
      · have hyes : (lower (sf.1.take 64)).length ≠ 64 ∨ lower (sf.1.take 64) ∉ shalist ∨
            sf.2.isFile = false := by
          simp only [Wanted, Bool.and_eq_true, decide_eq_true_eq] at hw
          by_contra hno
          push Not at hno
          exact hw ⟨⟨hno.1, hno.2.1⟩, by simpa using hno.2.2⟩
        rw [if_pos hyes, hleft, hinoset, hlog]
        unfold prunePath
        cases dryrun <;> simp [hw]

theorem pruneUntracked_eq (es : Dict Str Entry) (dryrun : Bool) :
    ((pruneUntracked dryrun inoset es).1 = if dryrun then es else es.filter (Tracked inoset)) ∧
      (pruneUntracked dryrun inoset es).2 =
        (es.filter fun sf => !Tracked inoset sf).map fun sf => "Prune untracked: ".toList ++ sf.1 := by
  induction es with
  | nil => cases dryrun <;> exact ⟨rfl, rfl⟩
  | cons sf es ih =>
      rw [pruneUntracked]
      dsimp only
      rw [ih.1, ih.2]
      unfold prunePath Tracked
      by_cases ht : sf.2.ino ∈ inoset
      · cases dryrun <;> simp [ht]
      · cases dryrun <;> simp [ht]

/-- One step of the second loop, by what it leaves of the entry. -/
theorem pruneOrphaned_cons (f : Str × Entry) (es : Dict Str Entry) (dryrun : Bool) :
    (pruneOrphaned dryrun exist inoset (f :: es)).1 =
      (if dryrun then some f else leaves exist inoset f).toList ++
        (pruneOrphaned dryrun exist inoset es).1 := by
  obtain ⟨name, e⟩ := f
  rw [pruneOrphaned]
  dsimp only
  unfold leaves prunePath
  dsimp only
  by_cases hlock : name = "cbuild.lock".toList
  · rw [if_pos hlock, if_pos hlock]
    cases dryrun <;> rfl
  · rw [if_neg hlock, if_neg hlock]
    by_cases hexist : name ∉ exist
    · rw [if_pos hexist, if_pos hexist]
      cases dryrun <;> rfl
    · rw [if_neg hexist, if_neg hexist]
      cases e with
      | dir ino entries =>
          dsimp only
          rw [(pruneUntracked_eq entries dryrun).1]
          cases dryrun <;> rfl
      | file ino => cases dryrun <;> rfl
      | link ino => cases dryrun <;> rfl
      | other ino => cases dryrun <;> rfl

theorem pruneOrphaned_left (es : Dict Str Entry) (dryrun : Bool) :
    (pruneOrphaned dryrun exist inoset es).1 =
      if dryrun then es else es.filterMap (leaves exist inoset) := by
  induction es with
  | nil => cases dryrun <;> rfl
  | cons f es ih =>
      rw [pruneOrphaned_cons, ih, List.filterMap_cons]
      cases dryrun with
      | true => rfl
      | false => cases leaves exist inoset f <;> rfl

/-- A dry run tells what a real one would delete. -/
theorem pruneOrphaned_log (es : Dict Str Entry) (dryrun : Bool) :
    (pruneOrphaned dryrun exist inoset es).2 = (pruneOrphaned false exist inoset es).2 := by
  induction es with
  | nil => rfl
  | cons f es ih =>
      obtain ⟨name, e⟩ := f
      rw [pruneOrphaned, pruneOrphaned]
      dsimp only
      by_cases hlock : name = "cbuild.lock".toList
      · rw [if_pos hlock, if_pos hlock]
        exact ih
      · rw [if_neg hlock, if_neg hlock]
        by_cases hexist : name ∉ exist
        · rw [if_pos hexist, if_pos hexist]
          show _ :: _ = _ :: _
          rw [ih]
        · rw [if_neg hexist, if_neg hexist]
          cases e with
          | dir ino entries =>
              dsimp only
              rw [(pruneUntracked_eq entries dryrun).2, (pruneUntracked_eq entries false).2, ih]
          | file ino =>
              show _ :: _ = _ :: _
              rw [ih]
          | link ino =>
              show _ :: _ = _ :: _
              rw [ih]
          | other ino =>
              show _ :: _ = _ :: _
              rw [ih]

/-! ## The function -/

variable {tmpls : List Tmpl} {s : Sources}

/-- The inodes of the files that the cache keeps. -/
def keptInodes (tmpls : List Tmpl) (s : Sources) : List Nat :=
  (s.bySha256.filter (Wanted (shaList tmpls))).map (·.2.ino)

theorem doPruneSources_dry (tmpls : List Tmpl) (s : Sources) :
    (doPruneSources true tmpls s).1 = s ∧
      (doPruneSources true tmpls s).2 = (doPruneSources false tmpls s).2 := by
  obtain ⟨hleft, hinoset, hlog⟩ := pruneHardlinks_eq (shaList tmpls) s.bySha256 true
  obtain ⟨-, hinoset', hlog'⟩ := pruneHardlinks_eq (shaList tmpls) s.bySha256 false
  unfold doPruneSources
  dsimp only
  rw [hleft, hinoset, hlog, hinoset', hlog', pruneOrphaned_left, pruneOrphaned_log]
  exact ⟨rfl, rfl⟩

theorem doPruneSources_left (tmpls : List Tmpl) (s : Sources) :
    (doPruneSources false tmpls s).1 =
      ⟨s.bySha256.filter (Wanted (shaList tmpls)),
        s.rest.filterMap (leaves (existing tmpls) (keptInodes tmpls s))⟩ := by
  obtain ⟨hleft, hinoset, -⟩ := pruneHardlinks_eq (shaList tmpls) s.bySha256 false
  unfold doPruneSources
  dsimp only
  rw [hleft, hinoset, pruneOrphaned_left]
  rfl

/-- Pruning again finds the same inodes. -/
theorem keptInodes_left : keptInodes tmpls (doPruneSources false tmpls s).1 = keptInodes tmpls s := by
  rw [doPruneSources_left]
  unfold keptInodes
  rw [List.filter_filter]
  simp

theorem leaves_leaves {f f' : Str × Entry} (h : leaves exist inoset f = some f') :
    leaves exist inoset f' = some f' := by
  obtain ⟨name, e⟩ := f
  unfold leaves at h
  dsimp only at h
  split at h
  · rename_i hlock
    cases h
    unfold leaves
    rw [if_pos hlock]
  · rename_i hlock
    split at h
    · nomatch h
    · rename_i hexist
      cases e with
      | dir ino entries =>
          cases h
          unfold leaves
          rw [if_neg hlock, if_neg hexist]
          dsimp only
          rw [List.filter_filter]
          simp
      | file ino => nomatch h
      | link ino => nomatch h
      | other ino => nomatch h

theorem doPruneSources_idem (tmpls : List Tmpl) (s : Sources) :
    (doPruneSources false tmpls (doPruneSources false tmpls s).1).1 =
      (doPruneSources false tmpls s).1 := by
  rw [doPruneSources_left tmpls (doPruneSources false tmpls s).1, keptInodes_left,
    doPruneSources_left]
  congr 1
  · rw [List.filter_filter]
    simp
  · rw [List.filterMap_filterMap]
    apply List.filterMap_congr
    intro f _
    cases hf : leaves (existing tmpls) (keptInodes tmpls s) f with
    | none => rfl
    | some f' => exact leaves_leaves hf

/-- The sums that are collected have 64 characters. -/
theorem length_of_mem_shaList {sum : Str} (h : sum ∈ shaList tmpls) : sum.length = 64 := by
  unfold shaList at h
  obtain ⟨t, -, h⟩ := List.mem_flatMap.mp h
  obtain ⟨ln, -, h⟩ := List.mem_flatMap.mp h
  obtain ⟨sha, hsha, rfl⟩ := List.mem_map.mp h
  rw [lower, List.length_map]
  exact length_of_mem_findShas hsha

/-- What is left is the files of the cache whose sums are in the templates, and in the directories
of current versions what is a link of those. A dry run reports what would be deleted. -/
theorem doPruneSources_exact (tmpls : List Tmpl) (s : Sources) :
    let kept := (doPruneSources false tmpls s).1
    (∀ sf, sf ∈ kept.bySha256 ↔
      sf ∈ s.bySha256 ∧ sf.2.isFile = true ∧ lower (sf.1.take 64) ∈ shaList tmpls) ∧
    (∀ f, f ∈ kept.rest ↔ f ∈ s.rest ∧ f.1 = "cbuild.lock".toList ∨
      f.1 ≠ "cbuild.lock".toList ∧ f.1 ∈ existing tmpls ∧ ∃ ino es, (f.1, .dir ino es) ∈ s.rest ∧
        f.2 = .dir ino (es.filter fun sf => kept.bySha256.any fun c => c.2.ino = sf.2.ino)) ∧
    (doPruneSources false tmpls kept).1 = kept ∧
    doPruneSources true tmpls s = (s, (doPruneSources false tmpls s).2) := by
  have htracked : Tracked (keptInodes tmpls s) = fun sf : Str × Entry =>
      (s.bySha256.filter (Wanted (shaList tmpls))).any fun c => c.2.ino = sf.2.ino := by
    funext sf
    unfold Tracked keptInodes
    rw [Bool.eq_iff_iff, decide_eq_true_iff, List.mem_map, List.any_eq_true]
    simp only [decide_eq_true_eq]
  refine ⟨?_, ?_, doPruneSources_idem tmpls s, Prod.ext (doPruneSources_dry tmpls s).1
    (doPruneSources_dry tmpls s).2⟩
  · intro sf
    rw [doPruneSources_left, List.mem_filter, Wanted, Bool.and_eq_true, decide_eq_true_iff]
    constructor
    · rintro ⟨hmem, ⟨-, hsum⟩, hfile⟩
      exact ⟨hmem, hfile, hsum⟩
    · rintro ⟨hmem, hfile, hsum⟩
      exact ⟨hmem, ⟨length_of_mem_shaList hsum, hsum⟩, hfile⟩
  · intro f
    rw [doPruneSources_left, List.mem_filterMap]
    dsimp only
    rw [← htracked]
    constructor
    · rintro ⟨⟨name, e⟩, hmem, hleaves⟩
      unfold leaves at hleaves
      dsimp only at hleaves
      by_cases hlock : name = "cbuild.lock".toList
      · rw [if_pos hlock] at hleaves
        cases hleaves
        exact Or.inl ⟨hmem, hlock⟩
      · rw [if_neg hlock] at hleaves
        by_cases hexist : name ∈ existing tmpls
        · rw [if_neg (not_not.mpr hexist)] at hleaves
          cases e with
          | dir ino es =>
              cases hleaves
              exact Or.inr ⟨hlock, hexist, ino, es, hmem, rfl⟩
          | file ino => nomatch hleaves
          | link ino => nomatch hleaves
          | other ino => nomatch hleaves
        · rw [if_pos hexist] at hleaves
          nomatch hleaves
    · rintro (⟨hmem, hlock⟩ | ⟨hlock, hexist, ino, es, hmem, he⟩)
      · refine ⟨f, hmem, ?_⟩
        unfold leaves
        rw [if_pos hlock]
      · refine ⟨_, hmem, ?_⟩
        unfold leaves
        rw [if_neg hlock, if_neg (not_not.mpr hexist)]
        dsimp only
        rw [← he]

/-! ## Fetching after pruning -/

/-- What the hook sees of an entry. It makes no symbolic links. -/
def Entry.node : Entry → Node
  | .file ino => .file ino
  | _ => .other

/-- The disk as it is for the fetch of a package. -/
def Sources.disk (s : Sources) (dir : Str) (content : Nat → Bytes) : Disk where
  src := fun n =>
    match s.rest.get dir with
    | some (.dir _ es) => (Dict.get es n).map Entry.node
    | _ => none
  cache := fun k => (s.bySha256.get k).map Entry.node
  content := content

variable {sha256 : Bytes → Str} {content : Nat → Bytes} {src : Source}

end Cbuild.Fetch
