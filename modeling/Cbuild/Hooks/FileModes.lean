import Cbuild.Apk.Token
import Cbuild.Lib.LastWins
import Mathlib

/-! # Modes of files

`000_handle_modes.py` applies the `file_modes` of a package to what is in its destdir.
An entry that is not recursive is applied to its path; for a recursive one the names
below the path are looked up in the working directory of the process, which may read
every directory and set every mode.
-/

namespace Cbuild.FileModes

open Lib

abbrev Place : Type := List Str

/-- A user or a group: a name, or a number. -/
inductive Owner
  | name (s : Str)
  | id (n : Nat)
  deriving DecidableEq

/-- One item of `file_modes`, a 3-tuple being a 4-tuple without the recursive flag. -/
structure Entry where
  key : Str
  uname : Owner
  gname : Owner
  fmode : Nat
  recursive : Bool
  deriving DecidableEq

/-- The names in a path, as `pathlib` sees them. -/
def parts (key : Str) : Place := (key.splitOn '/').filter fun n => n ≠ [] ∧ n ≠ ['.']

/-- An entry for a directory that is made later. -/
def Entry.isdir (e : Entry) : Bool := e.key.head? = some '+'

/-- A file or directory: one of the destdir, or some other. -/
inductive Loc
  | inside (q : Place)
  | outside (y : Str)
  deriving DecidableEq

/-- A destdir. Directories and files go by their own places, which no link is on the way to. -/
structure Destdir where
  places : List Place
  isLink : Place → Bool
  /-- What a path in the destdir leads to, links followed. -/
  lookup : Place → Option Loc
  lookup_inside : ∀ k q, lookup k = some (.inside q) → q ∈ places ∧ isLink q = false
  /-- The names below a directory that is not in the destdir. -/
  outsideNames : Str → List Str

/-- The names `os.walk` gives below a path: those of everything below the directory, links not
followed. All of them get one mode, so that their order does not matter. -/
def Destdir.walk (d : Destdir) : Loc → List Str
  | .inside q => (d.places.filter fun x => q.isPrefixOf x && q ≠ x).map fun x => x.getLastD []
  | .outside y => d.outsideNames y

abbrev Modes : Type := Loc → Nat

/-- What a bare name leads to in the working directory of the process. -/
abbrev Cwd : Type := Str → Option Loc

/-- `os.chmod` of a bare name, which raises if there is nothing of that name. -/
def chmodName (cwd : Cwd) (fmode : Nat) (m : Modes) (n : Str) : Option Modes :=
  (cwd n).map fun l => Function.update m l fmode

/-- One entry, once its value has been found to be valid. -/
def handle (d : Destdir) (cwd : Cwd) (m : Modes) (e : Entry) : Option Modes :=
  if e.isdir then some m
  else (d.lookup (parts e.key)).bind fun p =>
    if e.recursive then (d.walk p).foldlM (chmodName cwd e.fmode) m
    else some (Function.update m p e.fmode)

/-- Every path with an attribute of the security namespace has an explicit mode. -/
def xattrsExplicit (xattrs : List (Str × List Str)) (fileModes : List Entry) : Bool :=
  xattrs.all fun k => decide (k.1 ∈ fileModes.map Entry.key) ||
    k.2.all fun xa => !"security.".toList.isPrefixOf xa

/-- `invoke` -/
def invoke (d : Destdir) (xattrs : List (Str × List Str)) (cwd : Cwd) (fileModes : List Entry)
    (m : Modes) : Option Modes :=
  if xattrsExplicit xattrs fileModes then fileModes.foldlM (handle d cwd) m else none

/-! ## Declared modes -/

/-- A table the hook accepts. -/
structure Valid (d : Destdir) (xattrs : List (Str × List Str)) (fileModes : List Entry) : Prop where
  keys : (fileModes.map Entry.key).Nodup
  relative : ∀ e ∈ fileModes, e.key.head? ≠ some '/'
  found : ∀ e ∈ fileModes, e.isdir = false → (d.lookup (parts e.key)).isSome = true
  users : ∀ e ∈ fileModes, ∃ s, e.uname = .name s
  xattrs : xattrsExplicit xattrs fileModes = true

/-- An entry is for a place: its own path leads there. -/
def names (d : Destdir) (e : Entry) (x : Place) : Bool :=
  !e.isdir && d.lookup (parts e.key) = some (.inside x)

/-- An entry covers a place: it is for it, or is recursive and for a directory above. -/
def covers (d : Destdir) (e : Entry) (x : Place) : Bool :=
  !e.isdir &&
    match d.lookup (parts e.key) with
    | some (.inside q) => q = x || (e.recursive && q.isPrefixOf x)
    | _ => false

/-- The mode the table declares for a place: that of the last entry that covers it, or the mode
the place has. -/
def declared (d : Destdir) (fileModes : List Entry) (mode : Place → Nat) (x : Place) : Nat :=
  lastOf (covers d) Entry.fmode fileModes mode x

/-- The modes before the hook, in the destdir and elsewhere. -/
def start (mode : Place → Nat) (others : Str → Nat) : Modes
  | .inside x => mode x
  | .outside y => others y

/-- The declared modes are in force, and nothing else has changed. -/
structure Realised (d : Destdir) (fileModes : List Entry) (mode : Place → Nat)
    (others : Str → Nat) (m : Modes) : Prop where
  inside : ∀ x ∈ d.places, d.isLink x = false → m (.inside x) = declared d fileModes mode x
  outside : ∀ y, m (.outside y) = others y

/-- The hook does what the table declares, in every working directory and whatever the modes
outside the destdir are. -/
def Realises (d : Destdir) (xattrs : List (Str × List Str)) (fileModes : List Entry)
    (mode : Place → Nat) : Prop :=
  ∀ cwd others m, invoke d xattrs cwd fileModes (start mode others) = some m →
    Realised d fileModes mode others m

/-- A plain entry, which is applied to its own path. -/
def Entry.plain (e : Entry) : Bool := !e.isdir && !e.recursive

/-- When it does: no plain entry leads out of the destdir, there is nothing below the path of a
recursive one, and a recursive entry that is the last one for a place declares what the place has
without it. -/
structure Harmless (d : Destdir) (fileModes : List Entry) (mode : Place → Nat) : Prop where
  stays : ∀ e ∈ fileModes, e.plain = true → ∀ y, d.lookup (parts e.key) ≠ some (.outside y)
  empty : ∀ e ∈ fileModes, e.isdir = false → e.recursive = true →
    ∀ p, d.lookup (parts e.key) = some p → d.walk p = []
  own : ∀ x ∈ d.places, d.isLink x = false →
    ∀ e, (fileModes.filter (names d · x)).getLast? = some e → e.recursive = true →
    e.fmode = lastOf (fun e x => e.plain && names d e x) Entry.fmode fileModes mode x

/-! ## What the hook applies -/

/-- What an entry is applied to in a working directory. -/
def hits (d : Destdir) (cwd : Cwd) (e : Entry) (l : Loc) : Bool :=
  !e.isdir &&
    match d.lookup (parts e.key) with
    | none => false
    | some p => if e.recursive then (d.walk p).any fun n => cwd n = some l else l = p

variable {d : Destdir} {xattrs : List (Str × List Str)} {cwd : Cwd} {fileModes : List Entry}
  {mode : Place → Nat} {others : Str → Nat} {m : Modes} {e : Entry} {x : Place} {l : Loc}

theorem foldlM_chmodName (fmode : Nat) {ns : List Str} (h : ∀ n ∈ ns, (cwd n).isSome = true)
    (m : Modes) : ns.foldlM (chmodName cwd fmode) m =
      some fun l => if ns.any (fun n => cwd n = some l) then fmode else m l := by
  induction ns generalizing m with
  | nil => rfl
  | cons n ns ih =>
      obtain ⟨l₀, hl₀⟩ := Option.isSome_iff_exists.mp (h n (List.mem_cons_self ..))
      rw [List.foldlM_cons, chmodName, hl₀, Option.map_some]
      refine (ih (fun n' hn' => h n' (List.mem_cons_of_mem n hn')) _).trans ?_
      congr 1
      funext l
      rw [List.any_cons, hl₀]
      by_cases hns : ns.any (fun n => cwd n = some l) = true
      · simp [hns]
      · by_cases hl : l = l₀
        · simp [hl]
        · simp [hns, hl, Ne.symm hl]

/-- An entry whose names are all there is applied where it hits. -/
theorem handle_eq (hfound : e.isdir = false → (d.lookup (parts e.key)).isSome = true)
    (hnames : ∀ p, e.isdir = false → e.recursive = true → d.lookup (parts e.key) = some p →
      ∀ n ∈ d.walk p, (cwd n).isSome = true) (m : Modes) :
    handle d cwd m e = some (applyOne (hits d cwd) Entry.fmode m e) := by
  unfold handle
  cases hdir : e.isdir with
  | true =>
      rw [if_pos rfl]
      congr 1
      funext l
      simp [applyOne, hits, hdir]
  | false =>
      obtain ⟨p, hp⟩ := Option.isSome_iff_exists.mp (hfound hdir)
      rw [if_neg Bool.false_ne_true, hp, Option.bind_some]
      cases hrec : e.recursive with
      | true =>
          rw [if_pos rfl, foldlM_chmodName e.fmode (hnames p hdir hrec hp)]
          congr 1
          funext l
          simp only [applyOne, hits, hdir, hp, hrec]
          rfl
      | false =>
          rw [if_neg Bool.false_ne_true]
          congr 1
          funext l
          by_cases hl : l = p
          · simp [applyOne, hits, hdir, hp, hrec, hl]
          · simp [applyOne, hits, hdir, hp, hrec, hl]

/-- The modes after a run that finds every name: those of the last entries that hit. -/
theorem invoke_eq (cwd : Cwd) (hvalid : Valid d xattrs fileModes)
    (hnames : ∀ e ∈ fileModes, ∀ p, e.isdir = false → e.recursive = true →
      d.lookup (parts e.key) = some p → ∀ n ∈ d.walk p, (cwd n).isSome = true) (m : Modes) :
    invoke d xattrs cwd fileModes m = some (lastOf (hits d cwd) Entry.fmode fileModes m) := by
  rw [invoke, if_pos hvalid.xattrs, ← foldl_applyOne]
  have hfound := hvalid.found
  clear hvalid
  induction fileModes generalizing m with
  | nil => rfl
  | cons e es ih =>
      have he := List.mem_cons_self (a := e) (l := es)
      rw [List.foldlM_cons, handle_eq (hfound e he) (hnames e he)]
      exact ih (fun e' he' => hnames e' (List.mem_cons_of_mem e he'))
        _ (fun e' he' => hfound e' (List.mem_cons_of_mem e he'))

/-! ## Where nothing is below a recursive entry -/

/-- What a plain entry is applied to is what it is for. -/
theorem hits_eq_of_empty (hempty : e.isdir = false → e.recursive = true →
      ∀ p, d.lookup (parts e.key) = some p → d.walk p = []) (cwd : Cwd) (x : Place) :
    hits d cwd e (.inside x) = (e.plain && names d e x) := by
  unfold hits names Entry.plain
  cases hdir : e.isdir with
  | true => rfl
  | false =>
      cases hrec : e.recursive with
      | true =>
          cases hp : d.lookup (parts e.key) with
          | none => rfl
          | some p => simp [hempty hdir hrec p hp]
      | false =>
          cases hp : d.lookup (parts e.key) with
          | none => simp
          | some p => simp [eq_comm]

/-- Nothing is covered but what an entry is for. -/
theorem covers_eq_of_empty (hempty : e.isdir = false → e.recursive = true →
      ∀ p, d.lookup (parts e.key) = some p → d.walk p = []) (hx : x ∈ d.places) :
    covers d e x = names d e x := by
  unfold covers names
  cases hdir : e.isdir with
  | true => rfl
  | false =>
      cases hp : d.lookup (parts e.key) with
      | none => simp
      | some p =>
          cases p with
          | outside y => simp
          | inside q =>
              by_cases hq : q = x
              · simp [hq]
              · cases hrec : e.recursive with
                | false => simp [hq]
                | true =>
                    have hwalk := hempty hdir hrec _ hp
                    have hno : q.isPrefixOf x = false := by
                      rw [Bool.eq_false_iff]
                      intro hpre
                      have hmem : x.getLastD [] ∈ d.walk (.inside q) :=
                        List.mem_map_of_mem (List.mem_filter.mpr ⟨hx, by simp [hpre, hq]⟩)
                      rw [hwalk] at hmem
                      contradiction
                    simp [hq, hno]

theorem realised_of_harmless (hvalid : Valid d xattrs fileModes)
    (h : Harmless d fileModes mode) (cwd : Cwd) (others : Str → Nat) :
    ∃ m, invoke d xattrs cwd fileModes (start mode others) = some m ∧
      Realised d fileModes mode others m := by
  have hempty : ∀ e ∈ fileModes, e.isdir = false → e.recursive = true →
      ∀ p, d.lookup (parts e.key) = some p → d.walk p = [] := h.empty
  refine ⟨_, invoke_eq cwd hvalid (fun e he p hdir hrec hp n hn => ?_) _, fun x hx hno => ?_,
    fun y => ?_⟩
  · rw [hempty e he hdir hrec p hp] at hn
    contradiction
  · have hhits : lastOf (hits d cwd) Entry.fmode fileModes (start mode others) (.inside x) =
        lastOf (fun e x => e.plain && names d e x) Entry.fmode fileModes mode x := by
      rw [lastOf, lastOf, List.filter_congr (fun e he => hits_eq_of_empty (hempty e he) cwd x)]
      rfl
    have hcovers : declared d fileModes mode x = lastOf (names d) Entry.fmode fileModes mode x :=
      lastOf_congr (fun e he => covers_eq_of_empty (hempty e he) hx)
    rw [hhits, hcovers]
    cases hlast : (fileModes.filter (names d · x)).getLast? with
    | none =>
        have hnone : ∀ e ∈ fileModes, names d e x = false := by
          intro e he
          rw [List.getLast?_eq_none_iff] at hlast
          exact Bool.eq_false_iff.mpr (fun hn => List.filter_eq_nil_iff.mp hlast e he hn)
        rw [lastOf_of_none hnone, lastOf_of_none (fun e he => by rw [hnone e he, Bool.and_false])]
    | some e =>
        rw [lastOf_of_last hlast]
        cases hrec : e.recursive with
        | true => exact (h.own x hx hno e hlast hrec).symm
        | false =>
            have hnames : names d e x = true :=
              (List.mem_filter.mp (List.mem_of_getLast? hlast)).2
            have hdir : e.isdir = false := by
              unfold names at hnames
              rw [Bool.and_eq_true, Bool.not_eq_true'] at hnames
              exact hnames.1
            have hplain : (fileModes.filter fun e => e.plain && names d e x).getLast? = some e := by
              refine getLast?_filter_of_last (names d)
                (fun e x => e.plain && names d e x) (fun e' _ he' => ?_) hlast ?_
              · rw [Bool.and_eq_true] at he'
                exact he'.2
              · simp [Entry.plain, hdir, hrec, hnames]
            exact lastOf_of_last hplain
  · have hnone : ∀ e ∈ fileModes, hits d cwd e (.outside y) = false := by
      intro e he
      unfold hits
      cases hdir : e.isdir with
      | true => rfl
      | false =>
          cases hp : d.lookup (parts e.key) with
          | none => rfl
          | some p =>
              cases hrec : e.recursive with
              | true => simp [hempty e he hdir hrec p hp]
              | false =>
                  have hne : p ≠ .outside y := by
                    intro heq
                    exact h.stays e he (by simp [Entry.plain, hdir, hrec]) y (hp.trans (by rw [heq]))
                  simp [Ne.symm hne]
    exact lastOf_of_none hnone

/-- What is hit outside the destdir can be seen to change. -/
theorem not_hits_outside (hvalid : Valid d xattrs fileModes)
    (h : Realises d xattrs fileModes mode) {y : Str} (cwd : Cwd) (hcwd : ∀ n, (cwd n).isSome = true)
    (he : e ∈ fileModes) : hits d cwd e (.outside y) = false := by
  rw [Bool.eq_false_iff]
  intro hhit
  -- a mode that no entry declares
  have hbound : ∀ e' ∈ fileModes, e'.fmode < (fileModes.map Entry.fmode).sum + 1 := fun e' he' =>
    Nat.lt_succ_of_le (List.single_le_sum (by simp) _ (List.mem_map_of_mem he'))
  have hrun := invoke_eq cwd hvalid (fun _ _ _ _ _ _ n _ => hcwd n)
    (start mode fun _ => (fileModes.map Entry.fmode).sum + 1)
  have hsame := (h cwd _ _ hrun).outside y
  have hentry : ∃ e' ∈ fileModes, lastOf (hits d cwd) Entry.fmode fileModes
      (start mode fun _ => (fileModes.map Entry.fmode).sum + 1) (.outside y) = e'.fmode :=
    exists_lastOf_eq ⟨e, he, hhit⟩
  obtain ⟨e', he', heq⟩ := hentry
  have hlt := hbound e' he'
  omega

theorem harmless_of_realises (hvalid : Valid d xattrs fileModes)
    (h : Realises d xattrs fileModes mode) : Harmless d fileModes mode := by
  have hempty : ∀ e ∈ fileModes, e.isdir = false → e.recursive = true →
      ∀ p, d.lookup (parts e.key) = some p → d.walk p = [] := by
    intro e he hdir hrec p hp
    by_contra hne
    obtain ⟨n, hn⟩ := List.exists_mem_of_ne_nil _ hne
    -- a working directory in which every name leads out of the destdir
    have hno := not_hits_outside hvalid h (y := []) (fun _ => some (.outside [])) (fun _ => rfl) he
    rw [hits, hdir, hp, hrec] at hno
    simp only [Bool.not_false, Bool.true_and, if_true, decide_true] at hno
    exact absurd hn (by simpa using List.any_eq_false.mp hno n)
  refine ⟨fun e he hplain y hp => ?_, hempty, fun x hx hno e hlast hrec => ?_⟩
  · have hno := not_hits_outside hvalid h (y := y) (fun _ => some (.outside [])) (fun _ => rfl) he
    rw [Entry.plain, Bool.and_eq_true, Bool.not_eq_true', Bool.not_eq_true'] at hplain
    rw [hits, hplain.1, hp, hplain.2] at hno
    simp at hno
  · have hrun := invoke_eq (fun _ => none) hvalid
      (fun e he p hdir hrec hp n hn => by rw [hempty e he hdir hrec p hp] at hn; contradiction)
      (start mode fun _ => 0)
    have hmode := (h _ _ _ hrun).inside x hx hno
    have hhits : lastOf (hits d fun _ => none) Entry.fmode fileModes (start mode fun _ => 0)
        (.inside x) = lastOf (fun e x => e.plain && names d e x) Entry.fmode fileModes mode x := by
      rw [lastOf, lastOf, List.filter_congr (fun e he => hits_eq_of_empty (hempty e he) _ x)]
      rfl
    have hcovers : declared d fileModes mode x = lastOf (names d) Entry.fmode fileModes mode x :=
      lastOf_congr (fun e he => covers_eq_of_empty (hempty e he) hx)
    rw [hhits, hcovers, lastOf_of_last hlast] at hmode
    exact hmode.symm

/-- The hook does what a valid table declares exactly when its recursive entries are harmless and
no plain one leads out of the destdir; it returns then. -/
theorem realises_iff (hvalid : Valid d xattrs fileModes) :
    (Realises d xattrs fileModes mode ↔ Harmless d fileModes mode) ∧
      (Harmless d fileModes mode → ∀ cwd others,
        (invoke d xattrs cwd fileModes (start mode others)).isSome = true) := by
  refine ⟨⟨harmless_of_realises hvalid, fun h cwd others m hrun => ?_⟩, fun h cwd others => ?_⟩
  · obtain ⟨m', hrun', hreal⟩ := realised_of_harmless hvalid h cwd others
    rw [hrun, Option.some.injEq] at hrun'
    exact hrun' ▸ hreal
  · obtain ⟨m, hrun, _⟩ := realised_of_harmless hvalid h cwd others
    rw [hrun]
    rfl

/-! ## A directory and a file in it -/

private def dirPlace : Place := ["usr".toList, "foo".toList]

private def filePlace : Place := ["usr".toList, "foo".toList, "bar".toList]

private def fooTree : Destdir where
  places := [["usr".toList], dirPlace, filePlace]
  isLink _ := false
  lookup k := if k ∈ [["usr".toList], dirPlace, filePlace] then some (.inside k) else none
  lookup_inside := by
    intro k q h
    by_cases hk : k ∈ [["usr".toList], dirPlace, filePlace]
    · rw [if_pos hk, Option.some.injEq, Loc.inside.injEq] at h
      exact ⟨h ▸ hk, rfl⟩
    · rw [if_neg hk] at h
      cases h
  outsideNames _ := []

private def rootMode (key : Str) (fmode : Nat) (recursive : Bool) : Entry :=
  ⟨key, .name "root".toList, .name "root".toList, fmode, recursive⟩

private def barMode : Entry := rootMode "usr/foo/bar".toList 0o750 false

private def fooModes : Entry := rootMode "usr/foo".toList 0o750 true

private theorem fooTree_valid (key : Str) (fmode : Nat) (recursive : Bool)
    (hrel : key.head? ≠ some '/') (hfound : (fooTree.lookup (parts key)).isSome = true) :
    Valid fooTree [] [rootMode key fmode recursive] where
  keys := List.nodup_singleton _
  relative := by
    intro e he
    rw [List.mem_singleton.mp he]
    exact hrel
  found := by
    intro e he _
    rw [List.mem_singleton.mp he]
    exact hfound
  users := by
    intro e he
    rw [List.mem_singleton.mp he]
    exact ⟨_, rfl⟩
  xattrs := rfl

theorem barMode_realises : Realises fooTree [] [barMode] fun _ => 0o644 := by
  refine (realises_iff (fooTree_valid _ _ _ (by decide) (by decide +kernel))).1.mpr ⟨?_, ?_, ?_⟩
  · intro e he _ y
    rw [List.mem_singleton.mp he]
    have hin : fooTree.lookup (parts barMode.key) = some (.inside filePlace) := by decide +kernel
    rw [barMode] at hin
    rw [hin]
    simp
  · intro e he _ hrec
    rw [List.mem_singleton.mp he] at hrec
    cases hrec
  · intro x _ _ e he hrec
    have hmem := List.mem_of_mem_filter (List.mem_of_getLast? he)
    rw [List.mem_singleton.mp hmem] at hrec
    cases hrec

/-- A working directory with a file `bar` of its own: that one gets the mode. -/
theorem fooModes_elsewhere : ¬ ∀ (d : Destdir) (xattrs : List (Str × List Str))
    (fileModes : List Entry) (mode : Place → Nat), Valid d xattrs fileModes →
      Realises d xattrs fileModes mode := by
  intro h
  have hreal := h fooTree [] [fooModes] (fun _ => 0o644)
    (fooTree_valid _ _ _ (by decide) (by decide +kernel))
  have hrun : invoke fooTree [] (fun n => some (.outside n)) [fooModes]
      (start (fun _ => 0o644) fun _ => 0o644) =
        some (Function.update (start (fun _ => 0o644) fun _ => 0o644) (.outside "bar".toList)
          0o750) := by
    have hp : fooTree.lookup (parts fooModes.key) = some (.inside dirPlace) := by decide +kernel
    have hwalk : fooTree.walk (.inside dirPlace) = ["bar".toList] := by decide +kernel
    have hdir : fooModes.isdir = false := by decide
    rw [invoke, if_pos (by rfl), List.foldlM_cons, handle, hdir, if_neg Bool.false_ne_true, hp,
      Option.bind_some, hwalk]
    rfl
  have hsame := (hreal _ _ _ hrun).outside "bar".toList
  rw [Function.update_self] at hsame
  exact absurd hsame (by decide)

end Cbuild.FileModes
