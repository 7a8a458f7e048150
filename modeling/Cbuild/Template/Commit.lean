import Cbuild.Bulk.Order
import Cbuild.Lib.Dict
import Cbuild.Lib.Traverse

/-! # Commit messages

`do_commit` of `runner.py`: the old and the current state of every given template are
read first, then the templates are committed in the order of a bulk run, those the run
does not list at the end. The loop that commits takes the current state out of a table
and the old one from a variable the loops before it have left behind.
-/

namespace Cbuild.Commit

open Lib Bulk

/-- What a commit message depends on in a template. -/
structure Template where
  pkgver : Str
  pkgrel : Nat
  deriving DecidableEq

/-- `otmpl`: `False` without a template in `HEAD`, `None` if that one does not parse. -/
inductive Old
  | absent
  | unparseable
  | parsed (tmpl : Template)
  deriving DecidableEq

/-- What `do_commit` finds outside itself. -/
structure World where
  /-- `sanitize_pkgname`, before the links of the subpackages are made anew. -/
  sanitizePkgname : Str → Sanitized
  /-- What the bulk run finds. -/
  bulk : Bulk.World
  /-- A template goes by its own name, whatever links have been made. -/
  sanitize_own : ∀ tmp repository pkgname, sanitizePkgname tmp = .found repository pkgname →
    bulk.sanitizePkgname (fullPkgname repository pkgname) = .found repository pkgname
  /-- `git show HEAD:relh` for the template of this name. -/
  showHead : Str → Option Str
  /-- `build_tmpl`, with the contents that are given or those of the file. -/
  buildTmpl : Str → Option Str → Option Template

/-- One of `tmplos`. -/
structure Entry where
  fullPkgname : Str
  tmpl : Template
  otmpl : Old
  deriving DecidableEq

/-- The full name of a template that is given. -/
def World.name (w : World) (tmp : Str) : Option Str :=
  match w.sanitizePkgname tmp with
  | .found repository pkgname => some (fullPkgname repository pkgname)
  | _ => none

/-- The current state of a template, which has to be there. -/
def World.current (w : World) (n : Str) : Option Template := w.buildTmpl n none

/-- The state of a template in `HEAD`. -/
def World.old (w : World) (n : Str) : Old :=
  match w.showHead n with
  | none => .absent
  | some head =>
      match w.buildTmpl n (some head) with
      | some tmpl => .parsed tmpl
      | none => .unparseable

/-- What the first loop stores for a name; it raises if there is none. -/
def World.entry (w : World) (tmp : Str) : Option Entry :=
  (w.name tmp).bind fun n => (w.current n).map fun tmpl => ⟨n, tmpl, w.old n⟩

/-! The texts behind the name in a message. -/

def newPackage : Str := ": new package".toList

def fix : Str := ": fix [reason here]".toList

def updateTo : Str := ": update to ".toList

def rebuild : Str := ": rebuild for [reason here]".toList

def description : Str := ": [description here]".toList

/-- The message for a template. -/
def message (n : Str) (tmpl : Template) (otmpl : Old) : Str :=
  match otmpl with
  | .absent => n ++ newPackage
  | .unparseable => n ++ fix
  | .parsed o =>
      if o.pkgver ≠ tmpl.pkgver then n ++ updateTo ++ tmpl.pkgver
      else if o.pkgrel ≠ tmpl.pkgrel then n ++ rebuild
      else n ++ description

/-- The options of the bulk run that sorts the templates. -/
def sorting (o : Opts) : Opts := { o with doRaw := false, doBuild := .collect }

/-- `stmpls`: what the bulk run has listed, then the rest as given. -/
def stmpls (itmpls sorted : List Str) : List Str :=
  sorted ++ itmpls.filter fun n => n ∉ sorted

/-- `bulkmap` -/
def bulkmap (tmplos : List Entry) : Dict Str Entry :=
  tmplos.foldl (fun d e => d.set e.fullPkgname e) []

/-- One commit: the template and its message. `otmpl` is what the loops have left behind, and
the old state in the table is not looked at. -/
def commitOne (bulkmap : Dict Str Entry) (otmpl : Option Old) (tmpln : Str) : Option (Str × Str) :=
  (bulkmap.get tmpln).bind fun e => otmpl.map fun otmpl => (tmpln, message e.fullPkgname e.tmpl otmpl)

/-- `do_commit` for a list of templates: the templates that are committed, with their messages,
unless it raises. `ordl` is what `static_order` yields in the bulk run. -/
def doCommit (o : Opts) (w : World) (tmpls : List Str) (ordl : Option (List Str)) :
    Option (List (Str × Str)) :=
  (tmpls.mapM w.entry).bind fun tmplos =>
    let itmpls := tmplos.map Entry.fullPkgname
    let run := bulkpkg (sorting o) w.bulk itmpls ordl
    match run.ending with
    | .returned _ =>
        (stmpls itmpls run.output).mapM
          (commitOne (bulkmap tmplos) (tmplos.getLast?.map Entry.otmpl))
    | _ => none

/-! ## Messages -/

/-- Two old states lead to the same kind of message for a template. -/
def Agrees (tmpl : Template) : Old → Old → Prop
  | .absent, .absent => True
  | .unparseable, .unparseable => True
  | .parsed o, .parsed o' => (o.pkgver = tmpl.pkgver ↔ o'.pkgver = tmpl.pkgver) ∧
      (o'.pkgver = tmpl.pkgver → (o.pkgrel = tmpl.pkgrel ↔ o'.pkgrel = tmpl.pkgrel))
  | _, _ => False

/-- The kinds of messages. -/
inductive Kind
  | newPackage
  | fix
  | update
  | rebuild
  | other
  deriving DecidableEq

def kind (tmpl : Template) : Old → Kind
  | .absent => .newPackage
  | .unparseable => .fix
  | .parsed o =>
      if o.pkgver ≠ tmpl.pkgver then .update
      else if o.pkgrel ≠ tmpl.pkgrel then .rebuild
      else .other

/-- What stands behind the name in a message of a kind. -/
def Kind.text (pkgver : Str) : Kind → Str
  | .newPackage => Commit.newPackage
  | .fix => Commit.fix
  | .update => updateTo ++ pkgver
  | .rebuild => Commit.rebuild
  | .other => description

/-- The letter that tells the kind of a message. -/
def Kind.letter : Kind → Char
  | .newPackage => 'n'
  | .fix => 'f'
  | .update => 'u'
  | .rebuild => 'r'
  | .other => '['

theorem Kind.text_getElem? (pkgver : Str) (k : Kind) : (k.text pkgver)[2]? = some k.letter := by
  cases k with
  | newPackage => exact (by decide +kernel : Commit.newPackage[2]? = some 'n')
  | fix => exact (by decide +kernel : Commit.fix[2]? = some 'f')
  | update =>
      have hlen : 2 < updateTo.length := by decide +kernel
      rw [Kind.text, List.getElem?_append_left hlen]
      exact (by decide +kernel : updateTo[2]? = some 'u')
  | rebuild => exact (by decide +kernel : Commit.rebuild[2]? = some 'r')
  | other => exact (by decide +kernel : description[2]? = some '[')

theorem Kind.text_injective (pkgver : Str) : Function.Injective (Kind.text pkgver) := by
  intro k k' h
  have hletter := congrArg (fun s : Str => s[2]?) h
  simp only [Kind.text_getElem?, Option.some.injEq] at hletter
  revert hletter
  cases k <;> cases k' <;> decide

theorem message_eq (n : Str) (tmpl : Template) (otmpl : Old) :
    message n tmpl otmpl = n ++ (kind tmpl otmpl).text tmpl.pkgver := by
  cases otmpl with
  | absent => rfl
  | unparseable => rfl
  | parsed o =>
      simp only [message, kind]
      split
      · rw [List.append_assoc, Kind.text]
      · split <;> rfl

theorem kind_eq_iff (tmpl : Template) (otmpl otmpl' : Old) :
    kind tmpl otmpl = kind tmpl otmpl' ↔ Agrees tmpl otmpl otmpl' := by
  cases otmpl <;> cases otmpl' <;> simp only [kind, Agrees]
  all_goals grind

/-- The texts tell the kinds of messages apart. -/
theorem message_eq_iff (n : Str) (tmpl : Template) (otmpl otmpl' : Old) :
    message n tmpl otmpl = message n tmpl otmpl' ↔ Agrees tmpl otmpl otmpl' := by
  rw [message_eq, message_eq, List.append_right_inj, (Kind.text_injective tmpl.pkgver).eq_iff,
    kind_eq_iff]

/-! ## The templates of a run -/

theorem World.entry_eq_some_iff {w : World} {tmp : Str} {e : Entry} : w.entry tmp = some e ↔
    w.name tmp = some e.fullPkgname ∧ w.current e.fullPkgname = some e.tmpl ∧
      e.otmpl = w.old e.fullPkgname := by
  unfold World.entry
  simp only [Option.bind_eq_some_iff, Option.map_eq_some_iff]
  constructor
  · intro h
    obtain ⟨n, hn, tmpl, ht, rfl⟩ := h
    exact ⟨hn, ht, rfl⟩
  · intro h
    obtain ⟨hn, ht, ho⟩ := h
    exact ⟨e.fullPkgname, hn, e.tmpl, ht, by rw [← ho]⟩

/-- The name a template has been stored under is the one the bulk run knows it by. -/
theorem World.npn_name {w : World} {tmp n : Str} (h : w.name tmp = some n) :
    w.bulk.npn n = some n := by
  unfold World.name at h
  cases hs : w.sanitizePkgname tmp with
  | missing => simp [hs] at h
  | invalid => simp [hs] at h
  | found repository pkgname =>
      simp only [hs, Option.some.injEq] at h
      subst h
      simp [Bulk.World.npn, w.sanitize_own tmp repository pkgname hs]

/-- What gets onto the list of a bulk run stands for one of the given names. -/
theorem requested_of_flist {o : Opts} {w : Bulk.World} {pkgs l : List Str} {base : Tmpl} {n : Str}
    (hbase : w.depTemplate baseCbuild = .ok base)
    (hesc : ¬ Escapes (sorting o) w (resolve (sorting o) w pkgs))
    (h : n ∈ (listing (sorting o) w (parseAll (sorting o) w (resolve (sorting o) w pkgs) base)
      l).flist) : ∃ pn ∈ pkgs, w.npn pn = some n := by
  have hflist := (mem_flist (by simp [sorting]) _ l n).mp h
  obtain ⟨t, ht⟩ := (lookup_isSome_iff _ n).mp hflist.2.2.1
  have hparsed := parsed_all hbase hesc ((proceeds_iff hbase hesc).mp hflist.1)
  have hmem : n ∈ (resolve (sorting o) w pkgs).sorted := ((hparsed.templates n t).mp ht).1
  exact (resolved (sorting o) w pkgs).found n ((mem_sorted _ n).mp hmem)

/-- A bulk run that collects yields only what the given names stand for. -/
theorem requested_of_output {o : Opts} {w : Bulk.World} {pkgs : List Str}
    {ordl : Option (List Str)} {n : Str} (h : n ∈ (bulkpkg (sorting o) w pkgs ordl).output) :
    ∃ pn ∈ pkgs, w.npn pn = some n := by
  generalize hrun : bulkpkg (sorting o) w pkgs ordl = run at h
  have hcase := bulkpkg_cases (sorting o) w pkgs ordl
  rw [hrun] at hcase
  cases hcase with
  | baseError e he => contradiction
  | escaped b hb _ => contradiction
  | raw b hb _ hr => contradiction
  | stopped b hb hesc _ hstop => exact requested_of_flist hb hesc h
  | cycle b hb _ _ _ hordl => contradiction
  | sorted b hb hesc _ hgo l hordl => exact requested_of_flist hb hesc h

/-- The names that are committed: those of the given templates. -/
theorem mem_stmpls_iff {itmpls sorted : List Str} (h : ∀ n ∈ sorted, n ∈ itmpls) (n : Str) :
    n ∈ stmpls itmpls sorted ↔ n ∈ itmpls := by
  simp only [stmpls, List.mem_append, List.mem_filter, decide_eq_true_eq]
  by_cases hn : n ∈ sorted
  · simp [hn, h n hn]
  · simp [hn]

/-- What the table knows, from what it knew before. -/
theorem get_bulkmap {tmplos : List Entry} {d : Dict Str Entry} {n : Str} {e : Entry}
    (h : (tmplos.foldl (fun d e => d.set e.fullPkgname e) d).get n = some e) :
    (e ∈ tmplos ∧ e.fullPkgname = n) ∨ d.get n = some e := by
  induction tmplos generalizing d with
  | nil => exact .inr h
  | cons a tmplos ih =>
      rcases ih h with hmem | hset
      · exact .inl ⟨List.mem_cons_of_mem a hmem.1, hmem.2⟩
      · rw [Dict.get_set] at hset
        by_cases ha : a.fullPkgname = n
        · rw [if_pos ha, Option.some.injEq] at hset
          subst hset
          exact .inl ⟨List.mem_cons_self .., ha⟩
        · rw [if_neg ha] at hset
          exact .inr hset

/-! ## Whose old state a message is about -/

/-- Every commit is made with the message its template's own two states call for. -/
def OwnMessages (w : World) (commits : List (Str × Str)) : Prop :=
  ∀ c ∈ commits, ∃ tmpl, w.current c.1 = some tmpl ∧ c.2 = message c.1 tmpl (w.old c.1)

/-- The old state of the template given last leads every template to the kind of message its
own old state leads it to. -/
def LastAgrees (w : World) (tmpls : List Str) : Prop :=
  ∀ last ∈ tmpls.getLast?, ∀ m, w.name last = some m →
    ∀ tmp ∈ tmpls, ∀ n, w.name tmp = some n →
    ∀ tmpl, w.current n = some tmpl → Agrees tmpl (w.old m) (w.old n)

/-- The commits of a run: one for each name in the order, with the old state of the template
given last in every message. -/
structure Committed (w : World) (tmpls : List Str) (commits : List (Str × Str)) : Prop where
  /-- The templates that are committed are those that are given. -/
  names : ∀ n, (∃ m, (n, m) ∈ commits) ↔ ∃ tmp ∈ tmpls, w.name tmp = some n
  message : ∀ c ∈ commits, ∃ tmpl, w.current c.1 = some tmpl ∧
    ∃ last ∈ tmpls.getLast?, ∃ m, w.name last = some m ∧ c.2 = Commit.message c.1 tmpl (w.old m)

theorem committed {o : Opts} {w : World} {tmpls : List Str} {ordl : Option (List Str)}
    {commits : List (Str × Str)} (hrun : doCommit o w tmpls ordl = some commits) :
    Committed w tmpls commits := by
  obtain ⟨tmplos, hentries, hcommits⟩ := Option.bind_eq_some_iff.mp hrun
  generalize hitmpls : tmplos.map Entry.fullPkgname = itmpls at hcommits
  have hitmpl : ∀ n, n ∈ itmpls ↔ ∃ tmp ∈ tmpls, w.name tmp = some n := by
    intro n
    rw [← hitmpls, List.mem_map]
    constructor
    · intro h
      obtain ⟨e, he, rfl⟩ := h
      obtain ⟨tmp, htmp, hentry⟩ := exists_of_mem_mapM hentries he
      exact ⟨tmp, htmp, (World.entry_eq_some_iff.mp hentry).1⟩
    · intro h
      obtain ⟨tmp, htmp, hn⟩ := h
      obtain ⟨e, he, hentry⟩ := exists_of_mapM_mem hentries htmp
      have hname := (World.entry_eq_some_iff.mp hentry).1
      rw [hn, Option.some.injEq] at hname
      exact ⟨e, he, hname.symm⟩
  -- the bulk run yields names it has been given
  have hsorted : ∀ n ∈ (bulkpkg (sorting o) w.bulk itmpls ordl).output, n ∈ itmpls := by
    intro n hn
    obtain ⟨pn, hpn, hnpn⟩ := requested_of_output hn
    obtain ⟨tmp, _, hname⟩ := (hitmpl pn).mp hpn
    rw [World.npn_name hname, Option.some.injEq] at hnpn
    rw [← hnpn]
    exact hpn
  have hmapM : (stmpls itmpls (bulkpkg (sorting o) w.bulk itmpls ordl).output).mapM
      (commitOne (bulkmap tmplos) (tmplos.getLast?.map Entry.otmpl)) = some commits := by
    dsimp only at hcommits
    split at hcommits
    · exact hcommits
    · contradiction
  refine ⟨fun n => ?_, fun c hc => ?_⟩
  · rw [← hitmpl, ← mem_stmpls_iff hsorted]
    constructor
    · intro h
      obtain ⟨m, hm⟩ := h
      obtain ⟨n', hn', hone⟩ := exists_of_mem_mapM hmapM hm
      obtain ⟨e, _, hmsg⟩ := Option.bind_eq_some_iff.mp hone
      obtain ⟨otmpl, _, heq⟩ := Option.map_eq_some_iff.mp hmsg
      cases heq
      exact hn'
    · intro h
      obtain ⟨c, hc, hone⟩ := exists_of_mapM_mem hmapM h
      obtain ⟨e, _, hmsg⟩ := Option.bind_eq_some_iff.mp hone
      obtain ⟨otmpl, _, heq⟩ := Option.map_eq_some_iff.mp hmsg
      cases heq
      exact ⟨_, hc⟩
  · obtain ⟨n, _, hone⟩ := exists_of_mem_mapM hmapM hc
    obtain ⟨e, hget, hmsg⟩ := Option.bind_eq_some_iff.mp hone
    obtain ⟨otmpl, hotmpl, rfl⟩ := Option.map_eq_some_iff.mp hmsg
    have he : e ∈ tmplos ∧ e.fullPkgname = n := by
      rcases get_bulkmap hget with h | h
      · exact h
      · simp at h
    obtain ⟨tmp, _, hentry⟩ := exists_of_mem_mapM hentries he.1
    have hcurrent := (World.entry_eq_some_iff.mp hentry).2.1
    obtain ⟨e', hlast, rfl⟩ := Option.map_eq_some_iff.mp hotmpl
    rw [← getLast?_mapM hentries] at hlast
    obtain ⟨last, hl, hentry'⟩ := Option.bind_eq_some_iff.mp hlast
    have hold := World.entry_eq_some_iff.mp hentry'
    rw [he.2] at hcurrent
    refine ⟨e.tmpl, hcurrent, last, hl, e'.fullPkgname, hold.1, ?_⟩
    rw [he.2, hold.2.2]

/-- A run gives every template the message its own states call for exactly when the old state
of the template given last would do for each of them. -/
theorem ownMessages_iff {o : Opts} {w : World} {tmpls : List Str} {ordl : Option (List Str)}
    {commits : List (Str × Str)} (hrun : doCommit o w tmpls ordl = some commits) :
    (∀ n, (∃ m, (n, m) ∈ commits) ↔ ∃ tmp ∈ tmpls, w.name tmp = some n) ∧
      (OwnMessages w commits ↔ LastAgrees w tmpls) := by
  have hcommitted := committed hrun
  refine ⟨hcommitted.names, fun h => ?_, fun h c hc => ?_⟩
  · intro last hlast m hm tmp htmp n hn tmpl htmpl
    obtain ⟨msg, hmsg⟩ := (hcommitted.names n).mpr ⟨tmp, htmp, hn⟩
    obtain ⟨tmpl', ht', hown⟩ := h (n, msg) hmsg
    obtain ⟨tmpl'', ht'', last', hlast', m', hm', hmade⟩ := hcommitted.message (n, msg) hmsg
    rw [htmpl, Option.some.injEq] at ht' ht''
    subst ht'
    subst ht''
    rw [Option.mem_def] at hlast hlast'
    rw [hlast, Option.some.injEq] at hlast'
    subst hlast'
    rw [hm, Option.some.injEq] at hm'
    subst hm'
    rw [← message_eq_iff n]
    exact hmade.symm.trans hown
  · obtain ⟨tmpl, htmpl, last, hlast, m, hm, hmade⟩ := hcommitted.message c hc
    obtain ⟨tmp, htmp, hname⟩ := (hcommitted.names c.1).mp ⟨c.2, hc⟩
    have hagrees := h last hlast m hm tmp htmp c.1 hname tmpl htmpl
    exact ⟨tmpl, htmpl, hmade.trans ((message_eq_iff c.1 tmpl _ _).mpr hagrees)⟩

/-- `main/a` is new and `main/b` has been updated. -/
def newAndUpdated : World where
  sanitizePkgname := fun tmp => .found "main".toList (tmp.drop 5)
  bulk := noDeps
  sanitize_own := by
    intro tmp repository pkgname h
    cases h
    rfl
  showHead := fun n => if n = "main/b".toList then some "1.0".toList else none
  buildTmpl := fun _ contents => some ⟨contents.getD "1.1".toList, 0⟩

/-- What the sorter yields for `main/a` and another template. -/
def ordered (n : Str) : List Str := [baseCbuild, "main/a".toList, n]

def twoNew : List Str := ["main/a".toList, "main/c".toList]

theorem doCommit_twoNew : doCommit continuing newAndUpdated twoNew
    (some (ordered "main/c".toList)) =
    some [("main/a".toList, "main/a: new package".toList),
      ("main/c".toList, "main/c: new package".toList)] := by
  have hsorted : (resolve (sorting continuing) noDeps twoNew).sorted = twoNew :=
    sorted_eq twoNew (by decide +kernel) (by decide +kernel)
  have hentries : twoNew.mapM newAndUpdated.entry = some [⟨"main/a".toList, ⟨"1.1".toList, 0⟩, .absent⟩,
      ⟨"main/c".toList, ⟨"1.1".toList, 0⟩, .absent⟩] := by decide +kernel
  have hitmpls : [Entry.mk "main/a".toList ⟨"1.1".toList, 0⟩ .absent,
      ⟨"main/c".toList, ⟨"1.1".toList, 0⟩, .absent⟩].map Entry.fullPkgname = twoNew := by
    decide +kernel
  rw [doCommit, hentries, Option.bind_some]
  simp only [hitmpls, bulkpkg, parseAll, show newAndUpdated.bulk = noDeps from rfl, hsorted]
  decide +kernel

theorem twoNew_ownMessages : OwnMessages newAndUpdated
    [("main/a".toList, "main/a: new package".toList),
      ("main/c".toList, "main/c: new package".toList)] := by
  refine (ownMessages_iff doCommit_twoNew).2.mpr (fun last hlast m hm tmp htmp n hn tmpl _ => ?_)
  have hnew : ∀ tmp ∈ twoNew, ∀ n, newAndUpdated.name tmp = some n →
      newAndUpdated.old n = .absent := by
    intro tmp htmp n hn
    simp only [twoNew, List.mem_cons, List.not_mem_nil, or_false] at htmp
    rcases htmp with rfl | rfl
    · cases hn
      decide +kernel
    · cases hn
      decide +kernel
  rw [hnew tmp htmp n hn, hnew last (List.mem_of_getLast? hlast) m hm]
  trivial

def newThenUpdated : List Str := ["main/a".toList, "main/b".toList]

theorem doCommit_newThenUpdated : doCommit continuing newAndUpdated newThenUpdated
    (some (ordered "main/b".toList)) =
    some [("main/a".toList, "main/a: update to 1.1".toList),
      ("main/b".toList, "main/b: update to 1.1".toList)] := by
  have hsorted : (resolve (sorting continuing) noDeps newThenUpdated).sorted = newThenUpdated :=
    sorted_eq newThenUpdated (by decide +kernel) (by decide +kernel)
  have hentries : newThenUpdated.mapM newAndUpdated.entry =
      some [⟨"main/a".toList, ⟨"1.1".toList, 0⟩, .absent⟩,
        ⟨"main/b".toList, ⟨"1.1".toList, 0⟩, .parsed ⟨"1.0".toList, 0⟩⟩] := by decide +kernel
  have hitmpls : [Entry.mk "main/a".toList ⟨"1.1".toList, 0⟩ .absent,
      ⟨"main/b".toList, ⟨"1.1".toList, 0⟩, .parsed ⟨"1.0".toList, 0⟩⟩].map Entry.fullPkgname =
      newThenUpdated := by decide +kernel
  rw [doCommit, hentries, Option.bind_some]
  simp only [hitmpls, bulkpkg, parseAll, show newAndUpdated.bulk = noDeps from rfl, hsorted]
  decide +kernel

/-- Given before an updated template, a new one is committed as updated. -/
theorem newThenUpdated_dependent :
    ¬ ∀ o w tmpls tmpls' ordl ordl' commits commits' n m m',
      doCommit o w tmpls ordl = some commits → doCommit o w tmpls' ordl' = some commits' →
      (n, m) ∈ commits → (n, m') ∈ commits' → m = m' := by
  intro h
  have hsame := h _ _ _ _ _ _ _ _ "main/a".toList "main/a: new package".toList
    "main/a: update to 1.1".toList doCommit_twoNew doCommit_newThenUpdated
    (List.mem_cons_self ..) (List.mem_cons_self ..)
  exact absurd hsame (by decide +kernel)

end Cbuild.Commit
