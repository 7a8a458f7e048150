import Cbuild.Apk.Token
import Cbuild.Lib.Entries
import Cbuild.Lib.Fueled
import Mathlib

/-! # The links of subpackages

A subpackage is found by a link in the category of its template. `do_relink_subpkgs` of `runner.py`
takes all links of the categories away and makes those of the templates again; `build_lint` of
`template.py` looks at the result, and `sanitize_pkgname` goes through it.
-/

namespace Cbuild.Relink

open Lib Fs

abbrev Files : Type := Fs Str Str

/-- A template is known by its category and its name. -/
abbrev Tmpl : Type := Str × Str

/-- A checkout, and what is read from it. -/
structure Ports where
  /-- `paths.distdir()` -/
  distdir : List Str
  /-- `all_subpackages` of a template, unless it fails to parse. -/
  allSubpackages : Tmpl → Option (List Str)

variable (e : Ports)

def Ports.cat (c : Str) : List Str := e.distdir ++ [c]

def Ports.entry (c n : Str) : List Str := e.cat c ++ [n]

def templatePy : Str := "template.py".toList

def Ports.template (c n : Str) : List Str := e.entry c n ++ [templatePy]

def dotParent : Str := ".parent".toList

/-- A directory that is not reached by a link. -/
def ownDir (fs : Files) (q : List Str) : Bool := !fs.isLink (path q) && fs.isDir (path q)

/-- `_scan_cat` -/
def Ports.scanCat (fs : Files) (c : Str) : Except Errno (List Tmpl) := do
  let names ← fs.iterdir (path (e.cat c))
  return (names.filter fun n => ownDir fs (e.entry c n) && fs.isFile (path (e.template c n))).map
    fun n => (c, n)

/-- The name a template is sorted by. -/
def tmplText (t : Tmpl) : Str := t.1 ++ '/' :: t.2

/-- `_collect_tmpls`, for all templates. -/
def Ports.collectTmpls (fs : Files) : Except Errno (List Tmpl) := do
  let cats ← fs.iterdir (path e.distdir)
  let tmpls ← (cats.filter fun c => ownDir fs (e.cat c)).mapM (e.scanCat fs)
  return tmpls.flatten.mergeSort fun t t' => decide (tmplText t ≤ tmplText t')

/-- `links`, over the templates that are read. -/
def Ports.links (tmpls : List Tmpl) : List (Tmpl × List Str) :=
  tmpls.filterMap fun t => (e.allSubpackages t).map fun subs => (t, subs)

/-- `cats` -/
def cats (links : List (Tmpl × List Str)) : Dict Str Unit :=
  (links.map fun l => l.1.1).foldl (fun cats c => cats.set c ()) []

def Ports.relinkOne (fs : Files) (l : Str × Str × Str) : Except Errno Files := do
  let fp := path (e.entry l.1 l.2.1)
  let fs ← if fs.pathExists fp then fs.unlink fp else .ok fs
  fs.symlinkTo fp [.down l.2.2]

/-- What `build_lint` asks of the link of a subpackage. -/
def Ports.linkOk (fs : Files) (repo bpn sp : Str) : Bool :=
  match fs.place (path (e.entry repo sp)) with
  | .error _ => false
  | .ok q =>
      match fs.node q with
      | some (.link absolute target) => !absolute && target == [.down bpn]
      | _ => false

/-- `sanitize_pkgname`: where the template of a name of the right form is. -/
def Ports.sanitizePkgname (fs : Files) (repo n : Str) : Option (List Str) :=
  let tmplpath := path (e.template repo n)
  if fs.isFile tmplpath then
    match fs.stat tmplpath with
    | .ok q => some q.dropLast
    | .error _ => none
  else none

/-! ## Taking away -/

/-- What a sweep takes away. -/
def Ports.goes (pruneBad : Bool) (fs : Files) (c n : Str) : Bool :=
  match fs.node (e.entry c n) with
  | some (.link _ _) => n ≠ dotParent
  | some .dir => pruneBad && !fs.fileAt (e.template c n)
  | some (.file _) => pruneBad
  | none => false

/-- Nothing but this is gone. -/
def Purged (fs fs' : Files) (gone : List Str → Prop) : Prop :=
  ∀ q, (gone q → fs'.node q = none) ∧ (¬ gone q → fs'.node q = fs.node q)

/-- A checkout: everything is in a directory, and templates are files. -/
structure Ports.Checkout (fs : Files) : Prop where
  closed : fs.Closed
  distdir : fs.node e.distdir = some .dir
  plain : ∀ c n absolute target, fs.node (e.template c n) ≠ some (.link absolute target)

variable {e} {p : Bool} {fs fs' fs'' : Files} {c c' n n' : Str} {q : List Str}

theorem entry_inj : e.entry c n = e.entry c' n' ↔ c = c' ∧ n = n' := by
  unfold Ports.entry Ports.cat
  rw [List.append_singleton_inj, List.append_singleton_inj, and_assoc]
  exact and_iff_right rfl

theorem prefix_entry_iff (r : List Str) : e.entry c n <+: e.entry c' n' ++ r ↔ c = c' ∧ n = n' := by
  constructor
  · rintro ⟨s, hs⟩
    exact entry_inj.mp (List.append_inj hs (by simp [Ports.entry, Ports.cat])).1
  · rintro ⟨rfl, rfl⟩
    exact List.prefix_append _ r

theorem not_entry_prefix_cat : ¬ e.entry c n <+: e.cat c' := by
  intro h
  have hlen := h.length_le
  simp [Ports.entry, Ports.cat] at hlen

theorem Purged.refl {gone : List Str → Prop} (h : ∀ q, ¬ gone q) : Purged fs fs gone :=
  fun q => ⟨fun hq => absurd hq (h q), fun _ => rfl⟩

/-- What is still there has not gone. -/
theorem Purged.of_some {gone : List Str → Prop} (h : Purged fs fs' gone)
    (hv : fs'.node q = some v) : ¬ gone q ∧ fs.node q = some v := by
  by_cases hgone : gone q
  · rw [(h q).1 hgone] at hv
    cases hv
  · exact ⟨hgone, (h q).2 hgone ▸ hv⟩

theorem Purged.congr {gone gone' : List Str → Prop} (h : Purged fs fs' gone)
    (hgone : ∀ q, gone q ↔ gone' q) : Purged fs fs' gone' :=
  fun q => ⟨fun hq => (h q).1 ((hgone q).mpr hq), fun hq => (h q).2 fun hq' => hq ((hgone q).mp hq')⟩

theorem goes_congr (h : ∀ r, fs'.node (e.entry c n ++ r) = fs.node (e.entry c n ++ r)) :
    e.goes p fs' c n = e.goes p fs c n := by
  have hentry := h []
  rw [List.append_nil] at hentry
  unfold Ports.goes fileAt Ports.template
  rw [hentry, h [templatePy]]

/-- Of these entries, what has to go is gone, and nothing else. -/
structure Swept (e : Ports) (p : Bool) (S : Str → Str → Prop) (fs fs' : Files) : Prop where
  checkout : e.Checkout fs'
  purged : Purged fs fs' fun q => ∃ c n, S c n ∧ e.goes p fs c n = true ∧ e.entry c n <+: q

variable {S S' : Str → Str → Prop}

theorem Ports.Checkout.purged (h : e.Checkout fs) {gone : List Str → Prop} (hclosed : fs'.Closed)
    (hp : Purged fs fs' gone) (hgone : ∀ q, gone q → ∃ c n, e.entry c n <+: q) : e.Checkout fs' := by
  refine ⟨hclosed, ?_, ?_⟩
  · rw [(hp _).2, h.distdir]
    intro hq
    obtain ⟨c, n, hpre⟩ := hgone _ hq
    have hlen := hpre.length_le
    simp [Ports.entry, Ports.cat] at hlen
  · intro c n absolute target hv
    by_cases hq : gone (e.template c n)
    · rw [(hp _).1 hq] at hv
      cases hv
    · rw [(hp _).2 hq] at hv
      exact h.plain c n absolute target hv

theorem Swept.cat (h : Swept e p S fs fs') (c : Str) :
    fs'.node (e.cat c) = fs.node (e.cat c) := by
  apply (h.purged _).2
  rintro ⟨c', n, -, -, hpre⟩
  exact not_entry_prefix_cat hpre

theorem Swept.untouched (h : Swept e p S fs fs') (hS : ¬ S c n) (r : List Str) :
    fs'.node (e.entry c n ++ r) = fs.node (e.entry c n ++ r) := by
  apply (h.purged _).2
  rintro ⟨c', n', hS', -, hpre⟩
  obtain ⟨rfl, rfl⟩ := (prefix_entry_iff r).mp hpre
  exact hS hS'

theorem Swept.trans (h : Swept e p S fs fs') (h' : Swept e p S' fs' fs'')
    (hdisjoint : ∀ c n, S' c n → ¬ S c n) :
    Swept e p (fun c n => S c n ∨ S' c n) fs fs'' := by
  have hgoes : ∀ c n, S' c n → e.goes p fs' c n = e.goes p fs c n :=
    fun c n hS' => goes_congr (h.untouched (hdisjoint c n hS'))
  refine ⟨h'.checkout, fun q => ⟨?_, fun hq => ?_⟩⟩
  · rintro ⟨c, n, hS | hS', hgo, hpre⟩
    · by_cases hq : ∃ c n, S' c n ∧ e.goes p fs' c n = true ∧ e.entry c n <+: q
      · exact (h'.purged q).1 hq
      · rw [(h'.purged q).2 hq]
        exact (h.purged q).1 ⟨c, n, hS, hgo, hpre⟩
    · exact (h'.purged q).1 ⟨c, n, hS', by rw [hgoes c n hS', hgo], hpre⟩
  · rw [(h'.purged q).2, (h.purged q).2]
    · rintro ⟨c, n, hS, hgo, hpre⟩
      exact hq ⟨c, n, .inl hS, hgo, hpre⟩
    · rintro ⟨c, n, hS', hgo, hpre⟩
      exact hq ⟨c, n, .inr hS', by rw [← hgoes c n hS', hgo], hpre⟩

/-- Only entries that would go count. -/
theorem Swept.congr (h : Swept e p S fs fs')
    (hS : ∀ c n, e.goes p fs c n = true → (S c n ↔ S' c n)) : Swept e p S' fs fs' := by
  refine ⟨h.checkout, h.purged.congr fun q => ?_⟩
  constructor
  · rintro ⟨c, n, hin, hgo, hpre⟩
    exact ⟨c, n, (hS c n hgo).mp hin, hgo, hpre⟩
  · rintro ⟨c, n, hin, hgo, hpre⟩
    exact ⟨c, n, (hS c n hgo).mpr hin, hgo, hpre⟩

theorem Swept.refl (h : e.Checkout fs) (hS : ∀ c n, ¬ S c n) : Swept e p S fs fs := by
  refine ⟨h, Purged.refl fun q => ?_⟩
  rintro ⟨c, n, hin, -⟩
  exact hS c n hin

/-- The template a name of a category is for: the last one that claims it. -/
def owner (ls : List (Str × Str × Str)) : Dict (Str × Str) Str :=
  ls.foldl (fun owner l => owner.set (l.1, l.2.1) l.2.2) []

/-- The link of a subpackage. -/
def linkTo (j : Str) : Node Str Str := .link false [.down j]

/-- What the links that have been made stand for. -/
structure Linked (e : Ports) (ls : List (Str × Str × Str)) (fs fs' : Files) : Prop where
  closed : fs'.Closed
  made : ∀ c n j, (owner ls).get (c, n) = some j → fs'.node (e.entry c n) = some (linkTo j)
  others : ∀ q, (∀ c n, ((owner ls).get (c, n)).isSome = true → q ≠ e.entry c n) →
    fs'.node q = fs.node q

variable {ls : List (Str × Str × Str)}

theorem Linked.cat (h : Linked e ls fs fs') (c : Str) : fs'.node (e.cat c) = fs.node (e.cat c) := by
  apply h.others
  intro c' n _ heq
  have hlen := congrArg List.length heq
  simp [Ports.entry, Ports.cat] at hlen

/-- What is not claimed stays, with all that is below it. -/
theorem Linked.unclaimed (h : Linked e ls fs fs') (hn : (owner ls).get (c, n) = none)
    (r : List Str) : fs'.node (e.entry c n ++ r) = fs.node (e.entry c n ++ r) := by
  apply h.others
  rintro c' n' hsome heq
  obtain ⟨rfl, rfl⟩ := (prefix_entry_iff r).mp ⟨[], by rw [List.append_nil, heq]⟩
  rw [hn] at hsome
  cases hsome

/-- A directory with a template in it. -/
structure Ports.IsTemplate (e : Ports) (fs : Files) (t : Tmpl) : Prop where
  cat : fs.node (e.cat t.1) = some .dir
  dir : fs.node (e.entry t.1 t.2) = some .dir
  file : fs.fileAt (e.template t.1 t.2) = true

/-- What is read of the templates: one of them claims a name. -/
def Ports.Claims (e : Ports) (fs : Files) (c sn j : Str) : Prop :=
  e.IsTemplate fs (c, j) ∧ ∃ subs, e.allSubpackages (c, j) = some subs ∧ sn ∈ subs

/-- A category with a template that can be read. -/
def Ports.Read (e : Ports) (fs : Files) (c : Str) : Prop :=
  ∃ j, e.IsTemplate fs (c, j) ∧ (e.allSubpackages (c, j)).isSome = true

variable {tmpls : List Tmpl}

/-- The names that templates claim are free for links, and each is claimed once in its category. -/
structure Ports.Named (e : Ports) (fs : Files) : Prop where
  noParent : ∀ c sn j, e.Claims fs c sn j → sn ≠ dotParent
  noDir : ∀ c sn j, e.Claims fs c sn j → fs.node (e.entry c sn) ≠ some .dir
  once : ∀ c sn j j', e.Claims fs c sn j → e.Claims fs c sn j' → j = j'

theorem Ports.Claims.read {j : Str} (h : e.Claims fs c n j) : e.Read fs c := by
  obtain ⟨ht, subs, hsubs, -⟩ := h
  exact ⟨j, ht, by rw [hsubs]; rfl⟩

/-- Templates do not go, nor does anything below them. -/
theorem Ports.IsTemplate.stays {t : Tmpl} (ht : e.IsTemplate fs t) :
    e.goes p fs t.1 t.2 = false := by
  unfold Ports.goes
  rw [ht.dir]
  dsimp only
  rw [ht.file, Bool.not_true, Bool.and_false]

theorem Swept.template (h : Swept e p S fs fs') {t : Tmpl} (ht : e.IsTemplate fs t)
    (r : List Str) : fs'.node (e.entry t.1 t.2 ++ r) = fs.node (e.entry t.1 t.2 ++ r) := by
  rw [(h.purged _).2]
  rintro ⟨c, n, -, hgo, hpre⟩
  obtain ⟨rfl, rfl⟩ := (prefix_entry_iff r).mp hpre
  rw [ht.stays] at hgo
  cases hgo

/-- In a category that is swept no link is left but that of the parent. -/
theorem Swept.not_link (h : Swept e p S fs fs') (hS : S c n) (hn : n ≠ dotParent)
    (absolute : Bool) (target : List (Comp Str)) :
    fs'.node (e.entry c n) ≠ some (.link absolute target) := by
  intro hv
  obtain ⟨hstays, hwas⟩ := h.purged.of_some hv
  refine hstays ⟨c, n, hS, ?_, List.prefix_refl _⟩
  unfold Ports.goes
  rw [hwas]
  exact decide_eq_true hn

/-- What a run of two halves has done: `owner` of the links is who claims them. -/
structure Relinked (e : Ports) (p : Bool) (ls : List (Str × Str × Str)) (fs fs₁ fs' : Files) :
    Prop where
  owns : ∀ c n j, (owner ls).get (c, n) = some j ↔ e.Claims fs c n j
  swept : Swept e p (fun c _ => e.Read fs c) fs fs₁
  linked : Linked e ls fs₁ fs'

section

variable {fs₁ : Files}

theorem Relinked.claimed (h : Relinked e p ls fs fs₁ fs')
    (hsome : ((owner ls).get (c, n)).isSome = true) : ∃ j, e.Claims fs c n j := by
  obtain ⟨j, hj⟩ := Option.isSome_iff_exists.mp hsome
  exact ⟨j, (h.owns c n j).mp hj⟩

/-- Templates stay as they were, with all that is below them. -/
theorem Relinked.template (h : Relinked e p ls fs fs₁ fs') (hnamed : e.Named fs) {t : Tmpl}
    (ht : e.IsTemplate fs t) (r : List Str) :
    fs'.node (e.entry t.1 t.2 ++ r) = fs.node (e.entry t.1 t.2 ++ r) := by
  rw [h.linked.unclaimed, h.swept.template ht]
  by_contra hsome
  obtain ⟨j, hj⟩ := h.claimed (Option.isSome_iff_ne_none.mpr hsome)
  exact hnamed.noDir _ _ _ hj ht.dir

/-- The link of a claim leads to its template. -/
theorem Relinked.made (h : Relinked e p ls fs fs₁ fs') (hnamed : e.Named fs) {c sn j : Str}
    (hclaim : e.Claims fs c sn j) : e.linkOk fs' c j sn = true ∧
      e.sanitizePkgname fs' c sn = some (e.entry c j) := by
  have hcat : fs'.node (e.cat c) = some .dir := by
    rw [h.linked.cat, h.swept.cat, hclaim.1.cat]
  have hlink := h.linked.made c sn j ((h.owns c sn j).mpr hclaim)
  have hdir := h.template hnamed hclaim.1 []
  rw [List.append_nil, hclaim.1.dir] at hdir
  obtain ⟨content, hcontent⟩ := fileAt_iff.mp hclaim.1.file
  have hfile : fs'.node (e.template c j) = some (.file content) := by
    rw [Ports.template, h.template hnamed hclaim.1 [templatePy], ← Ports.template, hcontent]
  have hstat : fs'.stat (path (e.template c sn)) = .ok (e.template c j) := by
    have hwalk := (h.linked.closed.dirsTo hcat).stat_sibling hlink hdir [.down templatePy]
    rw [walk_down, show e.cat c ++ [j] ++ [templatePy] = e.template c j from rfl, hfile] at hwalk
    rw [Ports.template, Ports.entry, path, List.map_append]
    exact hwalk
  constructor
  · unfold Ports.linkOk
    rw [show fs'.place (path (e.entry c sn)) = .ok (e.entry c sn) from
      (h.linked.closed.dirsTo hcat).place sn]
    dsimp only
    rw [hlink]
    simp [linkTo]
  · have hisfile : fs'.isFile (path (e.template c sn)) = true := by
      unfold isFile
      rw [hstat]
      exact fileAt_iff.mpr ⟨content, hfile⟩
    rw [Ports.sanitizePkgname, if_pos hisfile, hstat]
    exact congrArg some (List.dropLast_concat)

/-- A link that is left is one that has been made. -/
theorem Relinked.left (h : Relinked e p ls fs fs₁ fs') {absolute : Bool} {target : List (Comp Str)}
    (hread : e.Read fs c) (hn : n ≠ dotParent)
    (hv : fs'.node (e.entry c n) = some (.link absolute target)) :
    ∃ j, e.Claims fs c n j ∧ absolute = false ∧ target = [.down j] := by
  cases hget : (owner ls).get (c, n) with
  | some j =>
      rw [h.linked.made c n j hget] at hv
      cases hv
      exact ⟨j, (h.owns c n j).mp hget, rfl, rfl⟩
  | none =>
      have hsame := h.linked.unclaimed hget []
      rw [List.append_nil] at hsame
      exact absurd (hsame.symm.trans hv) (h.swept.not_link hread hn absolute target)

/-- Without pruning only links go, and there is nothing below a link. -/
theorem not_below_gone (hclosed : fs.Closed) (hgo : e.goes false fs c n = true)
    (hpre : e.entry c n <+: q) (hv : fs.node q = some v) : v.isLink = true := by
  obtain ⟨r, rfl⟩ := hpre
  cases hentry : fs.node (e.entry c n) with
  | none => simp [Ports.goes, hentry] at hgo
  | some w =>
      cases w with
      | dir => simp [Ports.goes, hentry] at hgo
      | file content => simp [Ports.goes, hentry] at hgo
      | link absolute target =>
          by_cases hr : r = []
          · rw [hr, List.append_nil, hentry] at hv
            cases hv
            rfl
          · have hdir := hclosed.dir_above hr hv
            rw [hentry] at hdir
            cases hdir

theorem Relinked.kept (h : Relinked e false ls fs fs₁ fs') (hclosed : fs.Closed)
    (hv : fs.node q = some v) (hnolink : v.isLink = false)
    (hfree : ∀ c sn j, e.Claims fs c sn j → q ≠ e.entry c sn) : fs'.node q = some v := by
  rw [h.linked.others, (h.swept.purged _).2, hv]
  · rintro ⟨c, n, -, hgo, hpre⟩
    rw [not_below_gone hclosed hgo hpre hv] at hnolink
    cases hnolink
  · intro c n hsome
    obtain ⟨j, hj⟩ := h.claimed hsome
    exact hfree c n j hj

/-- Outside of the categories that are read nothing changes. -/
theorem Relinked.outside (h : Relinked e p ls fs fs₁ fs')
    (hq : ∀ c n, e.Read fs c → ¬ e.entry c n <+: q) : fs'.node q = fs.node q := by
  rw [h.linked.others, (h.swept.purged _).2]
  · rintro ⟨c, n, hread, -, hpre⟩
    exact hq c n hread hpre
  · rintro c n hsome rfl
    obtain ⟨j, hj⟩ := h.claimed hsome
    exact hq c n hj.read (List.prefix_refl _)

end

def demoPorts : Ports where
  distdir := ["cports".toList]
  allSubpackages := fun t =>
    if t = ("main".toList, "foo".toList) then some ["foo-devel".toList] else none

def demoFiles : Files :=
  [(["cports".toList], .dir),
    (demoPorts.cat "main".toList, .dir),
    (demoPorts.entry "main".toList "foo".toList, .dir),
    (demoPorts.template "main".toList "foo".toList, .file []),
    (demoPorts.entry "main".toList "foo-doc".toList, linkTo "foo".toList)]

theorem demo_claims {c sn j : Str} (h : demoPorts.Claims demoFiles c sn j) :
    c = "main".toList ∧ sn = "foo-devel".toList ∧ j = "foo".toList := by
  obtain ⟨-, subs, hsubs, hsn⟩ := h
  unfold demoPorts at hsubs
  dsimp only at hsubs
  split at hsubs
  · rename_i heq
    cases heq
    cases hsubs
    exact ⟨rfl, List.mem_singleton.mp hsn, rfl⟩
  · cases hsubs

theorem demo_named : demoPorts.Named demoFiles := by
  refine ⟨fun c sn j h => ?_, fun c sn j h => ?_, fun c sn j j' h h' => ?_⟩
  · obtain ⟨rfl, rfl, rfl⟩ := demo_claims h
    decide
  · obtain ⟨rfl, rfl, rfl⟩ := demo_claims h
    decide
  · rw [(demo_claims h).2.2, (demo_claims h').2.2]

end Cbuild.Relink
