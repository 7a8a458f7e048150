import Cbuild.Build.Source
import Cbuild.Lib.KeyedCache

/-! # The cache of template versions

`_tcache` keeps what `_srcpkg_ver` has found by the name alone, for as long as the process runs.
What a name leads to depends on the repositories of the template that asks: its own, and those
that the `.parent` links lead to from there.
-/

namespace Cbuild.Build

open Lib

/-! ## The repositories of a template -/

structure Links where
  /-- The name of what `.parent` of a repository is a link to. -/
  parent : Str → Option Str
  isDir : Str → Bool

namespace Links

variable (links : Links)

/-- The loop that follows the links, if it ends within `fuel` rounds. -/
def parents : Nat → Str → Option (List Str)
  | 0, _ => none
  | fuel + 1, crepo =>
      match links.parent crepo with
      | none => some []
      | some rp =>
          -- skip if it does not resolve to a repository
          if links.isDir rp then (parents fuel rp).map (List.cons rp) else some []

def sourceRepositories (fuel : Nat) (repository : Str) : Option (List Str) :=
  (links.parents fuel repository).map (List.cons repository)

theorem parents_unique {m n : Nat} {crepo : Str} {l l' : List Str}
    (h : links.parents m crepo = some l) (h' : links.parents n crepo = some l') : l = l' := by
  induction m generalizing n crepo l l' with
  | zero => cases h
  | succ m ih =>
      cases n with
      | zero => cases h'
      | succ n =>
          unfold parents at h h'
          cases hp : links.parent crepo with
          | none =>
              simp only [hp] at h h'
              exact Option.some.inj (h.symm.trans h')
          | some rp =>
              simp only [hp] at h h'
              split at h
              · rename_i hdir
                rw [if_pos hdir] at h'
                obtain ⟨rest, hrest, rfl⟩ := Option.map_eq_some_iff.mp h
                obtain ⟨rest', hrest', rfl⟩ := Option.map_eq_some_iff.mp h'
                rw [ih hrest hrest']
              · rename_i hdir
                rw [if_neg hdir] at h'
                exact Option.some.inj (h.symm.trans h')

end Links

/-- A template that calls `_srcpkg_ver`, and the name it asks for. Templates whose links lead
in a circle are never there to call it. -/
structure VersionCall (links : Links) where
  /-- `profile().arch` -/
  arch : Arch
  repository : Str
  sourceRepositories : List Str
  follows : ∃ fuel, links.sourceRepositories fuel repository = some sourceRepositories
  pkgn : Str

/-! ## With and without the cache -/

abbrev Found := Except Error (Option (Option Str × FullName))

/-- What `_srcpkg_ver` finds when nothing is in the cache. -/
def resolveVer (src : Source) (arch : Arch) (repos : List Str) (pkgn : Str) : Found :=
  match src.srcpkgPath repos pkgn with
  | none => .ok none
  | some tmplpath =>
      match src.module arch (src.resolve tmplpath) with
      | none => .error (.badTemplate (src.resolve tmplpath))
      | some modv => .ok (some (modv.version, src.resolve tmplpath))

/-- The calls of a run, in order. One that raises leaves the cache as it is. -/
def srcpkgVers (src : Source) {links : Links} : TCache → List (VersionCall links) → List Found
  | _, [] => []
  | tcache, c :: cs =>
      match srcpkgVer src c.arch c.sourceRepositories tcache c.pkgn with
      | .ok (found, tcache') => .ok found :: srcpkgVers src tcache' cs
      | .error e => .error e :: srcpkgVers src tcache cs

section

variable {src : Source} {links : Links}

def VersionCall.resolve (src : Source) (c : VersionCall links) : Found :=
  resolveVer src c.arch c.sourceRepositories c.pkgn

/-- The name leads to a template that declares a version. -/
def VersionCall.LeadsTo (src : Source) (c : VersionCall links) (full : FullName) (cv : Str) :
    Prop :=
  ∃ tmplpath modv, src.srcpkgPath c.sourceRepositories c.pkgn = some tmplpath ∧
    src.resolve tmplpath = full ∧ src.module c.arch full = some modv ∧ modv.version = some cv

/-- What goes into the cache. -/
def versionKept : Found → Option (Str × FullName)
  | .ok (some (some cv, full)) => some (cv, full)
  | _ => none

theorem versionKept_eq_some {r : Found} {cv : Str} {full : FullName} :
    versionKept r = some (cv, full) ↔ r = .ok (some (some cv, full)) := by
  unfold versionKept
  split
  · simp
  · rename_i hne
    constructor
    · intro h
      cases h
    · intro h
      exact absurd h (hne cv full)

def versionCache (src : Source) (links : Links) :
    Keyed (VersionCall links) Str (Str × FullName) Found where
  ask := VersionCall.resolve src
  key c := c.pkgn
  keep := versionKept
  give v := .ok (some (some v.1, v.2))
  give_keep _ _ hv := (versionKept_eq_some.mp hv).symm

theorem resolve_eq_iff {c : VersionCall links} {full : FullName} {cv : Str} :
    c.resolve src = .ok (some (some cv, full)) ↔ c.LeadsTo src full cv := by
  unfold VersionCall.resolve resolveVer VersionCall.LeadsTo
  cases src.srcpkgPath c.sourceRepositories c.pkgn with
  | none => simp
  | some tmplpath =>
      dsimp only
      constructor
      · intro h
        cases hm : src.module c.arch (src.resolve tmplpath) with
        | none =>
            rw [hm] at h
            cases h
        | some modv =>
            rw [hm] at h
            obtain ⟨hver, hfull⟩ := Prod.mk.inj (Option.some.inj (Except.ok.inj h))
            exact ⟨tmplpath, modv, rfl, hfull, by rw [← hfull, hm], hver⟩
      · intro h
        obtain ⟨path, modv, hpath, hfull, hm, hver⟩ := h
        rw [Option.some.inj hpath, hfull, hm]
        dsimp only
        rw [hver]

/-- `_srcpkg_ver` is the cached function, but for what it does with the cache on an error. -/
theorem srcpkgVers_eq_queries (tcache : TCache) (cs : List (VersionCall links)) :
    srcpkgVers src tcache cs = (versionCache src links).queries tcache cs := by
  induction cs generalizing tcache with
  | nil => rfl
  | cons c cs ih =>
      unfold srcpkgVers Keyed.queries Keyed.query srcpkgVer versionCache
      dsimp only
      cases tcache.lookup c.pkgn with
      | some v => exact congrArg _ (ih tcache)
      | none =>
          unfold VersionCall.resolve resolveVer
          dsimp only
          cases src.srcpkgPath c.sourceRepositories c.pkgn with
          | none => exact congrArg _ (ih tcache)
          | some tmplpath =>
              dsimp only
              cases src.module c.arch (src.resolve tmplpath) with
              | none => exact congrArg _ (ih tcache)
              | some modv =>
                  dsimp only
                  cases modv.version with
                  | none => exact congrArg _ (ih tcache)
                  | some cv => exact congrArg _ (ih _)

theorem agrees_iff {c c' : VersionCall links} : (versionCache src links).Agrees c c' ↔
    (c.pkgn = c'.pkgn → ∀ full cv, c.LeadsTo src full cv → c'.LeadsTo src full cv) := by
  unfold Keyed.Agrees
  constructor
  · intro h hpkgn full cv hleads
    have hask := resolve_eq_iff.mpr hleads
    have hask' := h hpkgn (cv, full) (versionKept_eq_some.mpr hask)
    exact resolve_eq_iff.mp (hask'.trans hask)
  · intro h hpkgn v hv
    have hask : c.resolve src = .ok (some (some v.1, v.2)) := versionKept_eq_some.mp hv
    exact (resolve_eq_iff.mpr (h hpkgn _ _ (resolve_eq_iff.mp hask))).trans hask.symm

/-- The calls of a run find what they would find without a cache exactly when, of two calls with
one name of which the first leads to a template with a version, the other one leads to the same
template and version. -/
theorem srcpkgVers_uncached_iff (src : Source) (links : Links) (cs : List (VersionCall links)) :
    srcpkgVers src [] cs = cs.map (VersionCall.resolve src) ↔
      cs.Pairwise fun c c' =>
        c.pkgn = c'.pkgn → ∀ full cv, c.LeadsTo src full cv → c'.LeadsTo src full cv := by
  have hagree : cs.Pairwise (versionCache src links).Agrees ↔ cs.Pairwise fun c c' =>
      c.pkgn = c'.pkgn → ∀ full cv, c.LeadsTo src full cv → c'.LeadsTo src full cv :=
    List.Pairwise.iff fun _ _ => agrees_iff
  rw [srcpkgVers_eq_queries, ← hagree]
  exact Keyed.queries_eq_map_iff (c := versionCache src links) cs

theorem VersionCall.sourceRepositories_eq {c c' : VersionCall links}
    (h : c.repository = c'.repository) : c.sourceRepositories = c'.sourceRepositories := by
  obtain ⟨fuel, hc⟩ := c.follows
  obtain ⟨fuel', hc'⟩ := c'.follows
  rw [← h] at hc'
  obtain ⟨l, hl, hcons⟩ := Option.map_eq_some_iff.mp hc
  obtain ⟨l', hl', hcons'⟩ := Option.map_eq_some_iff.mp hc'
  rw [← hcons, ← hcons', links.parents_unique hl hl']

/-- As long as the templates of one repository ask for one architecture, the cache makes no
difference. -/
theorem srcpkgVers_of_one_repository {cs : List (VersionCall links)} {arch : Arch}
    {repository : Str} (h : ∀ c ∈ cs, c.arch = arch ∧ c.repository = repository) :
    srcpkgVers src [] cs = cs.map (VersionCall.resolve src) := by
  have hagree : cs.Pairwise (versionCache src links).Agrees := by
    apply List.pairwise_of_forall_mem_list
    intro c hc c' hc' hpkgn _ _
    obtain ⟨harch, hrepo⟩ := h c hc
    obtain ⟨harch', hrepo'⟩ := h c' hc'
    have hrepos := VersionCall.sourceRepositories_eq (hrepo.trans hrepo'.symm)
    change c.pkgn = c'.pkgn at hpkgn
    show c'.resolve src = c.resolve src
    unfold VersionCall.resolve
    rw [hrepos, hpkgn, harch, harch']
  rw [srcpkgVers_eq_queries]
  exact Keyed.queries_eq_map_iff (c := versionCache src links) cs |>.mpr hagree

end

/-! ## A name in two repositories -/

namespace TwoRepositories

/-- `user/.parent` leads to `main`. -/
def links : Links where
  parent r := if r = "user".toList then some "main".toList else none
  isDir _ := true

def src : Source where
  isFile f := ["main".toList, "user".toList].contains f.repository && f.pkgname == "foo".toList
  resolve f := f
  sourceRepositories r := [r]
  module _ f :=
    some ⟨some (if f.repository = "user".toList then "2-r0".toList else "1-r0".toList), true⟩
  fields _ _ := none
  hostCpu := "x86_64".toList
  isdigit := Char.isDigit
  isdigit_op := isDigit_op

def ofUser : VersionCall links where
  arch := "x86_64".toList
  repository := "user".toList
  sourceRepositories := ["user".toList, "main".toList]
  follows := ⟨2, by decide⟩
  pkgn := "foo".toList

def ofMain : VersionCall links where
  arch := "x86_64".toList
  repository := "main".toList
  sourceRepositories := ["main".toList]
  follows := ⟨1, by decide⟩
  pkgn := "foo".toList

end TwoRepositories

open TwoRepositories in
/-- A template of `main` is given the version of a template of `user`, a repository it does not
see, after a template of `user` has asked for the same name. -/
theorem twoRepositories_not_uncached : ¬ ∀ (src : Source) (links : Links)
    (cs : List (VersionCall links)),
    srcpkgVers src [] cs = cs.map (VersionCall.resolve src) := by
  intro hall
  have h := hall TwoRepositories.src TwoRepositories.links [ofUser, ofMain]
  have hsecond := congrArg (fun l => l[1]?) h
  have hcached : (srcpkgVers TwoRepositories.src [] [ofUser, ofMain])[1]? =
      some (.ok (some (some "2-r0".toList, ⟨"user".toList, "foo".toList⟩))) := by decide
  have huncached : ([ofUser, ofMain].map (VersionCall.resolve TwoRepositories.src))[1]? =
      some (.ok (some (some "1-r0".toList, ⟨"main".toList, "foo".toList⟩))) := by decide
  rw [hcached, huncached] at hsecond
  simp at hsecond

end Cbuild.Build
