import Cbuild.Update.VerSort
import Cbuild.Apk.Token
import Cbuild.Lib.Fnmatch
import Cbuild.Lib.Wp

/-! # The check for updates

`update_check` collects the places where new versions of a package appear, asks each of them, and
reports what is newer than the template. A page that was answered is not asked for again; when no
version turns up at all the whole round is repeated, with growing delays.
-/

namespace Cbuild.Update

open Lib Apk

/-! ## What is asked -/

/-- The regular expressions that `fetch_versions` chooses from. -/
inductive Pattern
  | given (pattern : Str)
  | gems (pname : Str)
  | tags (pname : Str)
  | gnome (pname : Str)
  | kernel (mver : Str)
  | archive (pname : Str)
  | hgArchive (pname : Str)
  | tarball (pname : Str)
  deriving DecidableEq

/-- A regular expression and the group that is the version. -/
structure Rx where
  pattern : Pattern
  group : Option Nat
  deriving DecidableEq

/-- A request that was sent, the expression its page is searched with when versions are asked for,
and the page, unless an exception was raised. -/
structure Request where
  rx : Option Rx
  url : Str
  answer : Option Str
  deriving DecidableEq

/-- `_urlcache` after the given requests. -/
def urlcache (sent : List Request) : List Str :=
  sent.filterMap fun r => if r.answer.isSome then some r.url else none

/-- The requests for a page that raised an exception. -/
def failures (url : Str) (sent : List Request) : Nat :=
  sent.countP fun r => r.url = url ∧ r.answer = none

/-- What the check meets outside: the network, whose answer may depend on all it was asked before,
the matches of the regular expressions, and the order in which Python enumerates a set. -/
structure World where
  answer : List Request → Str → Option Str
  /-- `Request` raises for these, and `re.compile` for those. -/
  badUrl : Str → Bool
  badPattern : Pattern → Bool
  versioned : Str → Option Str
  listed : Str → Str → Str → List Str
  /-- The versions on a page, unless a match has not got the group. -/
  found : Rx → Str → Option (List Str)
  enum : List Str → List Str
  enum_perm : ∀ l, (enum l).Perm l.dedup

inductive Ignore
  | all
  | malformed
  | patterns (ignore : List Str)

/-- The template and what its `update.py` sets. -/
structure Check where
  tmplname : Str
  tmplver : Str
  tmplurl : Str
  source : List Str
  isMeta : Bool
  pkgname : Str
  pkgver : Str
  url : List Str
  pattern : Option Str
  group : Option Nat
  singleDirectory : Bool
  ignore : Ignore

/-- An exception that leaves the check is not told apart from another one. -/
abbrev Asks := EStateM Unit (List Request)

/-- `_fetch`. It returns `False` for a page that was answered before and `None` for a failure or an
empty page; both count as false and only a message tells them apart. -/
def fetch (w : World) (rx : Option Rx) (u : Str) : Asks (Option Str) := do
  let sent ← get
  if u ∈ urlcache sent then return none
  if w.badUrl u then throw ()
  let ret := w.answer sent u
  modify (· ++ [⟨rx, u, ret⟩])
  match ret with
  | none => return none
  | some [] => return none
  | some page => return some page

/-! ## The sources -/

def within (part : String) (url : Str) : Bool := decide (part.toList <:+: url)

/-- `"/".join(url.split("/")[i:j])` -/
def segments (url : Str) (i j : Nat) : Str :=
  ['/'].intercalate (((url.splitOn '/').take j).drop i)

/-- `pname.removeprefix(lang)`, when the name is the template's own. -/
def bareName (c : Check) (lang : String) : Str :=
  if c.pkgname = c.tmplname ∧ lang.toList <+: c.pkgname then c.pkgname.drop lang.length
  else c.pkgname

/-- Where the versions are listed, by the host of the url: the page, the name that is searched for,
and the expression when it is not the one for archives. -/
def host (c : Check) (url : Str) : Option (Str × Str × Option Rx) :=
  let pname := c.pkgname
  let page (s : String) (t : Str) (u : String) : Str := s.toList ++ t ++ u.toList
  let tags : Option Rx := some ⟨.tags pname, some 1⟩
  let refs := "/info/refs?service=git-upload-pack"
  if within "sourceforge.net/sourceforge" url then
    (url.splitOn '/')[4]?.map fun pn =>
      (page "https://sourceforge.net/projects/" pn "/rss?limit=200", pname, none)
  else if within "launchpad.net" url then
    (url.splitOn '/')[3]?.map fun pn => (page "https://launchpad.net/" pn "/+download", pname, none)
  else if within "pythonhosted.org" url then
    let pname := bareName c "python-"
    some (page "https://pypi.org/simple/" pname "", pname, none)
  else if within "rubygems.org" url then
    let pname := bareName c "ruby-"
    some (page "https://rubygems.org/gems/" pname "", pname, some ⟨.gems pname, none⟩)
  else if within "cpan." url then some (url, bareName c "perl-", none)
  else if within "github.com" url then
    some (page "https://github.com/" (segments url 3 5) refs, pname, tags)
  else if within "//gitlab." url || within "salsa.debian.org" url then
    some (page "" (segments url 0 5) refs, pname, tags)
  else if within "bitbucket.org" url then
    some (page "https://bitbucket.org/" (segments url 3 5) refs, pname, tags)
  else if within "ftp.gnome.org" url || within "download.gnome.org" url then
    some (page "https://download.gnome.org/sources/" pname "/cache.json", pname,
      some ⟨.gnome pname, some 0⟩)
  else if within "archive.xfce.org" url then
    some (page "https://gitlab.xfce.org/" (segments url 4 6) refs, pname, tags)
  else if within "kernel.org/pub/linux/kernel/" url then
    some (url, pname, some ⟨.kernel (['.'].intercalate ((c.pkgver.splitOn '.').take 2)), none⟩)
  else if within "codeberg.org" url then
    some (page "https://codeberg.org/" (segments url 3 5) "/tags", pname,
      some ⟨.archive pname, some 1⟩)
  else if within "hg.sr.ht" url then
    some (page "https://hg.sr.ht/" (segments url 3 5) "/tags", pname,
      some ⟨.hgArchive pname, some 1⟩)
  else if within "git.sr.ht" url then
    some (page "https://git.sr.ht/" (segments url 3 5) "/info/refs", pname, tags)
  else if within "pkgs.fedoraproject.org" url then
    some (page "https://pkgs.fedoraproject.org/repo/pkgs/" pname "", pname, none)
  else if within "pagure.io" url then
    some (page "https://pagure.io/" pname "/releases", pname, none)
  else some (url, pname, none)

/-- The page `fetch_versions` asks for and what it is searched with; `none` where an index is out
of range. -/
def versionPage (c : Check) (url : Str) : Option (Str × Rx) := do
  let (url, pname, rx) ← if c.url = [] then host c url else some (url, c.pkgname, none)
  let given := c.pattern.filter (· ≠ [])
  let pattern := (given.map Pattern.given) <|> rx.map Rx.pattern
  let rxg := if given = none then rx.bind Rx.group else none
  let group := match c.group with
    | some 0 => rxg
    | some g => some g
    | none => rxg
  match pattern with
  | some pattern => return (url, ⟨pattern, group⟩)
  -- the expression for archives has its version in group 2, whatever `self.group` says
  | none => return (url, ⟨.tarball pname, some 2⟩)

/-- `v.replace("_", ".")` -/
def dotted (v : Str) : Str := v.map fun c => if c = '_' then '.' else c

/-- The loop over the delays, which is left when a round has found a version. -/
def rounds (round : Asks (List Str)) : List Nat → Asks (List Str)
  | [] => return []
  | _ :: delays => do
      let vers ← round
      if vers ≠ [] then return vers
      rounds round delays

def collect (f : Str → Asks (List Str)) (l : List Str) : Asks (List Str) :=
  l.foldlM (fun acc x => do return acc ++ (← f x)) []

variable {w : World} {c : Check} {s s' s'' t : List Request} {u url : Str} {vs vs' : List Str}

/-! ## What is sent is only added to -/

theorem urlcache_append : urlcache (s ++ t) = urlcache s ++ urlcache t := List.filterMap_append

theorem failures_append : failures url (s ++ t) = failures url s + failures url t :=
  List.countP_append

/-- The versions on the pages that were searched for them. -/
def Request.versions (w : World) (r : Request) : List Str :=
  match r.rx, r.answer.filter (· ≠ []) with
  | some rx, some page => ((w.found rx page).getD []).map dotted
  | _, _ => []

def harvest (w : World) (sent : List Request) : List Str := sent.flatMap (Request.versions w)

/-- From `s` to `s'` requests are added, their pages hold the versions `vs`, and no page is
answered a second time. -/
structure Adds (w : World) (s s' : List Request) (vs : List Str) : Prop where
  kept : s <+: s'
  harvested : harvest w s' = harvest w s ++ vs
  once : (urlcache s).Nodup → (urlcache s').Nodup

theorem Adds.refl : Adds w s s [] := ⟨List.prefix_rfl, (List.append_nil _).symm, id⟩

theorem Adds.trans (h : Adds w s s' vs) (h' : Adds w s' s'' vs') : Adds w s s'' (vs ++ vs') := by
  refine ⟨h.kept.trans h'.kept, ?_, fun hs => h'.once (h.once hs)⟩
  rw [h'.harvested, h.harvested, List.append_assoc]

/-- The page is answered, or it failed another `k` times. -/
def Tried (u : Str) (k : Nat) (s s' : List Request) : Prop :=
  u ∈ urlcache s' ∨ failures u s + k ≤ failures u s'

theorem Tried.mono {k : Nat} (h : Tried u k s s') (hkept : s' <+: s'') : Tried u k s s'' := by
  obtain ⟨t, rfl⟩ := hkept
  cases h with
  | inl hin =>
      rw [Tried, urlcache_append]
      exact Or.inl (List.mem_append_left _ hin)
  | inr hfailed =>
      rw [Tried, failures_append]
      exact Or.inr (Nat.le_add_right_of_le hfailed)

theorem Tried.after {k : Nat} (h : Tried u k s' s'') (hkept : s <+: s') : Tried u k s s'' := by
  obtain ⟨t, rfl⟩ := hkept
  apply h.imp id
  intro hfailed
  rw [failures_append] at hfailed
  omega

theorem Tried.trans {k k' : Nat} (h : Tried u k s s') (h' : Tried u k' s' s'')
    (hkept : s' <+: s'') : Tried u (k + k') s s'' := by
  cases h with
  | inl hin =>
      obtain ⟨t, rfl⟩ := hkept
      rw [Tried, urlcache_append]
      exact Or.inl (List.mem_append_left _ hin)
  | inr hfailed =>
      apply h'.imp id
      omega

/-- The pages of the sources are tried, each `k` times unless it is answered. -/
def AllTried (c : Check) (cs : List Str) (k : Nat) (s s' : List Request) : Prop :=
  ∀ src ∈ cs, ∀ page rx, versionPage c src = some (page, rx) → Tried page k s s'

theorem AllTried.append {cs cs' : List Str} {k : Nat} (h : AllTried c cs k s s')
    (h' : AllTried c cs' k s s') : AllTried c (cs ++ cs') k s s' := fun src hsrc =>
  (List.mem_append.mp hsrc).elim (h src) (h' src)

end Cbuild.Update
