import Cbuild.Lib.Moves
import Cbuild.Repo.FileName

/-! # Man pages

`002_uncompress_manpages.py` uncompresses the pages below `usr/share/man`, and
`199_recompress_manpages.py` compresses them again with gzip. Both go over the names
that a listing of the directories gives, in any order. An alias is a symbolic link to a
page or to another alias; the directories of its text are those of the place it leads
to, which the hooks leave alone.
-/

namespace Cbuild.Manpages

open Lib Entries
open Fetch (rfind)

/-- The directory below `usr/share/man` and the name. -/
abbrev Path : Type := List Str × Str

/-- `PurePath.suffix` -/
def suffix (name : Str) : Str :=
  let i := rfind '.' name
  if 0 < i ∧ i < name.length - 1 then name.drop i.toNat else []

/-- `PurePath.with_suffix` -/
def withSuffix (sfx : Str) (p : Path) : Path :=
  (p.1, p.2.take (p.2.length - (suffix p.2).length) ++ sfx)

def gz : Str := ".gz".toList

def bz2 : Str := ".bz2".toList

/-- The programs and modules that compress. -/
structure Tools (C : Type) where
  gzip : C → C
  gunzip : C → Option C
  bunzip2 : C → Option C
  gunzip_gzip : ∀ c, gunzip (gzip c) = some c
  /-- The names `gzip` takes to be compressed already. -/
  refuses : Str → Bool

variable {C : Type}

/-- `Path.symlink_to`, which does not replace anything. -/
def symlinkTo (t : Entries Path C) (f target : Path) : Option (Entries Path C) :=
  if (t f).isSome then none else some (Function.update t f (some (.link target)))

/-- What is written into a file that is opened under a name. -/
def write (t : Entries Path C) (f : Path) (c : C) : Option (Entries Path C) :=
  (t.follow 40 f).map fun f => Function.update t f (some (.file c))

def unlink (t : Entries Path C) (f : Path) : Entries Path C := Function.update t f none

/-- The name says that the page is compressed. -/
def compressed (name : Str) : Bool := suffix name = gz || suffix name = bz2

/-- What `gzip.open` or `bz2.open` reads. -/
def Tools.uncompressed (tools : Tools C) (name : Str) (c : C) : Option C :=
  if suffix name = gz then tools.gunzip c else tools.bunzip2 c

/-- The uncompress hook at one name. -/
def uncompressOne (tools : Tools C) (t : Entries Path C) (f : Path) : Option (Entries Path C) :=
  if (t.read f).isNone then some t
  else if compressed f.2 = false then some t
  else
    match t f with
    -- the link itself stays
    | some (.link target) => symlinkTo t (withSuffix [] f) (withSuffix [] target)
    | some (.file c) => (tools.uncompressed f.2 c).bind fun text =>
        (write t (withSuffix [] f) text).map fun t => unlink t f
    | none => some t

/-- `invoke` of the uncompress hook, over the names of a listing. -/
def uncompress (tools : Tools C) (listing : List Path) (t : Entries Path C) :
    Option (Entries Path C) :=
  listing.foldlM (uncompressOne tools) t

def addGz (f : Path) : Path := (f.1, f.2 ++ gz)

/-- A link is made anew. -/
def relinkOne (t : Entries Path C) (f : Path) : Option (Entries Path C) :=
  match t f with
  | some (.link target) =>
      symlinkTo (unlink t f) (withSuffix (suffix f.2 ++ gz) f) (addGz target)
  | _ => some t

/-- `gzip -9nf` on a file; the result of a failure is checked. -/
def Tools.gzipOne (tools : Tools C) (t : Entries Path C) (f : Path) : Option (Entries Path C) :=
  match t f with
  | some (.file c) =>
      if tools.refuses f.2 then none else some (move f (addGz f) (.file (tools.gzip c)) t)
  | _ => none

/-- `invoke` of the recompress hook, over the names of a listing; `files` are those of them that
are no links, in the order of the set they are collected in. -/
def recompress (tools : Tools C) (stage : Nat) (listing files : List Path) (t : Entries Path C) :
    Option (Entries Path C) :=
  if stage < 2 then some t
  else ((listing.filter t.isLink).foldlM relinkOne t).bind (files.foldlM tools.gzipOne)

/-! ## Man page trees -/

/-- What `rglob("*.*")` gives. -/
structure Listed (t : Entries Path C) (listing : List Path) : Prop where
  nodup : listing.Nodup
  mem_iff : ∀ p, p ∈ listing ↔ (t p).isSome = true ∧ '.' ∈ p.2

/-- The name of a page without compression. -/
def plain (p : Path) : Path := if compressed p.2 then withSuffix [] p else p

/-- A name that ends like that of a compressed page. -/
def EndsCompressed (name : Str) : Prop := gz <:+ name ∨ bz2 <:+ name

/-- The text that is read under a name. -/
def Tools.text (tools : Tools C) (t : Entries Path C) (p : Path) : Option C :=
  (t.read p).bind fun r =>
    if compressed r.1.2 then tools.uncompressed r.1.2 r.2 else some r.2

/-- A tree of man pages: plain and compressed ones, and aliases between them. -/
structure ManTree (tools : Tools C) where
  tree : Entries Path C
  names : List Path
  nodup : names.Nodup
  mem_names : ∀ p, p ∈ names ↔ (tree p).isSome = true
  /-- A page or an alias is there once, compressed or not. -/
  once : ∀ p ∈ names, ∀ q ∈ names, plain p = plain q → p = q
  /-- It is compressed once at most. -/
  plain_ends : ∀ p ∈ names, ¬ EndsCompressed (plain p).2
  /-- Every name leads to a text. -/
  texts : ∀ p ∈ names, (tools.text tree p).isSome = true

/-- The tree after the first hook: nothing is compressed, and every page and alias has its
text. -/
structure Plain {tools : Tools C} (m : ManTree tools) (t : Entries Path C) : Prop where
  ends : ∀ p, (t p).isSome = true → ¬ EndsCompressed p.2
  text : ∀ p ∈ m.names, tools.text t (plain p) = tools.text m.tree p

/-- The tree after the second hook: every page and alias is there under the one name that ends in
`.gz`, and has its text. -/
structure Gzipped {tools : Tools C} (m : ManTree tools) (t : Entries Path C) : Prop where
  names : ∀ p, (t p).isSome = true ↔ ∃ q ∈ m.names, p = addGz (plain q)
  text : ∀ p ∈ m.names, tools.text t (addGz (plain p)) = tools.text m.tree p

/-- Both hooks go through and leave what they are to leave, in whatever order the names are
listed. -/
def RoundTrip {tools : Tools C} (stage : Nat) (m : ManTree tools) : Prop :=
  ∀ listing, Listed m.tree listing → ∃ t, uncompress tools listing m.tree = some t ∧ Plain m t ∧
    ∀ listing' files, Listed t listing' →
      files.Perm (listing'.filter fun p => !t.isLink p) →
      ∃ t', recompress tools stage listing' files t = some t' ∧ Gzipped m t'

/-- What is asked of a page or an alias: the second hook runs and meets its name, and as an alias
neither is it compressed nor does it lead to a compressed name. -/
structure Kept {tools : Tools C} (stage : Nat) (m : ManTree tools) (p : Path) : Prop where
  stage : 2 ≤ stage
  dot : '.' ∈ (plain p).2
  link : ∀ q, m.tree p = some (.link q) → compressed p.2 = false ∧ compressed q.2 = false
  file : ∀ c, m.tree p = some (.file c) → tools.refuses (plain p).2 = false

/-! ## Names -/

theorem suffix_isSuffix (name : Str) : suffix name <:+ name := by
  unfold suffix
  dsimp only
  split
  · exact List.drop_suffix _ _
  · exact List.nil_suffix

theorem take_append_suffix (name : Str) :
    name.take (name.length - (suffix name).length) ++ suffix name = name :=
  List.suffix_iff_eq_append.mp (suffix_isSuffix name)

/-- `f.with_suffix(f"{f.suffix}.gz")` -/
theorem withSuffix_gz (f : Path) : withSuffix (suffix f.2 ++ gz) f = addGz f := by
  rw [withSuffix, ← List.append_assoc, take_append_suffix, addGz]

theorem suffix_append_gz {name : Str} (h : name ≠ []) : suffix (name ++ gz) = gz := by
  have hfind : rfind '.' (name ++ gz) = name.length := Repo.rfind_append '.' name (by decide)
  have hpos : 0 < name.length := List.length_pos_of_ne_nil h
  have hlen : (name ++ gz).length = name.length + 3 := by
    rw [List.length_append]
    rfl
  unfold suffix
  dsimp only
  rw [hfind, if_pos (by omega), Int.toNat_natCast, List.drop_left]

theorem endsCompressed_of_compressed {name : Str} (h : compressed name = true) :
    EndsCompressed name := by
  have hsuffix := suffix_isSuffix name
  rw [compressed, Bool.or_eq_true, decide_eq_true_iff, decide_eq_true_iff] at h
  rcases h with h | h
  · exact .inl (h ▸ hsuffix)
  · exact .inr (h ▸ hsuffix)

theorem dot_of_endsCompressed {name : Str} (h : EndsCompressed name) : '.' ∈ name := by
  rcases h with h | h
  · exact h.subset (by decide)
  · exact h.subset (by decide)

theorem addGz_injective : Function.Injective addGz := by
  intro p q h
  obtain ⟨hd, hn⟩ := Prod.mk.inj h
  exact Prod.ext hd (List.append_cancel_right hn)

theorem endsCompressed_addGz (p : Path) : EndsCompressed (addGz p).2 :=
  .inl (List.suffix_append p.2 gz)

theorem plain_of_not {p : Path} (h : compressed p.2 = false) : plain p = p := by
  rw [plain, h, if_neg Bool.false_ne_true]

end Cbuild.Manpages
