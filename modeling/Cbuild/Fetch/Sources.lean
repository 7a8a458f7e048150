import Cbuild.Apk.Token
import Cbuild.Lib.Wp
import Mathlib.Logic.Function.Basic
import Mathlib.Logic.Relation

/-! # Fetching the sources of a template

`invoke` of `hooks/fetch/000_sources.py` with `accept_checksums` off: it purges wrong files
from the source directory, links what the `by_sha256` cache has, downloads the rest in
a pool of threads and verifies what it has downloaded. Directories map names to inodes, so
that files may be hard links of each other.
-/

namespace Cbuild.Fetch

/-! ## Names -/

/-- `str.rfind`, with -1 for a character that does not occur. -/
def rfind (c : Char) (d : Str) : Int :=
  match d.reverse.findIdx? (· = c) with
  | none => -1
  | some i => (d.length : Int) - 1 - i

/-- `get_nameurl` -/
def getNameurl (d : Str) : Option (Str × Str) :=
  let d := if d.head? = some '!' then d.drop 1 else d
  let bkt := rfind '>' d
  let bsl := rfind '/' d
  if bkt < 0 ∧ bsl < 0 then none
  else if bkt > bsl then some (d.take bkt.toNat, d.drop (bkt.toNat + 1))
  else some (d, d.drop (bsl.toNat + 1))

structure Pkg where
  source : List Str
  sha256 : List Str
  /-- The number of entries of `source_headers`, 0 if there are none. -/
  sourceHeaders : Nat

structure Source where
  url : Str
  fname : Str
  ck : Str
  deriving DecidableEq

/-- The sources with their names and sums, unless the template is in error. -/
def Pkg.sources (pkg : Pkg) : Option (List Source) :=
  if pkg.source.length ≠ pkg.sha256.length then none
  else if pkg.sourceHeaders ≠ 0 ∧ pkg.source.length ≠ pkg.sourceHeaders then none
  else
    (pkg.source.zip pkg.sha256).mapM fun dc =>
      (getNameurl dc.1).map fun un => ⟨un.1, un.2, dc.2⟩

/-- The entry of a source in the cache. -/
def Source.key (s : Source) : Str := s.ck ++ '_' :: s.fname

/-- The file that is downloaded to. -/
def Source.part (s : Source) : Str := s.fname ++ ".part".toList

/-! ## Files -/

abbrev Bytes : Type := List UInt8

inductive Node
  | file (ino : Nat)
  /-- What is not a file, such as a directory. -/
  | other
  deriving DecidableEq

structure Disk where
  /-- The source directory. -/
  src : Str → Option Node
  /-- `by_sha256` -/
  cache : Str → Option Node
  content : Nat → Bytes

def Disk.setSrc (d : Disk) (name : Str) (n : Option Node) : Disk :=
  { d with src := Function.update d.src name n }

def Disk.setCache (d : Disk) (key : Str) (n : Option Node) : Disk :=
  { d with cache := Function.update d.cache key n }

def Disk.setContent (d : Disk) (ino : Nat) (b : Bytes) : Disk :=
  { d with content := Function.update d.content ino b }

inductive Err
  | osError

abbrev Hook (α : Type) : Type := EStateM Err Disk α

/-! ## Checksums -/

def emptySha256 : Str :=
  "e3b0c44298fc1c149afbf4c8996fb92427ae41e4649b934ca495991b7852b855".toList

section

variable (sha256 : Bytes → Str)

/-- `get_cksum`; no sum for an empty file. -/
def getCksum (b : Bytes) : Option Str :=
  if sha256 b = emptySha256 then none else some (sha256 b)

/-- `make_link` -/
def makeLink (s : Source) : Hook Unit := do
  let d ← get
  match d.src s.fname, d.cache s.key with
  | some (.file i), none => set (d.setCache s.key (some (.file i)))
  | some (.file i), some (.file j) =>
      -- if inodes differ, make sure to sync it
      if j ≠ i then set (d.setCache s.key (some (.file i)))
  | _, _ => throw .osError

/-- `verify_cksum` -/
def verifyCksum (s : Source) : Hook Bool := do
  let d ← get
  match d.src s.fname with
  | some (.file i) =>
      match getCksum sha256 (d.content i) with
      | none => return false
      | some filesum =>
          if s.ck ≠ filesum then return false
          makeLink s
          return true
  | _ => throw .osError

/-- `link_cksum` -/
def linkCksum (s : Source) : Hook Bool := do
  let d ← get
  match d.src s.fname, d.cache s.key with
  -- it's already in the destination, don't try to link
  | some (.file _), _ => return true
  | n, some (.file j) =>
      if s.ck = [] then return false
      else if n ≠ none then throw .osError
      else do
        set (d.setSrc s.fname (some (.file j)))
        -- do an early verify in case the known source is corrupt
        if ← verifyCksum sha256 s then return true
        modify fun d => (d.setCache s.key none).setSrc s.fname none
        return false
  | _, _ => return false

/-! ## The loops of `invoke` -/

/-- The first loop, for one source: whether its file is there and right. -/
def checkFile (s : Source) : Hook Bool := do
  let d ← get
  match d.src s.fname with
  | some (.file i) =>
      if getCksum sha256 (d.content i) = some s.ck then
        makeLink s
        return true
      set (d.setSrc s.fname none)
      return false
  | _ => return false

/-- The number of sources whose files are there. -/
def checkFiles : List Source → Hook Nat
  | [] => return 0
  | s :: ss => do
      let good ← checkFile sha256 s
      let dfgood ← checkFiles ss
      return if good = true then dfgood + 1 else dfgood

/-- The sources that remain to be fetched. -/
def linkFiles : List Source → Hook (List Source)
  | [] => return []
  | s :: ss => do
      let linked ← linkCksum sha256 s
      let tofetch ← linkFiles ss
      return if linked = true then tofetch else s :: tofetch

/-- What `invoke` does before it downloads, and what it sets out to download if it does not
return. -/
def prepare (sources : List Source) : Hook (Option (List Source)) := do
  let dfgood ← checkFiles sha256 sources
  if sources.length = dfgood then return none
  return some (← linkFiles sha256 sources)

/-- The last loop; an error at its end if something failed to verify. -/
def verifyFiles : List Source → Hook Unit
  | [] => return ()
  | s :: ss => do
      let good ← verifyCksum sha256 s
      verifyFiles ss
      if good = false then throw .osError

end

/-! ## Downloads -/

/-- Where the thread of a download is. -/
inductive Phase
  | waiting
  /-- It has opened the file and may write to it. -/
  | writing (ino : Nat)
  | fetched
  deriving DecidableEq

structure Pool where
  disk : Disk
  phase : Nat → Phase

/-- No name and no thread refers to the inode. -/
structure Pool.Fresh (p : Pool) (ino : Nat) : Prop where
  src : ∀ name, p.disk.src name ≠ some (.file ino)
  cache : ∀ key, p.disk.cache key ≠ some (.file ino)
  phase : ∀ k, p.phase k ≠ .writing ino

def Pool.move (p : Pool) (k : Nat) (ph : Phase) (d : Disk) : Pool :=
  ⟨d, Function.update p.phase k ph⟩

/-- One operation of one of the threads that run `fetch_url`. An attempt opens the file, anew or
to resume, and writes; a failed one may be followed by another. What a write leaves in a
file that others write to as well is not determined. -/
inductive FetchStep (tofetch : List Source) (p : Pool) : Pool → Prop
  | openFile (k : Nat) (s : Source) (i : Nat) (hs : tofetch[k]? = some s)
      (hk : p.phase k ≠ .fetched) (hpart : p.disk.src s.part = some (.file i)) :
      FetchStep tofetch p (p.move k (.writing i) p.disk)
  | create (k : Nat) (s : Source) (i : Nat) (hs : tofetch[k]? = some s)
      (hk : p.phase k ≠ .fetched) (hpart : p.disk.src s.part = none) (hi : p.Fresh i) :
      FetchStep tofetch p
        (p.move k (.writing i) ((p.disk.setSrc s.part (some (.file i))).setContent i []))
  | write (k : Nat) (i : Nat) (b : Bytes) (hk : p.phase k = .writing i) :
      FetchStep tofetch p { p with disk := p.disk.setContent i b }
  -- a file that is renamed to another link of its own stays where it is
  | rename (k : Nat) (s : Source) (i : Nat) (n : Node) (hs : tofetch[k]? = some s)
      (hk : p.phase k = .writing i) (hpart : p.disk.src s.part = some n)
      (hname : p.disk.src s.fname ≠ some .other) :
      FetchStep tofetch p (p.move k .fetched
        (if p.disk.src s.fname = some n then p.disk
          else (p.disk.setSrc s.fname (some n)).setSrc s.part none))

/-- All downloads have ended without an error. -/
def Fetches (tofetch : List Source) (d d' : Disk) : Prop :=
  ∃ p, Relation.ReflTransGen (FetchStep tofetch) ⟨d, fun _ => .waiting⟩ p ∧ p.disk = d' ∧
    ∀ k < tofetch.length, p.phase k = .fetched

/-- `invoke` returns. -/
inductive Invokes (sha256 : Bytes → Str) (sources : List Source) (d : Disk) : Disk → Prop
  | present (d' : Disk) (h : (prepare sha256 sources).run d = .ok none d') :
      Invokes sha256 sources d d'
  | fetched (tofetch : List Source) (d₁ d₂ d' : Disk)
      (h : (prepare sha256 sources).run d = .ok (some tofetch) d₁) (hfetch : Fetches tofetch d₁ d₂)
      (hverify : (verifyFiles sha256 tofetch).run d₂ = .ok () d') :
      Invokes sha256 sources d d'

end Cbuild.Fetch
