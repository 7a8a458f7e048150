import Cbuild.Elf.Contained

/-! # ELF images

What an ELF file says, apart from its word size, its byte order and where its parts are, and when a
file is an encoding of that.
-/

namespace Cbuild.Elf

open Lib.Struct

structure Segment where
  type : Nat
  flags : Nat
  offset : Nat
  vaddr : Nat
  paddr : Nat
  filesz : Nat
  memsz : Nat
  align : Nat

def Segment.vals (s : Segment) : Header
  | .type => s.type
  | .flags => s.flags
  | .offset => s.offset
  | .vaddr => s.vaddr
  | .paddr => s.paddr
  | .filesz => s.filesz
  | .memsz => s.memsz
  | .align => s.align
  | _ => 0

structure Section where
  name : Nat
  type : Nat
  flags : Nat
  addr : Nat
  offset : Nat
  size : Nat
  link : Nat
  info : Nat
  addralign : Nat
  entsize : Nat

def Section.vals (s : Section) : Header
  | .name => s.name
  | .type => s.type
  | .flags => s.flags
  | .addr => s.addr
  | .offset => s.offset
  | .size => s.size
  | .link => s.link
  | .info => s.info
  | .addralign => s.addralign
  | .entsize => s.entsize
  | _ => 0

/-- An entry of the dynamic section before its sentinel. -/
inductive Entry
  | needed (name : String)
  | soname (name : String)
  | strtab
  | textrel
  | flags (val : Nat)
  | flags1 (val : Nat)
  | other (tag val : Nat)

namespace Entry

def tag : Entry → Nat
  | needed _ => DT_NEEDED
  | soname _ => DT_SONAME
  | strtab => DT_STRTAB
  | textrel => DT_TEXTREL
  | flags _ => DT_FLAGS
  | flags1 _ => DT_FLAGS_1
  | other tag _ => tag

def name? : Entry → Option String
  | needed name => some name
  | soname name => some name
  | _ => none

def needed? : Entry → Option String
  | needed name => some name
  | _ => none

def soname? : Entry → Option String
  | soname name => some name
  | _ => none

def hasTextrel : Entry → Bool
  | textrel => true
  | flags val => hasBits val 0x4
  | _ => false

/-- Position independent executable. -/
def isPie : Entry → Bool
  | flags1 val => hasBits val 0x8000000
  | _ => false

end Entry

/-- A dynamic section. -/
structure Dynamic where
  entries : List Entry
  /-- The address of its string table. -/
  strAddr : Nat

structure Image where
  machine : Nat
  etype : ElfType
  segments : List Segment
  sections : List Section
  dynamic : Option Dynamic

/-- The bytes of a name. -/
def nameBytes (name : String) : Bytes := name.toByteArray.data.toList

/-- The tags that the scan knows, and the sentinel. -/
def knownTags : List Nat := [0, DT_NEEDED, DT_SONAME, DT_STRTAB, DT_TEXTREL, DT_FLAGS, DT_FLAGS_1]

namespace Dynamic

/-- The entries are what they are called, and there is a string table. -/
structure Wellformed (dyn : Dynamic) : Prop where
  others : ∀ tag val, .other tag val ∈ dyn.entries → tag ∉ knownTags
  strtab : .strtab ∈ dyn.entries
  names : ∀ entry ∈ dyn.entries, ∀ name, entry.name? = some name → 0 ∉ nameBytes name

/-- Some entry has a name. -/
def HasNames (dyn : Dynamic) : Prop := ∃ entry ∈ dyn.entries, entry.name?.isSome = true

end Dynamic

namespace Image

/-- The header of the dynamic string table. -/
def IsStrtab (dyn : Dynamic) (s : Section) : Prop := s.type = SHT_STRTAB ∧ s.addr = dyn.strAddr

structure Wellformed (img : Image) : Prop where
  segments : img.segments.length < 0xffff
  sections : img.sections.length < 0xffff
  oneInterp : (img.segments.filter fun s => s.type = PT_INTERP).length ≤ 1
  oneStack : (img.segments.filter fun s => s.type = PT_GNU_STACK).length ≤ 1
  /-- The dynamic section has one header, and there is none without it. -/
  oneDynamic : (img.sections.filter fun s => s.type = SHT_DYNAMIC).length =
    if img.dynamic.isSome then 1 else 0
  dynamic : ∀ dyn, img.dynamic = some dyn → dyn.Wellformed
  /-- Its string table is in the file, and no other at that address. -/
  strtab : ∀ dyn, img.dynamic = some dyn → (∃ s ∈ img.sections, IsStrtab dyn s) ∧
    ∀ s ∈ img.sections, ∀ s' ∈ img.sections, IsStrtab dyn s → IsStrtab dyn s' →
      s.offset = s'.offset

/-- The header of the dynamic string table comes before that of the dynamic section. -/
def StrtabFirst (img : Image) : Prop :=
  ∀ dyn, img.dynamic = some dyn → ∃ (t d : Nat) (s s' : Section), t < d ∧
    img.sections[t]? = some s ∧ IsStrtab dyn s ∧ img.sections[d]? = some s' ∧
      s'.type = SHT_DYNAMIC

/-- The dynamic string table is not at address 0, unless there is no name in it. -/
def StrtabPlaced (img : Image) : Prop :=
  ∀ dyn, img.dynamic = some dyn → dyn.strAddr = 0 → ¬ dyn.HasNames

def entries (img : Image) : List Entry :=
  match img.dynamic with
  | none => []
  | some dyn => dyn.entries

/-- What a scan of the image has to come to; an empty soname is none. -/
def scan (img : Image) : Scan where
  machine := img.machine
  etype := img.etype
  isStatic := img.dynamic.isNone
  interp :=
    if img.segments.any fun s => s.type = PT_INTERP then some true
    else if img.entries.any Entry.isPie then some false
    else none
  textrel := img.entries.any Entry.hasTextrel
  execstack :=
    match img.segments.find? fun s => s.type = PT_GNU_STACK with
    | none => true
    | some s => hasBits s.flags 1
  needed := img.entries.filterMap Entry.needed?
  soname := ((img.entries.filterMap Entry.soname?).getLast?).filter fun name => name ≠ ""

end Image

/-! ## Encodings -/

/-- The byte of the word size. -/
def wordsizeByte : WordSize → Nat
  | .w32 => 1
  | .w64 => 2

/-- The byte of the byte order. -/
def endianByte : Endian → Nat
  | .little => 1
  | .big => 2

/-- The header is at an offset of the file. -/
def HeaderAt (sdef : Layout) (e : Endian) (mm : Bytes) (offset : Nat) (vals : Header) : Prop :=
  Fits sdef vals ∧ slice mm offset (offset + calcsize sdef) = packHeader sdef e vals

/-- The name is at a position of the file, and a NUL after it. -/
def NameAt (mm : Bytes) (pos : Nat) (name : String) : Prop :=
  ∃ rest, mm.drop pos = nameBytes name ++ 0 :: rest

/-- The value of an entry, a string table being given by its address and its offset. -/
def EntryAt (mm : Bytes) (strAddr strOffset val : Nat) : Entry → Prop
  | .needed name => val ≠ 0 ∧ NameAt mm (strOffset + val) name
  | .soname name => val ≠ 0 ∧ NameAt mm (strOffset + val) name
  | .strtab => val = strAddr
  | .textrel => True
  | .flags v => val = v
  | .flags1 v => val = v
  | .other _ v => val = v

/-- The values of an entry. -/
def dynVals (tag val : Nat) : Header
  | .tag => tag
  | .val => val
  | _ => 0

/-- The file is an encoding of the image; what the header has besides is left open. -/
structure Encodes (w : WordSize) (e : Endian) (img : Image) (mm : Bytes) (ehdr : Header) : Prop where
  /-- A file has a size. -/
  size : mm.length < 2 ^ 63
  header : HeaderAt (hdrElf w) e mm 0 ehdr
  magic : ehdr .magic = ofBytes e elfMagic
  wordsize : ehdr .wordsize = wordsizeByte w
  endian : ehdr .endian = endianByte e
  type : elfTypes[ehdr .type]? = some img.etype
  machine : ehdr .machine = img.machine
  phnum : ehdr .phnum = img.segments.length
  phentsize : ehdr .phentsize = calcsize (hdrProg w)
  shnum : ehdr .shnum = img.sections.length
  shentsize : ehdr .shentsize = calcsize (hdrSect w)
  segments : ∀ i s, img.segments[i]? = some s →
    HeaderAt (hdrProg w) e mm (ehdr .phoff + i * ehdr .phentsize) s.vals
  sections : ∀ i s, img.sections[i]? = some s →
    HeaderAt (hdrSect w) e mm (ehdr .shoff + i * ehdr .shentsize) s.vals
  dynamic : ∀ dyn, img.dynamic = some dyn → ∀ s ∈ img.sections, s.type = SHT_DYNAMIC →
    ∀ t ∈ img.sections, Image.IsStrtab dyn t →
      (∀ i entry, dyn.entries[i]? = some entry → ∃ val, EntryAt mm dyn.strAddr t.offset val entry ∧
        HeaderAt (dynEntry w) e mm (s.offset + i * calcsize (dynEntry w))
          (dynVals entry.tag val)) ∧
      ∃ val, HeaderAt (dynEntry w) e mm
        (s.offset + dyn.entries.length * calcsize (dynEntry w)) (dynVals 0 val)

end Cbuild.Elf
