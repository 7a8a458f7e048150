import Cbuild.Elf.Layout

/-! # The scan of an ELF file

`scan_one` over the contents of a file that is not empty.
-/

namespace Cbuild.Elf

open Lib.Struct

/-- `elf_types` -/
inductive ElfType
  | none
  | rel
  | exec
  | dyn
  | core
  deriving DecidableEq

def elfTypes : List ElfType := [.none, .rel, .exec, .dyn, .core]

/-- What the scan of a file comes to. -/
structure Scan where
  machine : Nat
  etype : ElfType
  isStatic : Bool
  /-- No interpreter, none that is needed, or one that is. -/
  interp : Option Bool
  textrel : Bool
  execstack : Bool
  needed : List String
  soname : Option String
  deriving DecidableEq

def PT_INTERP : Nat := 0x3
def PT_GNU_STACK : Nat := 0x6474E551
def SHT_STRTAB : Nat := 0x3
def SHT_DYNAMIC : Nat := 0x6
def DT_NEEDED : Nat := 1
def DT_STRTAB : Nat := 5
def DT_SONAME : Nat := 14
def DT_TEXTREL : Nat := 22
def DT_FLAGS : Nat := 30
def DT_FLAGS_1 : Nat := 0x6FFFFFFB

/-- Whether some bit of the mask is set. -/
def hasBits (val mask : Nat) : Bool := val &&& mask ≠ 0

/-! ## Program headers -/

structure ProgState where
  interp : Option Bool
  stack : Bool
  execstack : Bool

/-- What a program header says. -/
def ProgState.see (s : ProgState) (phdr : Header) : ProgState :=
  if phdr .type = PT_INTERP then { s with interp := some true }
  else if phdr .type = PT_GNU_STACK then
    { s with execstack := hasBits (phdr .flags) 1, stack := true }
  else s

/-- The loop ends when both headers have been seen. -/
def ProgState.seen (s : ProgState) : Bool := s.interp = some true && s.stack

def progLoop (w : WordSize) (e : Endian) (mm : Bytes) (phents : Nat) :
    Nat → Nat → ProgState → Except Exc ProgState
  | 0, _, s => .ok s
  | phnum + 1, phoff, s => do
      let phdr ← unpack (hdrProg w) phoff e mm
      if (s.see phdr).seen then .ok (s.see phdr)
      else progLoop w e mm phents phnum (phoff + phents) (s.see phdr)

/-! ## Section headers -/

/-- The string tables that come before the dynamic section, and that. -/
def sectLoop (w : WordSize) (e : Endian) (mm : Bytes) (shents : Nat) :
    Nat → Nat → List Header → Except Exc (List Header × Option Header)
  | 0, _, strtabs => .ok (strtabs, none)
  | shnum + 1, shoff, strtabs => do
      let shdr ← unpack (hdrSect w) shoff e mm
      if shdr .type = SHT_DYNAMIC then .ok (strtabs, some shdr)
      else if shdr .type = SHT_STRTAB then
        sectLoop w e mm shents shnum (shoff + shents) (strtabs ++ [shdr])
      else sectLoop w e mm shents shnum (shoff + shents) strtabs

/-! ## The dynamic section -/

/-- Names are offsets into a string table. -/
structure DynState where
  needed : List Nat
  soname : Option Nat
  strtab : Option Nat
  textrel : Bool
  interp : Option Bool

def DynState.see (s : DynState) (dynent : Header) : DynState :=
  let dyntag := dynent .tag
  if dyntag = DT_NEEDED then { s with needed := s.needed ++ [dynent .val] }
  else if dyntag = DT_SONAME then { s with soname := some (dynent .val) }
  else if dyntag = DT_STRTAB then { s with strtab := some (dynent .val) }
  else if dyntag = DT_TEXTREL then { s with textrel := true }
  else if dyntag = DT_FLAGS then { s with textrel := s.textrel || hasBits (dynent .val) 0x4 }
  else if dyntag = DT_FLAGS_1 then
    -- DF_1_PIE
    if hasBits (dynent .val) 0x8000000 ∧ s.interp ≠ some true then { s with interp := some false }
    else s
  else s

theorem le_of_unpack {sdef : Layout} {offset : Nat} {e : Endian} {mm : Bytes} {hdr : Header}
    (hsize : 0 < calcsize sdef) (h : unpack sdef offset e mm = .ok hdr) :
    offset + calcsize sdef ≤ mm.length := by
  by_contra hnot
  rw [unpack_of_lt hsize (not_le.mp hnot)] at h
  cases h

/-- The entries up to the sentinel. -/
def dynLoop (w : WordSize) (e : Endian) (mm : Bytes) (dynoff : Nat) (s : DynState) :
    Except Exc DynState :=
  match h : unpack (dynEntry w) dynoff e mm with
  | .error exc => .error exc
  | .ok dynent =>
      if dynent .tag = 0 then .ok s
      else
        have := le_of_unpack (calcsize_dynEntry w) h
        have := calcsize_dynEntry w
        dynLoop w e mm (dynoff + calcsize (dynEntry w)) (s.see dynent)
termination_by mm.length - dynoff

/-! ## Names -/

/-- `_get_nullstr` -/
def getNullstr (offset strtab : Nat) (mm : Bytes) : Except Exc Bytes :=
  let sbeg := strtab + offset
  if 2 ^ 63 ≤ sbeg then .error .overflow
  else
    match (mm.drop sbeg).idxOf? 0 with
    | none => .ok (mm.drop sbeg)
    | some n => .ok (slice mm sbeg (sbeg + n))

/-- `decode` -/
def decode (bytes : Bytes) : Except Exc String :=
  match String.fromUTF8? ⟨bytes.toArray⟩ with
  | none => .error .unicode
  | some name => .ok name

def readName (strtab : Nat) (mm : Bytes) (offset : Nat) : Except Exc String := do
  let bytes ← getNullstr offset strtab mm
  decode bytes

/-- The names of a dynamic section; nothing without its string table. -/
def readNames (mm : Bytes) (strtabs : List Header) (s : DynState) :
    Except Exc (Option (List String × Option String)) :=
  if (s.strtab = none ∨ s.strtab = some 0) ∧
      (0 < s.needed.length ∨ (s.soname ≠ none ∧ s.soname ≠ some 0)) then .ok none
  else
    match strtabs.find? fun st => s.strtab = some (st .addr) with
    | none => .ok none
    | some st => do
        let needed ← s.needed.mapM (readName (st .offset) mm)
        match s.soname with
        | none => pure (some (needed, none))
        -- it is left an offset, of which the length is taken
        | some 0 => throw .type
        | some (offset + 1) => do
            let soname ← readName (st .offset) mm (offset + 1)
            pure (some (needed, if soname.length = 0 then none else some soname))

/-! ## The file -/

/-- An index that is one less than a byte; -1 is the last. -/
def pick {α : Type} (byte : UInt8) (first last : α) : α := if byte = 1 then first else last

/-- The headers after that of the file. -/
def scanHeaders (w : WordSize) (e : Endian) (mm : Bytes) (ehdr : Header) (etype : ElfType) :
    Except Exc (Option Scan) := do
  let p ← progLoop w e mm (ehdr .phentsize) (ehdr .phnum) (ehdr .phoff) ⟨none, false, true⟩
  let sects ← sectLoop w e mm (ehdr .shentsize) (ehdr .shnum) (ehdr .shoff) []
  match sects.2 with
  | none =>
      pure (some ⟨ehdr .machine, etype, true, p.interp, false, p.execstack, [], none⟩)
  | some dynsect => do
      let s ← dynLoop w e mm (dynsect .offset) ⟨[], none, none, false, p.interp⟩
      let names ← readNames mm sects.1 s
      match names with
      | none => pure none
      | some (needed, soname) =>
          pure (some ⟨ehdr .machine, etype, false, s.interp, s.textrel, p.execstack, needed,
            soname⟩)

/-- The scan of a file whose word size and byte order are known. -/
def scanElf (w : WordSize) (e : Endian) (mm : Bytes) : Except Exc (Option Scan) := do
  let ehdr ← unpack (hdrElf w) 0 e mm
  match elfTypes[ehdr .type]? with
  | none => pure none
  | some etype => scanHeaders w e mm ehdr etype

/-- What the file begins with. -/
def elfMagic : Bytes := [0x7f, 0x45, 0x4c, 0x46]

/-- `scan_one`; a file that is empty is not even mapped. -/
def scanOne (mm : Bytes) : Except Exc (Option Scan) :=
  if slice mm 0 4 ≠ elfMagic then .ok none
  else
    match mm[4]?, mm[5]? with
    | some wsi, some endian =>
        if 2 < wsi ∨ 2 < endian then .ok none
        else scanElf (pick wsi .w32 .w64) (pick endian .little .big) mm
    | _, _ => .ok none

end Cbuild.Elf
