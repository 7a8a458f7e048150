import Cbuild.Lib.Struct

/-! # The headers of an ELF file

The layouts of the headers in files of either word size, and `_unpack`.
-/

namespace Cbuild.Elf

open Lib.Struct

abbrev Bytes := List UInt8

inductive WordSize
  | w32
  | w64
  deriving DecidableEq

inductive Field
  | magic | wordsize | endian | version | abi | abiver | pad1 | pad2 | pad3
  | type | machine | oversion | entry | phoff | shoff | flags | ehsize | phentsize | phnum
  | shentsize | shnum | shstrndx
  | name | addr | offset | size | link | info | addralign | entsize
  | vaddr | paddr | filesz | memsz | align
  | tag | val
  deriving DecidableEq

/-- The fields of a header with their widths. -/
abbrev Layout := List (Field × Nat)

/-- The layout of one word size, where both have the same fields. -/
def makeStruct (lst : List (Field × Nat × Nat)) (w : WordSize) : Layout :=
  lst.map fun (f, v32, v64) => (f, if w = .w32 then v32 else v64)

/-- `hdrdef_elf` -/
def hdrElf : WordSize → Layout := makeStruct [
  (.magic, 4, 4), (.wordsize, 1, 1), (.endian, 1, 1), (.version, 1, 1), (.abi, 1, 1),
  (.abiver, 1, 1), (.pad1, 4, 4), (.pad2, 2, 2), (.pad3, 1, 1), (.type, 2, 2), (.machine, 2, 2),
  (.oversion, 4, 4), (.entry, 4, 8), (.phoff, 4, 8), (.shoff, 4, 8), (.flags, 4, 4),
  (.ehsize, 2, 2), (.phentsize, 2, 2), (.phnum, 2, 2), (.shentsize, 2, 2), (.shnum, 2, 2),
  (.shstrndx, 2, 2)]

/-- `hdrdef_sect` -/
def hdrSect : WordSize → Layout := makeStruct [
  (.name, 4, 4), (.type, 4, 4), (.flags, 4, 8), (.addr, 4, 8), (.offset, 4, 8), (.size, 4, 8),
  (.link, 4, 4), (.info, 4, 4), (.addralign, 4, 8), (.entsize, 4, 8)]

/-- `hdr32def_prog` and `hdr64def_prog`, in which the order differs. -/
def hdrProg : WordSize → Layout
  | .w32 => [(.type, 4), (.offset, 4), (.vaddr, 4), (.paddr, 4), (.filesz, 4), (.memsz, 4),
      (.flags, 4), (.align, 4)]
  | .w64 => [(.type, 4), (.flags, 4), (.offset, 8), (.vaddr, 8), (.paddr, 8), (.filesz, 8),
      (.memsz, 8), (.align, 8)]

/-- `dyndef` -/
def dynEntry : WordSize → Layout := makeStruct [(.tag, 4, 8), (.val, 4, 8)]

/-- `struct.calcsize` -/
def calcsize (sdef : Layout) : Nat := (sdef.map Prod.snd).sum

/-- What `scan_one` raises. -/
inductive Exc
  /-- `struct.error`: not as many bytes as the header has. -/
  | struct
  /-- `OverflowError`: the position is no `ssize_t`. -/
  | overflow
  /-- `UnicodeDecodeError` -/
  | unicode
  /-- `TypeError`: the length of a number. -/
  | type
  deriving DecidableEq

/-- `mm[beg:end]` -/
def slice (mm : Bytes) (beg stop : Nat) : Bytes := (mm.drop beg).take (stop - beg)

/-- The values of the fields of a header. -/
abbrev Header := Field → Nat

def fields (sdef : Layout) (e : Endian) (bytes : Bytes) : Header := fun f =>
  (((sdef.map Prod.fst).zip (Lib.Struct.unpack e (sdef.map Prod.snd) bytes)).lookup f).getD 0

/-- `_unpack` -/
def unpack (sdef : Layout) (offset : Nat) (e : Endian) (mm : Bytes) : Except Exc Header :=
  let bytes := slice mm offset (offset + calcsize sdef)
  if bytes.length = calcsize sdef then .ok (fields sdef e bytes) else .error .struct

/-! ## What is unpacked -/

/-- The header at an offset of the file. -/
def headerAt (sdef : Layout) (e : Endian) (mm : Bytes) (offset : Nat) : Header :=
  fields sdef e (slice mm offset (offset + calcsize sdef))

variable {sdef : Layout} {e : Endian} {mm : Bytes} {offset : Nat}

theorem length_slice (mm : Bytes) (beg n : Nat) :
    (slice mm beg (beg + n)).length = min n (mm.length - beg) := by
  unfold slice
  rw [List.length_take, List.length_drop, Nat.add_sub_cancel_left]

theorem unpack_of_le (h : offset + calcsize sdef ≤ mm.length) :
    unpack sdef offset e mm = .ok (headerAt sdef e mm offset) := by
  have hlen : (slice mm offset (offset + calcsize sdef)).length = calcsize sdef := by
    rw [length_slice]
    omega
  unfold unpack
  rw [if_pos hlen]
  rfl

theorem unpack_of_lt (hsize : 0 < calcsize sdef) (h : mm.length < offset + calcsize sdef) :
    unpack sdef offset e mm = .error .struct := by
  have hlen : (slice mm offset (offset + calcsize sdef)).length ≠ calcsize sdef := by
    rw [length_slice]
    omega
  unfold unpack
  rw [if_neg hlen]

theorem calcsize_hdrElf (w : WordSize) : 0 < calcsize (hdrElf w) := by
  cases w <;> decide

theorem calcsize_hdrSect (w : WordSize) : 0 < calcsize (hdrSect w) := by
  cases w <;> decide

theorem calcsize_hdrProg (w : WordSize) : 0 < calcsize (hdrProg w) := by
  cases w <;> decide

theorem calcsize_dynEntry (w : WordSize) : 0 < calcsize (dynEntry w) := by
  cases w <;> decide

/-! ## What is packed -/

/-- A header with these values. -/
def packHeader (sdef : Layout) (e : Endian) (vals : Header) : Bytes :=
  pack e (sdef.map fun f => (f.2, vals f.1))

/-- The values fit the fields of the layout. -/
def Fits (sdef : Layout) (vals : Header) : Prop := ∀ f ∈ sdef, vals f.1 < 256 ^ f.2

theorem length_packHeader (sdef : Layout) (e : Endian) (vals : Header) :
    (packHeader sdef e vals).length = calcsize sdef := by
  unfold packHeader calcsize
  rw [length_pack, List.map_map]
  rfl

theorem lookup_zip_map (vals : Header) (names : List Field) {f : Field} (hf : f ∈ names) :
    (names.zip (names.map vals)).lookup f = some (vals f) := by
  induction names with
  | nil => cases hf
  | cons g names ih =>
      rw [List.map_cons, List.zip_cons_cons, List.lookup_cons]
      by_cases heq : f = g
      · rw [heq, beq_self_eq_true]
      · have hne : (f == g) = false := beq_eq_false_iff_ne.mpr heq
        rw [hne]
        exact ih (List.mem_of_ne_of_mem heq hf)

/-- A header that has been packed has its values back. -/
theorem fields_packHeader {vals : Header} (hfits : Fits sdef vals) {f : Field}
    (hf : f ∈ sdef.map Prod.fst) : fields sdef e (packHeader sdef e vals) f = vals f := by
  have hunpack := unpack_pack e (sdef.map fun f => (f.2, vals f.1)) (by
    intro p hp
    obtain ⟨g, hg, rfl⟩ := List.mem_map.mp hp
    exact hfits g hg)
  rw [List.map_map, List.map_map] at hunpack
  have hvals : sdef.map (Prod.snd ∘ fun f => (f.2, vals f.1)) = (sdef.map Prod.fst).map vals := by
    rw [List.map_map]
    rfl
  rw [hvals] at hunpack
  unfold fields packHeader
  have hlookup := lookup_zip_map vals (sdef.map Prod.fst) hf
  rw [← hunpack] at hlookup
  exact (congrArg (Option.getD · 0) hlookup)

end Cbuild.Elf
