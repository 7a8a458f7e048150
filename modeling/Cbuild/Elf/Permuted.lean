import Cbuild.Elf.Decoded

/-! # The order of the section headers

Encodings of an image in whatever word size and byte order are scanned alike, and so are files whose
section headers are permuted, unless the header of the dynamic string table is moved past that of
the dynamic section.
-/

namespace Cbuild.Elf

open Lib.Struct

/-- A section without the fields that are indices of headers. -/
def Section.core (s : Section) : Section := { s with link := 0, info := 0 }

/-- The section headers are in another order, and their indices adjusted. -/
structure Permuted (img img' : Image) : Prop where
  machine : img.machine = img'.machine
  etype : img.etype = img'.etype
  segments : img.segments = img'.segments
  dynamic : img.dynamic = img'.dynamic
  sections : (img.sections.map Section.core).Perm (img'.sections.map Section.core)

namespace Permuted

variable {img img' : Image}

theorem symm (h : Permuted img img') : Permuted img' img where
  machine := h.machine.symm
  etype := h.etype.symm
  segments := h.segments.symm
  dynamic := h.dynamic.symm
  sections := h.sections.symm

/-- What the image says does not depend on its section headers. -/
theorem scan (h : Permuted img img') : img.scan = img'.scan := by
  have hentries : img.entries = img'.entries := by
    unfold Image.entries
    rw [h.dynamic]
  unfold Image.scan
  rw [h.machine, h.etype, h.segments, h.dynamic, hentries]

theorem strtabPlaced (h : Permuted img img') : img.StrtabPlaced ↔ img'.StrtabPlaced := by
  unfold Image.StrtabPlaced
  rw [h.dynamic]

/-- Every section is still there. -/
theorem exists_section (h : Permuted img img') {s : Section} (hs : s ∈ img'.sections) :
    ∃ s' ∈ img.sections, s'.core = s.core := by
  have hmem : s.core ∈ img.sections.map Section.core :=
    h.sections.mem_iff.mpr (List.mem_map_of_mem hs)
  exact List.mem_map.mp hmem

theorem dynamics_length (h : Permuted img img') :
    (img'.sections.filter fun s => s.type = SHT_DYNAMIC).length =
      (img.sections.filter fun s => s.type = SHT_DYNAMIC).length := by
  have hcore : ∀ l : List Section, (l.filter fun s => s.type = SHT_DYNAMIC).length =
      (l.map Section.core).countP fun s => s.type = SHT_DYNAMIC := by
    intro l
    rw [List.countP_map, List.countP_eq_length_filter]
    rfl
  rw [hcore, hcore, h.sections.countP_eq]

theorem wellformed (h : Permuted img img') (hwf : img.Wellformed) : img'.Wellformed where
  segments := h.segments ▸ hwf.segments
  sections := by
    have hlen := h.sections.length_eq
    rw [List.length_map, List.length_map] at hlen
    rw [← hlen]
    exact hwf.sections
  oneInterp := h.segments ▸ hwf.oneInterp
  oneStack := h.segments ▸ hwf.oneStack
  oneDynamic := by
    rw [h.dynamics_length, hwf.oneDynamic, h.dynamic]
  dynamic := h.dynamic ▸ hwf.dynamic
  strtab := by
    intro dyn hdyn
    rw [← h.dynamic] at hdyn
    have hcore : ∀ s s' : Section, s'.core = s.core → Image.IsStrtab dyn s →
        Image.IsStrtab dyn s' ∧ s'.offset = s.offset := by
      intro s s' hcore hs
      have htype : s'.core.type = s.core.type := congrArg Section.type hcore
      have haddr : s'.core.addr = s.core.addr := congrArg Section.addr hcore
      have hoffset : s'.core.offset = s.core.offset := congrArg Section.offset hcore
      exact ⟨⟨htype.trans hs.1, haddr.trans hs.2⟩, hoffset⟩
    constructor
    · obtain ⟨s, hs, hstrtab⟩ := (hwf.strtab dyn hdyn).1
      obtain ⟨s', hs', heq⟩ := h.symm.exists_section hs
      exact ⟨s', hs', (hcore s s' heq hstrtab).1⟩
    · intro s hs s' hs' hstrtab hstrtab'
      obtain ⟨t, ht, heq⟩ := h.exists_section hs
      obtain ⟨t', ht', heq'⟩ := h.exists_section hs'
      obtain ⟨htstrtab, hoffset⟩ := hcore s t heq hstrtab
      obtain ⟨htstrtab', hoffset'⟩ := hcore s' t' heq' hstrtab'
      rw [← hoffset, ← hoffset']
      exact (hwf.strtab dyn hdyn).2 t ht t' ht' htstrtab htstrtab'

end Permuted

/-! ## A small file -/

section Small

def smallStrtab (addr : Nat) : Section := ⟨1, SHT_STRTAB, 2, addr, 156, 3, 0, 0, 1, 0⟩

def smallDynamic (link : Nat) : Section := ⟨9, SHT_DYNAMIC, 2, 0x2000, 132, 24, link, 0, 4, 8⟩

/-- A shared library that needs another one, the header of its string table being the first or not. -/
def smallImage (first : Bool) (addr : Nat) : Image where
  machine := 40
  etype := .dyn
  segments := []
  sections := if first then [smallStrtab addr, smallDynamic 0] else [smallDynamic 1, smallStrtab addr]
  dynamic := some ⟨[.strtab, .needed "a"], addr⟩

def smallHeader : Header
  | .magic => 0x464c457f
  | .wordsize => 1
  | .endian => 1
  | .version => 1
  | .type => 3
  | .machine => 40
  | .oversion => 1
  | .shoff => 52
  | .ehsize => 52
  | .phentsize => 32
  | .shentsize => 40
  | .shnum => 2
  | _ => 0

def smallFile (first : Bool) (addr : Nat) : Bytes :=
  packHeader (hdrElf .w32) .little smallHeader ++
    (smallImage first addr).sections.flatMap (fun s => packHeader (hdrSect .w32) .little s.vals) ++
    packHeader (dynEntry .w32) .little (dynVals DT_STRTAB addr) ++
    packHeader (dynEntry .w32) .little (dynVals DT_NEEDED 1) ++
    packHeader (dynEntry .w32) .little (dynVals 0 0) ++ [0, 97, 0]

theorem small_wellformed (first : Bool) (addr : Nat) : (smallImage first addr).Wellformed where
  segments := by simp [smallImage]
  sections := by cases first <;> simp [smallImage]
  oneInterp := by simp [smallImage]
  oneStack := by simp [smallImage]
  oneDynamic := by cases first <;> rfl
  dynamic := by
    intro dyn hdyn
    cases hdyn
    constructor
    · intro tag val hmem
      simp at hmem
    · simp
    · intro entry hentry name hname
      simp at hentry
      rcases hentry with rfl | rfl
      · cases hname
      · cases hname
        decide
  strtab := by
    intro dyn hdyn
    cases hdyn
    have hmem : ∀ s ∈ (smallImage first addr).sections,
        Image.IsStrtab ⟨[.strtab, .needed "a"], addr⟩ s → s = smallStrtab addr := by
      intro s hs hstrtab
      have hs : s = smallStrtab addr ∨ s.type = SHT_DYNAMIC := by
        cases first
        · rcases List.mem_pair.mp hs with rfl | rfl
          · exact Or.inr rfl
          · exact Or.inl rfl
        · rcases List.mem_pair.mp hs with rfl | rfl
          · exact Or.inl rfl
          · exact Or.inr rfl
      rcases hs with rfl | hs
      · rfl
      · rw [hstrtab.1] at hs
        exact absurd hs (by decide)
    constructor
    · refine ⟨smallStrtab addr, ?_, rfl, rfl⟩
      cases first <;> simp [smallImage]
    · intro s hs s' hs' hstrtab hstrtab'
      rw [hmem s hs hstrtab, hmem s' hs' hstrtab']

/-- The headers of the dynamic section and of its string table. -/
theorem small_sections {first : Bool} {addr : Nat} {s t : Section}
    (hs : s ∈ (smallImage first addr).sections) (htype : s.type = SHT_DYNAMIC)
    (ht : t ∈ (smallImage first addr).sections) (hstrtab : t.type = SHT_STRTAB) :
    s.offset = 132 ∧ t = smallStrtab addr := by
  cases first
  · rcases List.mem_pair.mp hs with rfl | rfl
    · rcases List.mem_pair.mp ht with rfl | rfl
      · cases hstrtab
      · exact ⟨rfl, rfl⟩
    · cases htype
  · rcases List.mem_pair.mp hs with rfl | rfl
    · cases htype
    · rcases List.mem_pair.mp ht with rfl | rfl
      · exact ⟨rfl, rfl⟩
      · cases hstrtab

/-- The strings of the file. -/
theorem small_strings (first : Bool) (addr : Nat) :
    (smallFile first addr).drop 156 = [0, 97, 0] := by
  apply List.drop_left'
  cases first <;> rfl

set_option maxRecDepth 1024 in
theorem small_encodes (first : Bool) {addr : Nat} (h : addr < 256 ^ 4) :
    Encodes .w32 .little (smallImage first addr) (smallFile first addr) smallHeader where
  size := by
    have hlen : (smallFile first addr).length = 159 := by cases first <;> rfl
    rw [hlen]
    decide
  header := by
    constructor
    · show ∀ f ∈ hdrElf .w32, smallHeader f.1 < 256 ^ f.2
      decide
    · cases first <;> rfl
  magic := rfl
  wordsize := rfl
  endian := rfl
  type := rfl
  machine := rfl
  phnum := rfl
  phentsize := rfl
  shnum := by cases first <;> rfl
  shentsize := rfl
  segments := fun i s hs => by cases hs
  sections := by
    have hstrtab : Fits (hdrSect .w32) (smallStrtab addr).vals := by
      simp [Fits, hdrSect, makeStruct, Section.vals, smallStrtab, SHT_STRTAB]
      exact h
    have hdynamic : ∀ link < 256 ^ 4, Fits (hdrSect .w32) (smallDynamic link).vals := by
      intro link hlink
      simp [Fits, hdrSect, makeStruct, Section.vals, smallDynamic, SHT_DYNAMIC]
      exact hlink
    intro i s hs
    cases first with
    | false =>
        rcases i with _ | _ | i
        · cases hs
          exact ⟨hdynamic 1 (by decide), rfl⟩
        · cases hs
          exact ⟨hstrtab, rfl⟩
        · cases hs
    | true =>
        rcases i with _ | _ | i
        · cases hs
          exact ⟨hstrtab, rfl⟩
        · cases hs
          exact ⟨hdynamic 0 (by decide), rfl⟩
        · cases hs
  dynamic := by
    intro dyn hdyn s hs htype t ht hstrtab
    cases hdyn
    obtain ⟨hs, rfl⟩ := small_sections hs htype ht hstrtab.1
    have hfits : ∀ tag < 256 ^ 4, ∀ val < 256 ^ 4, Fits (dynEntry .w32) (dynVals tag val) := by
      intro tag htag val hval
      simp [Fits, dynEntry, makeStruct, dynVals]
      exact ⟨htag, hval⟩
    rw [hs]
    constructor
    · intro i entry hentry
      rcases i with _ | _ | i
      · cases hentry
        refine ⟨addr, rfl, hfits _ (by decide) _ h, ?_⟩
        cases first <;> rfl
      · cases hentry
        refine ⟨1, ⟨by decide, [], ?_⟩, hfits _ (by decide) _ (by decide), ?_⟩
        · show (smallFile first addr).drop (156 + 1) = nameBytes "a" ++ [0]
          rw [← List.drop_drop, small_strings]
          rfl
        · cases first <;> rfl
      · cases hentry
    · refine ⟨0, hfits _ (by decide) _ (by decide), ?_⟩
      cases first <;> rfl

end Small

/-! ## The scans -/

section Scans

variable {w w' : WordSize} {e e' : Endian} {img img' : Image} {mm mm' : Bytes} {ehdr ehdr' : Header}

/-- Every encoding of an image is scanned as what the image says. -/
theorem scanOne_encoded (hwf : img.Wellformed) (hfirst : img.StrtabFirst)
    (hplaced : img.StrtabPlaced) (h : Encodes w e img mm ehdr) :
    scanOne mm = .ok (some img.scan) :=
  scanOne_of_found hwf h ⟨hfirst, hplaced⟩

theorem small_strtabFirst (addr : Nat) : (smallImage true addr).StrtabFirst := by
  intro dyn hdyn
  cases hdyn
  exact ⟨0, 1, smallStrtab addr, smallDynamic 0, Nat.one_pos, rfl, ⟨rfl, rfl⟩, rfl, rfl⟩

theorem small_strtabPlaced (first : Bool) {addr : Nat} (h : addr ≠ 0) :
    (smallImage first addr).StrtabPlaced := by
  intro dyn hdyn hzero
  cases hdyn
  exact absurd hzero h

theorem smallFile_encoded :
    scanOne (smallFile true 0x1000) = .ok (some (smallImage true 0x1000).scan) :=
  scanOne_encoded (small_wellformed _ _) (small_strtabFirst _)
    (small_strtabPlaced _ (by decide)) (small_encodes _ (by decide))

/-- A string table at address 0 is taken for none. -/
theorem strtab_at_zero : ∃ img mm ehdr, img.Wellformed ∧ img.StrtabFirst ∧
    Encodes .w32 .little img mm ehdr ∧ scanOne mm ≠ .ok (some img.scan) := by
  have hwf := small_wellformed true 0
  have hencodes := small_encodes true (Nat.pow_pos (by decide) : 0 < 256 ^ 4)
  refine ⟨smallImage true 0, smallFile true 0, smallHeader, hwf, small_strtabFirst 0, hencodes, ?_⟩
  have hfound : ¬ (smallImage true 0).Found := by
    intro hfound
    exact hfound.2 _ rfl rfl ⟨.needed "a", by simp, rfl⟩
  rw [scanOne_of_not_found hwf hencodes hfound]
  exact fun heq => by cases heq

/-- Two files whose section headers are permuted are scanned alike if both or neither have the
header of the string table first, and if it is not found in either anyway. -/
theorem scanOne_permuted_iff (hwf : img.Wellformed) (hperm : Permuted img img')
    (h : Encodes w e img mm ehdr) (h' : Encodes w' e' img' mm' ehdr') :
    scanOne mm = scanOne mm' ↔ ((img.StrtabFirst ↔ img'.StrtabFirst) ∨ ¬ img.StrtabPlaced) := by
  have hwf' := hperm.wellformed hwf
  have hfound : (img.Found ↔ img'.Found) ↔
      ((img.StrtabFirst ↔ img'.StrtabFirst) ∨ ¬ img.StrtabPlaced) := by
    unfold Image.Found
    rw [← hperm.strtabPlaced, and_congr_left_iff]
    tauto
  rw [← hfound]
  have hne : ∀ a : Scan, (.ok (some a) : Except Exc (Option Scan)) ≠ .ok none :=
    fun a heq => by cases heq
  by_cases hf : img.Found
  · rw [scanOne_of_found hwf h hf]
    by_cases hf' : img'.Found
    · rw [scanOne_of_found hwf' h' hf', hperm.scan]
      exact iff_of_true rfl (iff_of_true hf hf')
    · rw [scanOne_of_not_found hwf' h' hf']
      exact iff_of_false (hne _) fun hiff => hf' (hiff.mp hf)
  · rw [scanOne_of_not_found hwf h hf]
    by_cases hf' : img'.Found
    · rw [scanOne_of_found hwf' h' hf']
      exact iff_of_false (hne _).symm fun hiff => hf (hiff.mpr hf')
    · rw [scanOne_of_not_found hwf' h' hf']
      exact iff_of_true rfl (iff_of_false hf hf')

theorem small_permuted (addr : Nat) : Permuted (smallImage true addr) (smallImage false addr) where
  machine := rfl
  etype := rfl
  segments := rfl
  dynamic := rfl
  sections := List.Perm.swap _ _ _

theorem smallFile_permuted : scanOne (smallFile true 0x1000) = scanOne (smallFile false 0x1000) ↔
    (((smallImage true 0x1000).StrtabFirst ↔ (smallImage false 0x1000).StrtabFirst) ∨
      ¬ (smallImage true 0x1000).StrtabPlaced) :=
  scanOne_permuted_iff (small_wellformed _ _) (small_permuted _) (small_encodes _ (by decide))
    (small_encodes _ (by decide))

/-- With the header of its string table moved to the end, a library is taken for no ELF file. -/
theorem permuted_not_alike : ∃ img img' mm mm' ehdr ehdr', img.Wellformed ∧ Permuted img img' ∧
    Encodes .w32 .little img mm ehdr ∧ Encodes .w32 .little img' mm' ehdr' ∧
      scanOne mm ≠ scanOne mm' := by
  have hwf := small_wellformed true 0x1000
  have hencodes := small_encodes true (by decide : 0x1000 < 256 ^ 4)
  have hencodes' := small_encodes false (by decide : 0x1000 < 256 ^ 4)
  refine ⟨smallImage true 0x1000, smallImage false 0x1000, smallFile true 0x1000,
    smallFile false 0x1000, smallHeader, smallHeader, hwf, small_permuted _, hencodes, hencodes', ?_⟩
  have hplaced := small_strtabPlaced true (by decide : 0x1000 ≠ 0)
  have hfound' : ¬ (smallImage false 0x1000).Found := by
    intro hfound
    obtain ⟨t, d, s, s', hlt, hs, hstrtab, hs', hdyn⟩ := hfound.1 _ rfl
    rcases d with _ | _ | d
    · exact absurd hlt (Nat.not_lt_zero t)
    · cases hs'
      cases hdyn
    · cases hs'
  rw [scanOne_of_found hwf hencodes ⟨small_strtabFirst _, hplaced⟩,
    scanOne_of_not_found (small_wellformed _ _) hencodes' hfound']
  exact fun heq => by cases heq

end Scans

end Cbuild.Elf
