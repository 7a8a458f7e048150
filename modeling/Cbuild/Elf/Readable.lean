import Cbuild.Elf.Scan

/-! # What is scanned without an exception

What the scan looks at in a file, header by header, and that it raises nothing exactly when all of
that lies in the file and the names decode.
-/

namespace Cbuild.Elf

open Lib.Struct

/-- A file with its header. -/
structure ElfFile where
  w : WordSize
  e : Endian
  mm : Bytes
  ehdr : Header

/-- A header lies in the file. -/
def Within (sdef : Layout) (mm : Bytes) (offset : Nat) : Prop :=
  offset + calcsize sdef ≤ mm.length

/-- The bytes at a position up to the next NUL are a name. -/
def Decodes (mm : Bytes) (pos : Nat) : Prop :=
  pos < 2 ^ 63 ∧ ByteArray.IsValidUTF8 ⟨((mm.drop pos).takeWhile fun b => b ≠ 0).toArray⟩

namespace ElfFile

variable (f : ElfFile)

def phdrOffset (i : Nat) : Nat := f.ehdr .phoff + i * f.ehdr .phentsize

def phdr (i : Nat) : Header := headerAt (hdrProg f.w) f.e f.mm (f.phdrOffset i)

def shdrOffset (i : Nat) : Nat := f.ehdr .shoff + i * f.ehdr .shentsize

def shdr (i : Nat) : Header := headerAt (hdrSect f.w) f.e f.mm (f.shdrOffset i)

/-- An entry of the dynamic section with the index `d`. -/
def dynOffset (d i : Nat) : Nat := f.shdr d .offset + i * calcsize (dynEntry f.w)

def dyn (d i : Nat) : Header := headerAt (dynEntry f.w) f.e f.mm (f.dynOffset d i)

/-- The program header is looked at: not both of the two have been seen. -/
def LooksAtPhdr (i : Nat) : Prop :=
  ¬ ((∃ j < i, f.phdr j .type = PT_INTERP) ∧ ∃ j < i, f.phdr j .type = PT_GNU_STACK)

/-- No dynamic section comes before. -/
def LooksAtShdr (i : Nat) : Prop := ∀ j < i, f.shdr j .type ≠ SHT_DYNAMIC

/-- The first dynamic section. -/
def IsDynamic (d : Nat) : Prop :=
  d < f.ehdr .shnum ∧ f.shdr d .type = SHT_DYNAMIC ∧ f.LooksAtShdr d

/-- No sentinel comes before. -/
def LooksAtDyn (d i : Nat) : Prop := ∀ j < i, f.dyn d j .tag ≠ 0

/-- The sentinel. -/
def IsSentinel (d n : Nat) : Prop := f.dyn d n .tag = 0 ∧ f.LooksAtDyn d n

/-- The last of the first `n` entries with a tag has this value. -/
def LastDyn (d n tag val : Nat) : Prop :=
  ∃ i < n, f.dyn d i .tag = tag ∧ f.dyn d i .val = val ∧ ∀ j < n, i < j → f.dyn d j .tag ≠ tag

def HasNeeded (d n val : Nat) : Prop := ∃ i < n, f.dyn d i .tag = DT_NEEDED ∧ f.dyn d i .val = val

/-- The first string table at an address, before the dynamic section. -/
def IsTable (d addr t : Nat) : Prop :=
  t < d ∧ f.shdr t .type = SHT_STRTAB ∧ f.shdr t .addr = addr ∧
    ∀ j < t, f.shdr j .type = SHT_STRTAB → f.shdr j .addr ≠ addr

/-- The address of the string table is not taken for none. -/
def HasTable (d n addr : Nat) : Prop :=
  f.LastDyn d n DT_STRTAB addr ∧
    (addr = 0 → (∀ val, ¬ f.HasNeeded d n val) ∧ ∀ val, f.LastDyn d n DT_SONAME val → val = 0)

/-- All that the scan looks at is there, and names are names. -/
structure Readable : Prop where
  phdrs : ∀ i < f.ehdr .phnum, f.LooksAtPhdr i → Within (hdrProg f.w) f.mm (f.phdrOffset i)
  shdrs : ∀ i < f.ehdr .shnum, f.LooksAtShdr i → Within (hdrSect f.w) f.mm (f.shdrOffset i)
  dyns : ∀ d, f.IsDynamic d → ∀ i, f.LooksAtDyn d i →
    Within (dynEntry f.w) f.mm (f.dynOffset d i)
  needed : ∀ d, f.IsDynamic d → ∀ n, f.IsSentinel d n → ∀ addr, f.HasTable d n addr →
    ∀ t, f.IsTable d addr t → ∀ val, f.HasNeeded d n val → Decodes f.mm (f.shdr t .offset + val)
  soname : ∀ d, f.IsDynamic d → ∀ n, f.IsSentinel d n → ∀ addr, f.HasTable d n addr →
    ∀ t, f.IsTable d addr t → ∀ val, f.LastDyn d n DT_SONAME val →
      val ≠ 0 ∧ Decodes f.mm (f.shdr t .offset + val)

end ElfFile

/-- The header is in the file, and the others are readable if its type is known. -/
def ScannableElf (w : WordSize) (e : Endian) (mm : Bytes) : Prop :=
  Within (hdrElf w) mm 0 ∧
    (headerAt (hdrElf w) e mm 0 .type < elfTypes.length →
      ElfFile.Readable ⟨w, e, mm, headerAt (hdrElf w) e mm 0⟩)

/-- What begins as an ELF file is one with readable headers. -/
def Scannable (mm : Bytes) : Prop :=
  ∀ wsi endian, slice mm 0 4 = elfMagic → mm[4]? = some wsi → mm[5]? = some endian →
    wsi ≤ 2 → endian ≤ 2 → ScannableElf (pick wsi .w32 .w64) (pick endian .little .big) mm

/-! ## Exceptions -/

/-- No exception. -/
def Ends {α : Type} (x : Except Exc α) : Prop := ∃ a, x = .ok a

theorem ends_bind {α β : Type} {x : Except Exc α} {g : α → Except Exc β} :
    Ends (x >>= g) ↔ ∃ a, x = .ok a ∧ Ends (g a) := by
  constructor
  · intro h
    obtain ⟨b, hb⟩ := h
    cases x with
    | error exc => cases hb
    | ok a => exact ⟨a, rfl, b, hb⟩
  · intro h
    obtain ⟨a, rfl, b, hb⟩ := h
    exact ⟨b, hb⟩

theorem unpack_bind {α : Type} {sdef : Layout} {offset : Nat} {e : Endian} {mm : Bytes}
    (h : Within sdef mm offset) (g : Header → Except Exc α) :
    (unpack sdef offset e mm >>= g) = g (headerAt sdef e mm offset) := by
  rw [unpack_of_le h]
  rfl

theorem not_ends_unpack_bind {α : Type} {sdef : Layout} {offset : Nat} {e : Endian} {mm : Bytes}
    (hsize : 0 < calcsize sdef) (h : ¬ Within sdef mm offset) (g : Header → Except Exc α) :
    ¬ Ends (unpack sdef offset e mm >>= g) := by
  rw [ends_bind]
  intro hends
  obtain ⟨hdr, hhdr, _⟩ := hends
  exact h (le_of_unpack hsize hhdr)

theorem ends_mapM {α β : Type} {g : α → Except Exc β} {l : List α} :
    Ends (l.mapM g) ↔ ∀ a ∈ l, Ends (g a) := by
  induction l with
  | nil => exact iff_of_true ⟨[], rfl⟩ fun a ha => by cases ha
  | cons a l ih =>
      rw [List.mapM_cons, List.forall_mem_cons, ends_bind, ← ih]
      constructor
      · intro h
        obtain ⟨b, hb, h⟩ := h
        rw [ends_bind] at h
        obtain ⟨bs, hbs, _⟩ := h
        exact ⟨⟨b, hb⟩, bs, hbs⟩
      · intro h
        obtain ⟨⟨b, hb⟩, bs, hbs⟩ := h
        exact ⟨b, hb, ends_bind.mpr ⟨bs, hbs, _, rfl⟩⟩

/-! ## Names -/

theorem takeWhile_eq_take_idxOf (mm : Bytes) :
    (match mm.idxOf? 0 with
      | none => mm
      | some n => mm.take n) = mm.takeWhile fun b => b ≠ 0 := by
  induction mm with
  | nil => rfl
  | cons b mm ih =>
      rw [List.idxOf?_cons, List.takeWhile_cons]
      by_cases hb : b = 0
      · simp [hb]
      · have hne : (b == 0) = false := beq_eq_false_iff_ne.mpr hb
        rw [hne, if_pos (decide_eq_true hb), ← ih]
        cases mm.idxOf? 0 with
        | none => rfl
        | some n => rfl

theorem getNullstr_eq (offset strtab : Nat) (mm : Bytes) :
    getNullstr offset strtab mm = if 2 ^ 63 ≤ strtab + offset then .error .overflow
      else .ok ((mm.drop (strtab + offset)).takeWhile fun b => b ≠ 0) := by
  unfold getNullstr
  dsimp only
  split
  · rfl
  · rw [← takeWhile_eq_take_idxOf]
    cases (mm.drop (strtab + offset)).idxOf? 0 with
    | none => rfl
    | some n =>
        unfold slice
        dsimp only
        rw [Nat.add_sub_cancel_left]

theorem ends_readName {strtab : Nat} {mm : Bytes} {offset : Nat} :
    Ends (readName strtab mm offset) ↔ Decodes mm (strtab + offset) := by
  unfold readName
  rw [ends_bind, getNullstr_eq]
  unfold Decodes
  constructor
  · intro h
    obtain ⟨bytes, hbytes, name, hname⟩ := h
    split at hbytes
    next => cases hbytes
    next hlt =>
      cases hbytes
      refine ⟨not_le.mp hlt, ?_⟩
      by_contra hnot
      unfold decode String.fromUTF8? at hname
      rw [dif_neg hnot] at hname
      cases hname
  · intro h
    obtain ⟨hlt, hvalid⟩ := h
    rw [if_neg (not_le.mpr hlt)]
    refine ⟨_, rfl, ?_⟩
    unfold decode String.fromUTF8?
    rw [dif_pos hvalid]
    exact ⟨_, rfl⟩

/-! ## Program headers -/

theorem ProgState.see_interp (s : ProgState) (phdr : Header) :
    (s.see phdr).interp = some true ↔ s.interp = some true ∨ phdr .type = PT_INTERP := by
  unfold ProgState.see
  split
  next h => exact iff_of_true rfl (Or.inr h)
  next h =>
    split
    · exact (or_iff_left h).symm
    · exact (or_iff_left h).symm

theorem ProgState.see_stack (s : ProgState) (phdr : Header) :
    (s.see phdr).stack = true ↔ s.stack = true ∨ phdr .type = PT_GNU_STACK := by
  unfold ProgState.see
  split
  next h =>
    have hne : phdr .type ≠ PT_GNU_STACK := by
      rw [h]
      decide
    exact (or_iff_left hne).symm
  next h =>
    split
    next h => exact iff_of_true rfl (Or.inr h)
    next h => exact (or_iff_left h).symm

theorem ProgState.seen_iff (s : ProgState) :
    s.seen = true ↔ s.interp = some true ∧ s.stack = true := by
  unfold ProgState.seen
  rw [Bool.and_eq_true, decide_eq_true_eq]

namespace ElfFile

variable {f : ElfFile} {d n k : Nat}

theorem LooksAtPhdr.mono {i j : Nat} (h : f.LooksAtPhdr j) (hle : i ≤ j) : f.LooksAtPhdr i := by
  intro hseen
  obtain ⟨⟨a, ha, hinterp⟩, b, hb, hstack⟩ := hseen
  exact h ⟨⟨a, Nat.lt_of_lt_of_le ha hle, hinterp⟩, b, Nat.lt_of_lt_of_le hb hle, hstack⟩

theorem phdrOffset_succ (f : ElfFile) (i : Nat) :
    f.phdrOffset (i + 1) = f.phdrOffset i + f.ehdr .phentsize := by
  unfold phdrOffset
  rw [Nat.succ_mul, Nat.add_assoc]

theorem shdrOffset_succ (f : ElfFile) (i : Nat) :
    f.shdrOffset (i + 1) = f.shdrOffset i + f.ehdr .shentsize := by
  unfold shdrOffset
  rw [Nat.succ_mul, Nat.add_assoc]

theorem dynOffset_succ (f : ElfFile) (d i : Nat) :
    f.dynOffset d (i + 1) = f.dynOffset d i + calcsize (dynEntry f.w) := by
  unfold dynOffset
  rw [Nat.succ_mul, Nat.add_assoc]

theorem phdr_bind {α : Type} {i : Nat} (h : Within (hdrProg f.w) f.mm (f.phdrOffset i))
    (g : Header → Except Exc α) :
    (unpack (hdrProg f.w) (f.phdrOffset i) f.e f.mm >>= g) = g (f.phdr i) := unpack_bind h g

theorem shdr_bind {α : Type} {i : Nat} (h : Within (hdrSect f.w) f.mm (f.shdrOffset i))
    (g : Header → Except Exc α) :
    (unpack (hdrSect f.w) (f.shdrOffset i) f.e f.mm >>= g) = g (f.shdr i) := unpack_bind h g

/-- What holds from an index on. -/
theorem forall_ge_succ {P : Nat → Prop} {k n : Nat} :
    (∀ i, k ≤ i → i < k + (n + 1) → P i) ↔ P k ∧ ∀ i, k + 1 ≤ i → i < (k + 1) + n → P i := by
  constructor
  · intro h
    exact ⟨h k (Nat.le_refl k) (by omega), fun i hle hlt => h i (by omega) (by omega)⟩
  · intro h i hle hlt
    rcases Nat.eq_or_lt_of_le hle with heq | hlt'
    · rw [← heq]
      exact h.1
    · exact h.2 i hlt' (by omega)

theorem ends_progLoop (f : ElfFile) (n k : Nat) (s : ProgState)
    (hinterp : s.interp = some true ↔ ∃ j < k, f.phdr j .type = PT_INTERP)
    (hstack : s.stack = true ↔ ∃ j < k, f.phdr j .type = PT_GNU_STACK) (hlook : f.LooksAtPhdr k) :
    Ends (progLoop f.w f.e f.mm (f.ehdr .phentsize) n (f.phdrOffset k) s) ↔
      ∀ i, k ≤ i → i < k + n → f.LooksAtPhdr i →
        Within (hdrProg f.w) f.mm (f.phdrOffset i) := by
  induction n generalizing k s with
  | zero => exact iff_of_true ⟨s, rfl⟩ fun i hle hlt => absurd hlt (not_lt.mpr hle)
  | succ n ih =>
      rw [forall_ge_succ]
      unfold progLoop
      by_cases hin : Within (hdrProg f.w) f.mm (f.phdrOffset k)
      · rw [phdr_bind hin]
        have hinterp' : (s.see (f.phdr k)).interp = some true ↔
            ∃ j < k + 1, f.phdr j .type = PT_INTERP := by
          rw [ProgState.see_interp, hinterp, Nat.exists_lt_succ_right]
        have hstack' : (s.see (f.phdr k)).stack = true ↔
            ∃ j < k + 1, f.phdr j .type = PT_GNU_STACK := by
          rw [ProgState.see_stack, hstack, Nat.exists_lt_succ_right]
        have hseen : (s.see (f.phdr k)).seen = true ↔ ¬ f.LooksAtPhdr (k + 1) := by
          unfold LooksAtPhdr
          rw [ProgState.seen_iff, hinterp', hstack', not_not]
        by_cases hlook' : f.LooksAtPhdr (k + 1)
        · rw [if_neg (fun h => hseen.mp h hlook'), ← phdrOffset_succ, ih _ _ hinterp' hstack' hlook']
          exact ⟨fun h => ⟨fun _ => hin, h⟩, fun h => h.2⟩
        · rw [if_pos (hseen.mpr hlook')]
          apply iff_of_true ⟨_, rfl⟩
          exact ⟨fun _ => hin, fun i hle _ hlooki => absurd (hlooki.mono hle) hlook'⟩
      · apply iff_of_false (not_ends_unpack_bind (calcsize_hdrProg f.w) hin _)
        intro h
        exact hin (h.1 hlook)

/-! ## Section headers -/

/-- The string tables among the first headers. -/
def strtabsTo (f : ElfFile) (k : Nat) : List Header :=
  ((List.range k).filter fun i => f.shdr i .type = SHT_STRTAB).map f.shdr

theorem strtabsTo_succ (f : ElfFile) (k : Nat) :
    f.strtabsTo (k + 1) =
      if f.shdr k .type = SHT_STRTAB then f.strtabsTo k ++ [f.shdr k] else f.strtabsTo k := by
  unfold strtabsTo
  rw [List.range_succ, List.filter_append, List.map_append]
  by_cases h : f.shdr k .type = SHT_STRTAB
  · rw [if_pos h, List.filter_singleton, decide_eq_true h]
    rfl
  · rw [if_neg h, List.filter_singleton, decide_eq_false h]
    exact List.append_nil _

/-- Where the loop over the section headers ends. -/
theorem sectLoop_spec (f : ElfFile) (n k : Nat) (hlook : f.LooksAtShdr k)
    (hin : ∀ i, k ≤ i → i < k + n → f.LooksAtShdr i →
      Within (hdrSect f.w) f.mm (f.shdrOffset i)) :
    (∃ d, d < k + n ∧ f.shdr d .type = SHT_DYNAMIC ∧ f.LooksAtShdr d ∧
      sectLoop f.w f.e f.mm (f.ehdr .shentsize) n (f.shdrOffset k) (f.strtabsTo k) =
        .ok (f.strtabsTo d, some (f.shdr d))) ∨
    (f.LooksAtShdr (k + n) ∧
      sectLoop f.w f.e f.mm (f.ehdr .shentsize) n (f.shdrOffset k) (f.strtabsTo k) =
        .ok (f.strtabsTo (k + n), none)) := by
  induction n generalizing k with
  | zero => exact Or.inr ⟨hlook, rfl⟩
  | succ n ih =>
      rw [forall_ge_succ] at hin
      have hloop : sectLoop f.w f.e f.mm (f.ehdr .shentsize) (n + 1) (f.shdrOffset k)
          (f.strtabsTo k) = if f.shdr k .type = SHT_DYNAMIC then .ok (f.strtabsTo k, some (f.shdr k))
            else sectLoop f.w f.e f.mm (f.ehdr .shentsize) n (f.shdrOffset (k + 1))
              (f.strtabsTo (k + 1)) := by
        conv_lhs => unfold sectLoop
        rw [shdr_bind (hin.1 hlook), strtabsTo_succ, shdrOffset_succ]
        split
        · rfl
        · split
          · rfl
          · rfl
      rw [hloop]
      by_cases hdyn : f.shdr k .type = SHT_DYNAMIC
      · rw [if_pos hdyn]
        exact Or.inl ⟨k, by omega, hdyn, hlook, rfl⟩
      · rw [if_neg hdyn]
        have hlook' : f.LooksAtShdr (k + 1) := by
          intro j hj
          rcases Nat.lt_succ_iff_lt_or_eq.mp hj with hlt | heq
          · exact hlook j hlt
          · rw [heq]
            exact hdyn
        have hnext := ih (k + 1) hlook' hin.2
        rw [show k + 1 + n = k + (n + 1) by omega] at hnext
        exact hnext

theorem within_of_sectLoop (f : ElfFile) (n k : Nat) (strtabs : List Header)
    (h : Ends (sectLoop f.w f.e f.mm (f.ehdr .shentsize) n (f.shdrOffset k) strtabs)) :
    ∀ i, k ≤ i → i < k + n → f.LooksAtShdr i → Within (hdrSect f.w) f.mm (f.shdrOffset i) := by
  induction n generalizing k strtabs with
  | zero => exact fun i hle hlt => absurd hlt (not_lt.mpr hle)
  | succ n ih =>
      rw [forall_ge_succ]
      unfold sectLoop at h
      by_cases hin : Within (hdrSect f.w) f.mm (f.shdrOffset k)
      · rw [shdr_bind hin] at h
        refine ⟨fun _ => hin, ?_⟩
        split at h
        next hdyn =>
          intro i hle _ hlook
          exact absurd hdyn (hlook k hle)
        next =>
          rw [← shdrOffset_succ] at h
          split at h
          · exact ih (k + 1) _ h
          · exact ih (k + 1) _ h
      · exact absurd h (not_ends_unpack_bind (calcsize_hdrSect f.w) hin _)

/-! ## The dynamic section -/

/-- The state after the first entries. -/
def dynTo (f : ElfFile) (d : Nat) (s : DynState) (n : Nat) : DynState :=
  ((List.range n).map (f.dyn d)).foldl DynState.see s

theorem dynTo_succ (f : ElfFile) (d : Nat) (s : DynState) (n : Nat) :
    f.dynTo d s (n + 1) = (f.dynTo d s n).see (f.dyn d n) := by
  unfold dynTo
  rw [List.range_succ, List.map_append, List.foldl_append]
  rfl

/-- The loop over an entry that lies in the file. -/
theorem dynLoop_of_within {s : DynState} {i : Nat}
    (hin : Within (dynEntry f.w) f.mm (f.dynOffset d i)) :
    dynLoop f.w f.e f.mm (f.dynOffset d i) s = if f.dyn d i .tag = 0 then .ok s
      else dynLoop f.w f.e f.mm (f.dynOffset d (i + 1)) (s.see (f.dyn d i)) := by
  rw [dynLoop]
  split
  next exc h =>
    rw [unpack_of_le hin] at h
    cases h
  next dynent h =>
    rw [unpack_of_le hin] at h
    cases h
    rw [dynOffset_succ]
    rfl

theorem within_of_dynLoop {s : DynState} {i : Nat}
    (h : Ends (dynLoop f.w f.e f.mm (f.dynOffset d i) s)) :
    Within (dynEntry f.w) f.mm (f.dynOffset d i) := by
  by_contra hnot
  rw [dynLoop] at h
  split at h
  next exc heq =>
    obtain ⟨s', hs'⟩ := h
    cases hs'
  next dynent heq => exact hnot (le_of_unpack (calcsize_dynEntry f.w) heq)

/-- The loop reads the entries up to the sentinel, if they lie in the file. -/
theorem dynLoop_spec (f : ElfFile) (d : Nat) (s : DynState) (i : Nat) (hlook : f.LooksAtDyn d i)
    (hin : ∀ j, i ≤ j → f.LooksAtDyn d j → Within (dynEntry f.w) f.mm (f.dynOffset d j)) :
    ∃ n, f.IsSentinel d n ∧
      dynLoop f.w f.e f.mm (f.dynOffset d i) (f.dynTo d s i) = .ok (f.dynTo d s n) := by
  induction hk : f.mm.length - f.dynOffset d i using Nat.strong_induction_on generalizing i with
  | h len ih =>
      have hini := hin i (Nat.le_refl i) hlook
      rw [dynLoop_of_within hini]
      by_cases htag : f.dyn d i .tag = 0
      · rw [if_pos htag]
        exact ⟨i, ⟨htag, hlook⟩, rfl⟩
      · rw [if_neg htag, ← dynTo_succ]
        have hlook' : f.LooksAtDyn d (i + 1) := by
          intro j hj
          rcases Nat.lt_succ_iff_lt_or_eq.mp hj with hlt | heq
          · exact hlook j hlt
          · rw [heq]
            exact htag
        have hsize := calcsize_dynEntry f.w
        have hsucc := dynOffset_succ f d i
        unfold Within at hini
        apply ih _ _ (i + 1) hlook' (fun j hle => hin j (Nat.le_of_succ_le hle)) rfl
        omega

/-- An entry that is looked at lies in the file if the loop ends. -/
theorem within_of_dynLoop_ends (f : ElfFile) (d : Nat) (s : DynState) (i m : Nat)
    (h : Ends (dynLoop f.w f.e f.mm (f.dynOffset d i) s)) (hlook : f.LooksAtDyn d (i + m)) :
    Within (dynEntry f.w) f.mm (f.dynOffset d (i + m)) := by
  induction m generalizing i s with
  | zero => exact within_of_dynLoop h
  | succ m ih =>
      rw [dynLoop_of_within (within_of_dynLoop h), if_neg (hlook i (by omega))] at h
      rw [show i + (m + 1) = i + 1 + m by omega] at hlook ⊢
      exact ih _ (i + 1) h hlook

end ElfFile

end Cbuild.Elf
