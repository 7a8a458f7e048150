import Cbuild.Elf.Encoded

/-! # Encodings are decoded

What the scan of an encoding of a well-formed image comes to, which is what the image says if its
string table is found and nothing otherwise.
-/

namespace Cbuild.Elf

open Lib.Struct

/-! ## The first bytes -/

theorem packHeader_cons (f : Field) (n : Nat) (sdef : Layout) (e : Endian) (vals : Header) :
    packHeader ((f, n) :: sdef) e vals = toBytes e n (vals f) ++ packHeader sdef e vals := rfl

theorem toBytes_one (e : Endian) (n : Nat) : toBytes e 1 n = [UInt8.ofNat n] := by
  cases e
  · rfl
  · rfl

theorem hdrElf_begins (w : WordSize) :
    ∃ sdef, hdrElf w = (.magic, 4) :: (.wordsize, 1) :: (.endian, 1) :: sdef := by
  cases w
  · exact ⟨_, rfl⟩
  · exact ⟨_, rfl⟩

variable {w : WordSize} {e : Endian} {img : Image} {mm : Bytes} {ehdr : Header}

/-- The scan finds the word size and the byte order. -/
theorem scanOne_of_header (h : Encodes w e img mm ehdr) : scanOne mm = scanElf w e mm := by
  obtain ⟨sdef, hsdef⟩ := hdrElf_begins w
  have hbytes := h.header.2
  unfold slice at hbytes
  rw [Nat.zero_add, List.drop_zero, Nat.sub_zero] at hbytes
  have hpack : packHeader (hdrElf w) e ehdr = elfMagic ++ UInt8.ofNat (wordsizeByte w) ::
      UInt8.ofNat (endianByte e) :: packHeader sdef e ehdr := by
    have hmagic : toBytes e 4 (ofBytes e elfMagic) = elfMagic := toBytes_ofBytes e elfMagic
    rw [hsdef, packHeader_cons, packHeader_cons, packHeader_cons, toBytes_one, toBytes_one, h.magic,
      h.wordsize, h.endian, hmagic]
    rfl
  have hmm : mm = elfMagic ++ UInt8.ofNat (wordsizeByte w) :: UInt8.ofNat (endianByte e) ::
      (packHeader sdef e ehdr ++ mm.drop (calcsize (hdrElf w))) := by
    have hsplit := List.take_append_drop (calcsize (hdrElf w)) mm
    rw [hbytes, hpack, List.append_assoc] at hsplit
    exact hsplit.symm
  generalize packHeader sdef e ehdr ++ mm.drop (calcsize (hdrElf w)) = rest at hmm
  rw [hmm]
  cases w
  · cases e
    · rfl
    · rfl
  · cases e
    · rfl
    · rfl

/-! ## The headers of the file -/

/-- The file with the header that is unpacked. -/
abbrev fileOf (w : WordSize) (e : Endian) (mm : Bytes) : ElfFile :=
  ⟨w, e, mm, headerAt (hdrElf w) e mm 0⟩

theorem ehdr_get (h : Encodes w e img mm ehdr) {f : Field}
    (hf : f ∈ [Field.magic, .wordsize, .endian, .type, .machine, .phoff, .shoff, .phentsize, .phnum,
      .shentsize, .shnum]) : (fileOf w e mm).ehdr f = ehdr f :=
  h.header.get (mem_hdrElf w f hf)

theorem shdrOffset_eq (h : Encodes w e img mm ehdr) (i : Nat) :
    (fileOf w e mm).shdrOffset i = ehdr .shoff + i * ehdr .shentsize := by
  unfold ElfFile.shdrOffset
  rw [ehdr_get h (by decide), ehdr_get h (by decide)]

theorem shdr_get (h : Encodes w e img mm ehdr) {i : Nat} {s : Section}
    (hs : img.sections[i]? = some s) {f : Field} (hf : f ∈ [Field.type, .addr, .offset]) :
    (fileOf w e mm).shdr i f = s.vals f := by
  have hat := h.sections i s hs
  rw [← shdrOffset_eq h] at hat
  exact hat.get (mem_hdrSect w f hf)

theorem shnum_eq (h : Encodes w e img mm ehdr) :
    (fileOf w e mm).ehdr .shnum = img.sections.length := by
  rw [ehdr_get h (by decide), h.shnum]

theorem shdrsWithin_of_encodes (h : Encodes w e img mm ehdr) : (fileOf w e mm).ShdrsWithin := by
  intro i hi _
  rw [shnum_eq h] at hi
  have hat := h.sections i _ (List.getElem?_eq_getElem hi)
  rw [← shdrOffset_eq h] at hat
  exact hat.within (calcsize_hdrSect w)

/-- The section of a header that is looked at. -/
theorem section_of_lt (h : Encodes w e img mm ehdr) {i : Nat}
    (hi : i < (fileOf w e mm).ehdr .shnum) :
    ∃ s, img.sections[i]? = some s ∧ (fileOf w e mm).shdr i .type = s.type ∧
      (fileOf w e mm).shdr i .addr = s.addr ∧ (fileOf w e mm).shdr i .offset = s.offset := by
  rw [shnum_eq h] at hi
  have hs : img.sections[i]? = some img.sections[i] := List.getElem?_eq_getElem hi
  exact ⟨_, hs, shdr_get h hs (by decide), shdr_get h hs (by decide), shdr_get h hs (by decide)⟩

theorem lt_shnum (h : Encodes w e img mm ehdr) {i : Nat} {s : Section}
    (hs : img.sections[i]? = some s) : i < (fileOf w e mm).ehdr .shnum := by
  rw [shnum_eq h]
  exact (List.getElem?_eq_some_iff.mp hs).1

/-- What is seen in the segments. -/
def segmentsOf (img : Image) : ProgState := seeAll ⟨none, false, true⟩ img.segments

theorem progLoop_of_encodes (hwf : img.Wellformed) (h : Encodes w e img mm ehdr) :
    progLoop w e mm ((fileOf w e mm).ehdr .phentsize) ((fileOf w e mm).ehdr .phnum)
      ((fileOf w e mm).ehdr .phoff) ⟨none, false, true⟩ = .ok (segmentsOf img) := by
  rw [ehdr_get h (by decide), ehdr_get h (by decide), ehdr_get h (by decide), h.phnum]
  exact progLoop_segments _ _ _ _ h.segments hwf.oneInterp hwf.oneStack

theorem segmentsOf_interp (img : Image) :
    (segmentsOf img).interp =
      if img.segments.any (fun g => g.type = PT_INTERP) then some true else none :=
  seeAll_interp img.segments _

theorem segmentsOf_interp_ne (img : Image) : (segmentsOf img).interp ≠ some false := by
  rw [segmentsOf_interp]
  split
  · exact fun heq => by cases heq
  · exact fun heq => by cases heq

theorem segmentsOf_execstack (hwf : img.Wellformed) :
    (segmentsOf img).execstack = img.scan.execstack :=
  seeAll_execstack img.segments _ hwf.oneStack

/-! ## The dynamic section -/

/-- There is one header of a dynamic section at most, and none without a dynamic section. -/
theorem dynamic_of_section (hwf : img.Wellformed) {d : Nat} {s : Section}
    (hs : img.sections[d]? = some s) (htype : s.type = SHT_DYNAMIC) :
    ∃ dyn, img.dynamic = some dyn := by
  have hmem : s ∈ img.sections.filter fun s => s.type = SHT_DYNAMIC :=
    List.mem_filter.mpr ⟨List.mem_of_getElem? hs, decide_eq_true htype⟩
  have hpos := List.length_pos_of_mem hmem
  rw [hwf.oneDynamic] at hpos
  cases hdyn : img.dynamic with
  | none =>
      rw [hdyn] at hpos
      exact absurd hpos (by decide)
  | some dyn => exact ⟨dyn, rfl⟩

theorem section_of_dynamic (hwf : img.Wellformed) {dyn : Dynamic} (hdyn : img.dynamic = some dyn) :
    ∃ (d : Nat) (s : Section), img.sections[d]? = some s ∧ s.type = SHT_DYNAMIC := by
  have hone := hwf.oneDynamic
  rw [hdyn] at hone
  have hpos : 0 < (img.sections.filter fun s => s.type = SHT_DYNAMIC).length := by
    rw [hone]
    exact Nat.one_pos
  obtain ⟨s, hs⟩ := List.exists_mem_of_length_pos hpos
  obtain ⟨hmem, htype⟩ := List.mem_filter.mp hs
  obtain ⟨d, hd⟩ := List.getElem?_of_mem hmem
  exact ⟨d, s, hd, of_decide_eq_true htype⟩

theorem Entry.tag_ne_zero {dyn : Dynamic} (hwf : dyn.Wellformed) {entry : Entry}
    (hmem : entry ∈ dyn.entries) : entry.tag ≠ 0 := by
  cases entry with
  | other tag v => exact tag_ne_of_known (hwf.others tag v hmem) (by decide)
  | _ => simp only [Entry.tag]; decide

/-- The entry is read from the file. -/
theorem entryRead_of_entryAt {dyn : Dynamic} (hwf : dyn.Wellformed) (hsize : mm.length < 2 ^ 63)
    {entry : Entry} (hmem : entry ∈ dyn.entries) {strOffset val : Nat}
    (h : EntryAt mm dyn.strAddr strOffset val entry) :
    EntryRead (readName strOffset mm) dyn.strAddr val entry := by
  cases entry with
  | needed name => exact ⟨h.1, readName_of_nameAt hsize (hwf.names _ hmem name rfl) h.2⟩
  | soname name => exact ⟨h.1, readName_of_nameAt hsize (hwf.names _ hmem name rfl) h.2⟩
  | other tag v => exact hwf.others tag v hmem
  | strtab => exact h
  | textrel => exact trivial
  | flags v => exact h
  | flags1 v => exact h

/-- The entries of the dynamic section are where they are looked for. -/
structure EntriesAt (f : ElfFile) (d : Nat) (dyn : Dynamic) (strOffset : Nat) : Prop where
  entry : ∀ i entry, dyn.entries[i]? = some entry →
    Within (dynEntry f.w) f.mm (f.dynOffset d i) ∧ f.dyn d i .tag = entry.tag ∧
      EntryRead (readName strOffset f.mm) dyn.strAddr (f.dyn d i .val) entry
  sentinel : Within (dynEntry f.w) f.mm (f.dynOffset d dyn.entries.length) ∧
    f.dyn d dyn.entries.length .tag = 0

theorem entriesAt_of_encodes (hwf : img.Wellformed) (h : Encodes w e img mm ehdr) {dyn : Dynamic}
    (hdyn : img.dynamic = some dyn) {d : Nat} {s t : Section} (hs : img.sections[d]? = some s)
    (htype : s.type = SHT_DYNAMIC) (ht : t ∈ img.sections) (hstrtab : Image.IsStrtab dyn t) :
    EntriesAt (fileOf w e mm) d dyn t.offset := by
  obtain ⟨hentries, val, hend⟩ :=
    h.dynamic dyn hdyn s (List.mem_of_getElem? hs) htype t ht hstrtab
  have hoffset : ∀ i, (fileOf w e mm).dynOffset d i = s.offset + i * calcsize (dynEntry w) := by
    intro i
    unfold ElfFile.dynOffset
    rw [shdr_get h hs (by decide)]
    rfl
  constructor
  case entry =>
    intro i entry hi
    obtain ⟨val, hval, hat⟩ := hentries i entry hi
    rw [← hoffset] at hat
    have hget : (fileOf w e mm).dyn d i .val = val := hat.get (mem_dynEntry w _ (by decide))
    rw [hget]
    exact ⟨hat.within (calcsize_dynEntry w), hat.get (mem_dynEntry w _ (by decide)),
      entryRead_of_entryAt (hwf.dynamic dyn hdyn) h.size (List.mem_of_getElem? hi) hval⟩
  case sentinel =>
    rw [← hoffset] at hend
    exact ⟨hend.within (calcsize_dynEntry w), hend.get (mem_dynEntry w _ (by decide))⟩

namespace EntriesAt

variable {f : ElfFile} {d strOffset : Nat} {dyn : Dynamic}

theorem isSentinel (h : EntriesAt f d dyn strOffset) (hwf : dyn.Wellformed) :
    f.IsSentinel d dyn.entries.length := by
  refine ⟨h.sentinel.2, fun i hi => ?_⟩
  have hentry : dyn.entries[i]? = some dyn.entries[i] := List.getElem?_eq_getElem hi
  rw [(h.entry i _ hentry).2.1]
  exact Entry.tag_ne_zero hwf (List.mem_of_getElem? hentry)

theorem dynsWithin (h : EntriesAt f d dyn strOffset) : f.DynsWithin d := by
  intro i hlook
  rcases Nat.lt_trichotomy i dyn.entries.length with hlt | heq | hgt
  · exact (h.entry i _ (List.getElem?_eq_getElem hlt)).1
  · rw [heq]
    exact h.sentinel.1
  · exact absurd h.sentinel.2 (hlook _ hgt)

theorem take_says (h : EntriesAt f d dyn strOffset) {interp : Option Bool} (hinterp : interp ≠ some false)
    (n : Nat) (hn : n ≤ dyn.entries.length) :
    Says (readName strOffset f.mm) dyn.strAddr interp (f.dynTo d (ElfFile.start interp) n)
      (dyn.entries.take n) := by
  induction n with
  | zero => exact Says.start hinterp
  | succ n ih =>
      have hentry : dyn.entries[n]? = some dyn.entries[n] := List.getElem?_eq_getElem hn
      rw [ElfFile.dynTo_succ, List.take_add_one, hentry]
      obtain ⟨_, htag, hread⟩ := h.entry n _ hentry
      exact (ih (Nat.le_of_succ_le hn)).see htag rfl hread

/-- The loop over the dynamic section comes to what its entries say. -/
theorem dynLoop (h : EntriesAt f d dyn strOffset) (hwf : dyn.Wellformed) {interp : Option Bool}
    (hinterp : interp ≠ some false) :
    ∃ s, Elf.dynLoop f.w f.e f.mm (f.shdr d .offset) (ElfFile.start interp) = .ok s ∧
      Says (readName strOffset f.mm) dyn.strAddr interp s dyn.entries := by
  obtain ⟨n, hn, hloop⟩ := ElfFile.dynLoop_start h.dynsWithin interp
  obtain rfl := hn.unique (h.isSentinel hwf)
  have hsays := h.take_says hinterp dyn.entries.length (Nat.le_refl _)
  rw [List.take_length] at hsays
  exact ⟨_, hloop, hsays⟩

end EntriesAt

/-! ## Names -/

section Names

variable {dyn : Dynamic} {read : Nat → Except Exc String} {interp : Option Bool} {s : DynState}

theorem getLast?_ne_none {α : Type} {l : List α} (h : l ≠ []) : l.getLast? ≠ none := by
  intro heq
  exact h (List.getLast?_eq_none_iff.mp heq)

theorem hasNames_iff (dyn : Dynamic) :
    dyn.HasNames ↔ dyn.entries.filterMap Entry.needed? ≠ [] ∨
      dyn.entries.filterMap Entry.soname? ≠ [] := by
  have hne : ∀ g : Entry → Option String, dyn.entries.filterMap g ≠ [] ↔
      ∃ entry ∈ dyn.entries, (g entry).isSome = true := by
    intro g
    rw [Ne, List.filterMap_eq_nil_iff]
    constructor
    · intro h
      by_contra hnot
      apply h
      intro entry hentry
      rw [← Option.not_isSome_iff_eq_none]
      exact fun hsome => hnot ⟨entry, hentry, hsome⟩
    · intro h hnone
      obtain ⟨entry, hentry, hsome⟩ := h
      rw [hnone entry hentry] at hsome
      cases hsome
  rw [hne, hne, ← exists_or]
  apply exists_congr
  intro entry
  rw [← and_or_left]
  apply and_congr_right
  intro _
  cases entry <;> simp [Entry.name?, Entry.needed?, Entry.soname?]

/-- The address is taken for none if it is 0 and there are names. -/
theorem noTable_iff_address (h : Says read dyn.strAddr interp s dyn.entries)
    (hmem : .strtab ∈ dyn.entries) : NoTable s ↔ dyn.strAddr = 0 ∧ dyn.HasNames := by
  have hsoname : (s.soname ≠ none ∧ s.soname ≠ some 0) ↔
      dyn.entries.filterMap Entry.soname? ≠ [] := by
    have hname := h.soname
    by_cases hnil : dyn.entries.filterMap Entry.soname? = []
    · rw [hnil] at hname
      exact iff_of_false (fun hne => hne.1 hname) (not_not.mpr hnil)
    · obtain ⟨name, hlast⟩ := Option.ne_none_iff_exists'.mp (getLast?_ne_none hnil)
      rw [hlast] at hname
      obtain ⟨val, hne, hval, _⟩ := hname
      rw [hval]
      exact iff_of_true ⟨Option.some_ne_none val, fun heq => hne (Option.some.inj heq)⟩ hnil
  have hstrtab : (s.strtab = none ∨ s.strtab = some 0) ↔ dyn.strAddr = 0 := by
    rw [h.strtab hmem]
    constructor
    · intro hor
      rcases hor with hnone | hzero
      · cases hnone
      · exact Option.some.inj hzero
    · intro hzero
      exact Or.inr (congrArg some hzero)
  unfold NoTable
  rw [hstrtab, hsoname, h.count, hasNames_iff, List.length_pos_iff]

/-- The names are read if the string table is found. -/
theorem readNames_of_find {strAddr : Nat} {strtabs : List Header} {st : Header}
    {entries : List Entry} (h : Says (readName (st .offset) mm) strAddr interp s entries)
    (hmem : .strtab ∈ entries) (hno : ¬ NoTable s)
    (hfind : (strtabs.find? fun st => decide (some strAddr = some (st .addr))) = some st) :
    readNames mm strtabs s = .ok (some (entries.filterMap Entry.needed?,
      ((entries.filterMap Entry.soname?).getLast?).filter fun name => name ≠ "")) := by
  have hfind : (strtabs.find? fun st => decide (s.strtab = some (st .addr))) = some st := by
    rw [h.strtab hmem]
    exact hfind
  unfold NoTable at hno
  unfold readNames
  rw [if_neg hno, hfind]
  dsimp only
  rw [h.needed]
  have hname := h.soname
  cases hlast : (entries.filterMap Entry.soname?).getLast? with
  | none =>
      rw [hlast] at hname
      rw [hname]
      rfl
  | some name =>
      rw [hlast] at hname
      obtain ⟨val, hne, hval, hread⟩ := hname
      obtain ⟨offset, rfl⟩ := Nat.exists_eq_succ_of_ne_zero hne
      rw [hval]
      show (readName (st .offset) mm (offset + 1) >>= fun soname =>
        pure (some (entries.filterMap Entry.needed?,
          if soname.length = 0 then none else some soname))) = _
      rw [hread]
      show Except.ok (some (entries.filterMap Entry.needed?,
        if name.length = 0 then none else some name)) = _
      by_cases hempty : name = ""
      · rw [hempty]
        rfl
      · have hlen : name.length ≠ 0 := fun hzero => hempty (String.length_eq_zero_iff.mp hzero)
        rw [if_neg hlen, Option.filter_some, if_pos (decide_eq_true hempty)]

theorem readNames_of_not_find {strAddr : Nat} {strtabs : List Header} {entries : List Entry}
    (h : Says read strAddr interp s entries) (hmem : .strtab ∈ entries)
    (hno : NoTable s ∨
      (strtabs.find? fun st => decide (some strAddr = some (st .addr))) = none) :
    readNames mm strtabs s = .ok none := by
  unfold readNames
  rcases hno with hno | hfind
  · exact if_pos hno
  · rw [h.strtab hmem, hfind]
    exact ite_self _

end Names

/-! ## The scan -/

/-- The scan finds the string table, if there is to be one. -/
def Image.Found (img : Image) : Prop := img.StrtabFirst ∧ img.StrtabPlaced

/-- What passes the check once only is at one place. -/
theorem index_unique {α : Type} {p : α → Bool} {l : List α} (h : (l.filter p).length ≤ 1) {i j : Nat}
    {a b : α} (hi : l[i]? = some a) (ha : p a = true) (hj : l[j]? = some b) (hb : p b = true) :
    i = j := by
  induction l generalizing i j with
  | nil => cases hi
  | cons x l ih =>
      have htail : p x = true → ∀ (k : Nat) (c : α), l[k]? = some c → p c = true → False := by
        intro hx k c hk hc
        have hmem : c ∈ l.filter p := List.mem_filter.mpr ⟨List.mem_of_getElem? hk, hc⟩
        have hpos := List.length_pos_of_mem hmem
        rw [List.filter_cons_of_pos hx, List.length_cons] at h
        omega
      cases i with
      | zero =>
          cases hi
          cases j with
          | zero => rfl
          | succ j => exact (htail ha j b hj hb).elim
      | succ i =>
          cases j with
          | zero =>
              cases hj
              exact (htail hb i a hi ha).elim
          | succ j =>
              have hle : (l.filter p).length ≤ 1 :=
                ((List.sublist_cons_self x l).filter p).length_le.trans h
              exact congrArg (· + 1) (ih hle hi hj)

theorem oneDynamic_le (hwf : img.Wellformed) :
    (img.sections.filter fun s => s.type = SHT_DYNAMIC).length ≤ 1 := by
  rw [hwf.oneDynamic]
  split
  · exact Nat.le_refl 1
  · exact Nat.zero_le 1

/-- The header at which the loop over the section headers ends is that of the dynamic section. -/
theorem isDynamic_iff (hwf : img.Wellformed) (h : Encodes w e img mm ehdr) {d : Nat} :
    (fileOf w e mm).IsDynamic d ↔
      ∃ s, img.sections[d]? = some s ∧ s.type = SHT_DYNAMIC := by
  constructor
  · intro hd
    obtain ⟨s, hs, htype, _⟩ := section_of_lt h hd.1
    exact ⟨s, hs, htype.symm.trans hd.2.1⟩
  · intro hd
    obtain ⟨s, hs, htype⟩ := hd
    refine ⟨lt_shnum h hs, (shdr_get h hs (by decide)).trans htype, fun j hj hdyn => ?_⟩
    obtain ⟨s', hs', htype', _⟩ := section_of_lt h (Nat.lt_trans hj (lt_shnum h hs))
    have heq := index_unique (oneDynamic_le hwf) hs' (decide_eq_true (htype'.symm.trans hdyn)) hs
      (decide_eq_true htype)
    omega

/-- The string table is found if its header comes first. -/
theorem find_strtab_iff (hwf : img.Wellformed) (h : Encodes w e img mm ehdr) {dyn : Dynamic}
    (hdyn : img.dynamic = some dyn) {d : Nat} (hd : (fileOf w e mm).IsDynamic d) :
    (∃ st, (((fileOf w e mm).strtabsTo d).find? fun st =>
      decide (some dyn.strAddr = some (st .addr))) = some st) ↔ img.StrtabFirst := by
  have htable : ∀ t s, t < d → img.sections[t]? = some s →
      ((fileOf w e mm).shdr t .type = SHT_STRTAB ∧ (fileOf w e mm).shdr t .addr = dyn.strAddr ↔
        Image.IsStrtab dyn s) := by
    intro t s _ hs
    rw [shdr_get h hs (by decide), shdr_get h hs (by decide)]
    exact Iff.rfl
  constructor
  · intro hfind dyn' hdyn'
    obtain rfl := Option.some.inj (hdyn.symm.trans hdyn')
    obtain ⟨st, hst⟩ := hfind
    obtain ⟨t, ⟨hlt, htype, haddr, _⟩, _⟩ := ((fileOf w e mm).find_strtabsTo d _ st).mp hst
    obtain ⟨s', hs', hdtype⟩ := (isDynamic_iff hwf h).mp hd
    obtain ⟨s, hs, _⟩ := section_of_lt h (Nat.lt_trans hlt hd.1)
    exact ⟨t, d, s, s', hlt, hs, (htable t s hlt hs).mp ⟨htype, haddr⟩, hs', hdtype⟩
  · intro hfirst
    obtain ⟨t, d', s, s', hlt, hs, hstrtab, hs', hdtype⟩ := hfirst dyn hdyn
    have heq : d' = d := ((isDynamic_iff hwf h).mpr ⟨s', hs', hdtype⟩).unique hd
    rw [heq] at hlt
    obtain ⟨htype, haddr⟩ := (htable t s hlt hs).mpr hstrtab
    cases hfind : ((fileOf w e mm).strtabsTo d).find? fun st =>
        decide (some dyn.strAddr = some (st .addr)) with
    | some st => exact ⟨st, rfl⟩
    | none =>
        have hmem : (fileOf w e mm).shdr t ∈ (fileOf w e mm).strtabsTo d := by
          unfold ElfFile.strtabsTo
          exact List.mem_map.mpr ⟨t, List.mem_filter.mpr
            ⟨List.mem_range.mpr hlt, decide_eq_true htype⟩, rfl⟩
        exact absurd (decide_eq_true (congrArg some haddr.symm))
          (List.find?_eq_none.mp hfind _ hmem)

/-- The string table that is found is the one of the image. -/
theorem offset_of_find (hwf : img.Wellformed) (h : Encodes w e img mm ehdr) {dyn : Dynamic}
    (hdyn : img.dynamic = some dyn) {d : Nat} (hd : (fileOf w e mm).IsDynamic d) {st : Header}
    (hst : (((fileOf w e mm).strtabsTo d).find? fun st =>
      decide (some dyn.strAddr = some (st .addr))) = some st)
    {t : Section} (ht : t ∈ img.sections) (hstrtab : Image.IsStrtab dyn t) :
    st .offset = t.offset := by
  obtain ⟨i, ⟨hlt, htype, haddr, _⟩, rfl⟩ := ((fileOf w e mm).find_strtabsTo d _ st).mp hst
  obtain ⟨s, hs, hstype, hsaddr, hsoffset⟩ := section_of_lt h (Nat.lt_trans hlt hd.1)
  have hs' : Image.IsStrtab dyn s := ⟨hstype.symm.trans htype, hsaddr.symm.trans haddr⟩
  rw [hsoffset]
  exact (hwf.strtab dyn hdyn).2 s (List.mem_of_getElem? hs) t ht hs' hstrtab

theorem scanElf_of_encodes (h : Encodes w e img mm ehdr) :
    scanElf w e mm = scanHeaders w e mm (fileOf w e mm).ehdr img.etype := by
  have htype : headerAt (hdrElf w) e mm 0 .type = ehdr .type := ehdr_get (f := .type) h (by decide)
  unfold scanElf
  rw [unpack_bind (h.header.within (calcsize_hdrElf w)), htype, h.type]

theorem machine_eq (h : Encodes w e img mm ehdr) :
    (fileOf w e mm).ehdr .machine = img.machine := by
  rw [ehdr_get h (by decide), h.machine]

theorem scanHeaders_static (hwf : img.Wellformed) (h : Encodes w e img mm ehdr)
    (hdyn : img.dynamic = none) :
    scanHeaders w e mm (fileOf w e mm).ehdr img.etype = .ok (some img.scan) := by
  have hnone : ∀ d, ¬ (fileOf w e mm).IsDynamic d := by
    intro d hd
    obtain ⟨s, hs, htype⟩ := (isDynamic_iff hwf h).mp hd
    obtain ⟨dyn, hdyn'⟩ := dynamic_of_section hwf hs htype
    rw [hdyn] at hdyn'
    cases hdyn'
  have hsects := (ElfFile.sectLoop_start (shdrsWithin_of_encodes h)).resolve_left
    fun hex => hex.elim fun d hd => hnone d hd.1
  unfold scanHeaders
  rw [progLoop_of_encodes hwf h]
  show (sectLoop w e mm _ _ _ [] >>= _) = _
  rw [hsects.2]
  show Except.ok (some (Scan.mk ((fileOf w e mm).ehdr .machine) img.etype true
    (segmentsOf img).interp false (segmentsOf img).execstack [] none)) = _
  rw [machine_eq h, segmentsOf_interp, segmentsOf_execstack hwf]
  have hentries : img.entries = [] := by
    unfold Image.entries
    rw [hdyn]
  unfold Image.scan
  rw [hentries, hdyn]
  rfl

/-- The scan of an image with a dynamic section, up to the names. -/
theorem scanHeaders_dynamic (hwf : img.Wellformed) (h : Encodes w e img mm ehdr) {dyn : Dynamic}
    (hdyn : img.dynamic = some dyn) :
    ∃ d s, (fileOf w e mm).IsDynamic d ∧
      (∀ t ∈ img.sections, Image.IsStrtab dyn t →
        Says (readName t.offset mm) dyn.strAddr (segmentsOf img).interp s dyn.entries) ∧
      scanHeaders w e mm (fileOf w e mm).ehdr img.etype =
        (readNames mm ((fileOf w e mm).strtabsTo d) s >>= fun names => match names with
          | none => pure none
          | some (needed, soname) => pure (some ⟨(fileOf w e mm).ehdr .machine, img.etype, false,
              s.interp, s.textrel, (segmentsOf img).execstack, needed, soname⟩)) := by
  obtain ⟨d, sd, hsd, hdtype⟩ := section_of_dynamic hwf hdyn
  have hd := (isDynamic_iff hwf h).mpr ⟨sd, hsd, hdtype⟩
  obtain ⟨t, ht, hstrtab⟩ := (hwf.strtab dyn hdyn).1
  have hdynwf := hwf.dynamic dyn hdyn
  have hinterp := segmentsOf_interp_ne img
  obtain ⟨s, hloop, _⟩ :=
    (entriesAt_of_encodes hwf h hdyn hsd hdtype ht hstrtab).dynLoop hdynwf hinterp
  refine ⟨d, s, hd, fun t ht hstrtab => ?_, ?_⟩
  · obtain ⟨s', hloop', hsays⟩ :=
      (entriesAt_of_encodes hwf h hdyn hsd hdtype ht hstrtab).dynLoop hdynwf hinterp
    rw [hloop] at hloop'
    cases hloop'
    exact hsays
  · have hsects := ElfFile.sectLoop_start (shdrsWithin_of_encodes h)
    rcases hsects with ⟨d', hd', hsects⟩ | ⟨hnone, _⟩
    · obtain rfl := hd.unique hd'
      unfold scanHeaders
      rw [progLoop_of_encodes hwf h]
      show (sectLoop w e mm _ _ _ [] >>= _) = _
      rw [hsects]
      show (Elf.dynLoop w e mm ((fileOf w e mm).shdr d .offset) (ElfFile.start _) >>= _) = _
      rw [hloop]
      rfl
    · exact absurd hd (hnone d)

/-- An encoding of an image is scanned as the image says if its string table is found. -/
theorem scanOne_of_found (hwf : img.Wellformed) (h : Encodes w e img mm ehdr) (hfound : img.Found) :
    scanOne mm = .ok (some img.scan) := by
  rw [scanOne_of_header h, scanElf_of_encodes h]
  cases hdyn : img.dynamic with
  | none => exact scanHeaders_static hwf h hdyn
  | some dyn =>
      obtain ⟨d, s, hd, hsays, hscan⟩ := scanHeaders_dynamic hwf h hdyn
      obtain ⟨t, ht, hstrtab⟩ := (hwf.strtab dyn hdyn).1
      obtain ⟨st, hst⟩ := (find_strtab_iff hwf h hdyn hd).mpr hfound.1
      have hmem := (hwf.dynamic dyn hdyn).strtab
      have hsays := hsays t ht hstrtab
      have hno : ¬ NoTable s := by
        rw [noTable_iff_address hsays hmem]
        exact fun hzero => hfound.2 dyn hdyn hzero.1 hzero.2
      rw [← offset_of_find hwf h hdyn hd hst ht hstrtab] at hsays
      rw [hscan, readNames_of_find hsays hmem hno hst]
      have hentries : img.entries = dyn.entries := by
        unfold Image.entries
        rw [hdyn]
      show Except.ok (some (Scan.mk ((fileOf w e mm).ehdr .machine) img.etype false s.interp
        s.textrel (segmentsOf img).execstack _ _)) = _
      rw [machine_eq h, segmentsOf_execstack hwf, hsays.textrel, hsays.interp, segmentsOf_interp]
      unfold Image.scan
      rw [hentries, hdyn]
      cases img.segments.any fun g => g.type = PT_INTERP
      · rfl
      · rfl

/-- Without its string table it is taken for no ELF file. -/
theorem scanOne_of_not_found (hwf : img.Wellformed) (h : Encodes w e img mm ehdr)
    (hfound : ¬ img.Found) : scanOne mm = .ok none := by
  rw [scanOne_of_header h, scanElf_of_encodes h]
  cases hdyn : img.dynamic with
  | none =>
      have hno : ∀ dyn, img.dynamic ≠ some dyn := by
        intro dyn
        rw [hdyn]
        exact (Option.some_ne_none dyn).symm
      exact absurd ⟨fun dyn hdyn' => absurd hdyn' (hno dyn), fun dyn hdyn' => absurd hdyn' (hno dyn)⟩
        hfound
  | some dyn =>
      obtain ⟨d, s, hd, hsays, hscan⟩ := scanHeaders_dynamic hwf h hdyn
      obtain ⟨t, ht, hstrtab⟩ := (hwf.strtab dyn hdyn).1
      have hmem := (hwf.dynamic dyn hdyn).strtab
      have hsays := hsays t ht hstrtab
      have hor : NoTable s ∨ (((fileOf w e mm).strtabsTo d).find? fun st =>
          decide (some dyn.strAddr = some (st .addr))) = none := by
        by_contra hnot
        obtain ⟨hno, hfind⟩ := not_or.mp hnot
        rw [noTable_iff_address hsays hmem] at hno
        apply hfound
        constructor
        · rw [← find_strtab_iff hwf h hdyn hd]
          exact Option.ne_none_iff_exists'.mp hfind
        · intro dyn' hdyn' hzero hnames
          obtain rfl := Option.some.inj (hdyn.symm.trans hdyn')
          exact hno ⟨hzero, hnames⟩
      rw [hscan, readNames_of_not_find hsays hmem hor]
      rfl

end Cbuild.Elf
