import Cbuild.Elf.Image

/-! # The scan of an encoding

The scan of a file that is an encoding of a well-formed image comes to what the image says, unless
the dynamic string table is not found; the encoding does not matter.
-/

namespace Cbuild.Elf

open Lib.Struct

variable {w : WordSize} {e : Endian} {mm : Bytes} {offset : Nat} {sdef : Layout}

/-! ## Headers -/

theorem HeaderAt.within {vals : Header} (h : HeaderAt sdef e mm offset vals)
    (hsize : 0 < calcsize sdef) : Within sdef mm offset := by
  have hlen := congrArg List.length h.2
  rw [length_slice, length_packHeader] at hlen
  unfold Within
  omega

theorem HeaderAt.get {vals : Header} (h : HeaderAt sdef e mm offset vals) {f : Field}
    (hf : f ∈ sdef.map Prod.fst) : headerAt sdef e mm offset f = vals f := by
  unfold headerAt
  rw [h.2]
  exact fields_packHeader h.1 hf

theorem type_mem_hdrProg (w : WordSize) : .type ∈ (hdrProg w).map Prod.fst := by
  cases w <;> decide

theorem flags_mem_hdrProg (w : WordSize) : .flags ∈ (hdrProg w).map Prod.fst := by
  cases w <;> decide

theorem mem_hdrSect (w : WordSize) :
    ∀ f ∈ [Field.type, .addr, .offset], f ∈ (hdrSect w).map Prod.fst := by
  cases w <;> decide

theorem mem_hdrElf (w : WordSize) :
    ∀ f ∈ [Field.magic, .wordsize, .endian, .type, .machine, .phoff, .shoff, .phentsize, .phnum,
      .shentsize, .shnum], f ∈ (hdrElf w).map Prod.fst := by
  cases w <;> decide

theorem mem_dynEntry (w : WordSize) :
    ∀ f ∈ [Field.tag, .val], f ∈ (dynEntry w).map Prod.fst := by
  cases w <;> decide

/-! ## Names -/

theorem decode_nameBytes (name : String) : decode (nameBytes name) = .ok name := by
  have hbytes : (⟨(nameBytes name).toArray⟩ : ByteArray) = name.toByteArray := by
    unfold nameBytes
    rw [Array.toArray_toList]
  unfold decode
  rw [hbytes]
  unfold String.fromUTF8?
  rw [dif_pos name.isValidUTF8]
  rfl

/-- A name that is in the file is read. -/
theorem readName_of_nameAt {strtab val : Nat} {name : String} (hsize : mm.length < 2 ^ 63)
    (hnul : 0 ∉ nameBytes name) (h : NameAt mm (strtab + val) name) :
    readName strtab mm val = .ok name := by
  obtain ⟨rest, hdrop⟩ := h
  have hpos : strtab + val < 2 ^ 63 := by
    have hlen := congrArg List.length hdrop
    rw [List.length_drop, List.length_append, List.length_cons] at hlen
    omega
  have htake : (mm.drop (strtab + val)).takeWhile (fun b => decide (b ≠ 0)) = nameBytes name := by
    rw [hdrop, List.takeWhile_append_of_pos]
    · rw [List.takeWhile_cons_of_neg (by simp), List.append_nil]
    · intro b hb
      exact decide_eq_true fun hzero => hnul (hzero ▸ hb)
  unfold readName
  rw [getNullstr_eq, if_neg (not_le.mpr hpos), htake]
  exact decode_nameBytes name

/-! ## Segments -/

def seeAll (s : ProgState) (segs : List Segment) : ProgState :=
  segs.foldl (fun s g => s.see g.vals) s

theorem see_type (s : ProgState) (seg : Segment) :
    (seg.type = PT_INTERP ∧ s.see seg.vals = { s with interp := some true }) ∨
      (seg.type = PT_GNU_STACK ∧
        s.see seg.vals = { s with execstack := hasBits seg.flags 1, stack := true }) ∨
      (seg.type ≠ PT_INTERP ∧ seg.type ≠ PT_GNU_STACK ∧ s.see seg.vals = s) := by
  by_cases hinterp : seg.type = PT_INTERP
  · exact Or.inl ⟨hinterp, if_pos hinterp⟩
  · by_cases hstack : seg.type = PT_GNU_STACK
    · exact Or.inr (Or.inl ⟨hstack, (if_neg hinterp).trans (if_pos hstack)⟩)
    · exact Or.inr (Or.inr ⟨hinterp, hstack, (if_neg hinterp).trans (if_neg hstack)⟩)

/-- No other header of a type comes after one has been met. -/
def AtMostOne (met : Bool) (type : Nat) (segs : List Segment) : Prop :=
  (segs.filter fun g => g.type = type).length + met.toNat ≤ 1

theorem AtMostOne.not_mem {type : Nat} {segs : List Segment} (h : AtMostOne true type segs) :
    ∀ g ∈ segs, g.type ≠ type := by
  intro g hg htype
  have hmem : g ∈ segs.filter fun g => g.type = type :=
    List.mem_filter.mpr ⟨hg, decide_eq_true htype⟩
  have hpos := List.length_pos_of_mem hmem
  unfold AtMostOne at h
  rw [Bool.toNat_true] at h
  omega

theorem AtMostOne.tail {met : Bool} {type : Nat} {seg : Segment} {segs : List Segment}
    (h : AtMostOne met type (seg :: segs)) :
    AtMostOne (met || decide (seg.type = type)) type segs := by
  unfold AtMostOne at h ⊢
  rw [List.filter_cons] at h
  by_cases htype : seg.type = type
  · rw [if_pos (decide_eq_true htype), List.length_cons] at h
    rw [decide_eq_true htype, Bool.or_true, Bool.toNat_true]
    omega
  · rw [if_neg (fun hd => htype (of_decide_eq_true hd))] at h
    rw [decide_eq_false htype, Bool.or_false]
    exact h

/-- Nothing is seen any more. -/
theorem seeAll_of_none {segs : List Segment} (s : ProgState)
    (hinterp : ∀ g ∈ segs, g.type ≠ PT_INTERP) (hstack : ∀ g ∈ segs, g.type ≠ PT_GNU_STACK) :
    seeAll s segs = s := by
  induction segs with
  | nil => rfl
  | cons seg segs ih =>
      rw [List.forall_mem_cons] at hinterp hstack
      have hsee : s.see seg.vals = s := (if_neg hinterp.1).trans (if_neg hstack.1)
      show seeAll (s.see seg.vals) segs = s
      rw [hsee]
      exact ih hinterp.2 hstack.2

theorem see_congr (s : ProgState) {phdr phdr' : Header} (htype : phdr .type = phdr' .type)
    (hflags : phdr .flags = phdr' .flags) : s.see phdr = s.see phdr' := by
  unfold ProgState.see
  rw [htype, hflags]

theorem met_interp (s : ProgState) (seg : Segment) :
    decide ((s.see seg.vals).interp = some true) =
      (decide (s.interp = some true) || decide (seg.type = PT_INTERP)) := by
  have hsee := ProgState.see_interp s seg.vals
  rw [← Bool.decide_or, decide_eq_decide]
  exact hsee

theorem met_stack (s : ProgState) (seg : Segment) :
    (s.see seg.vals).stack = (s.stack || decide (seg.type = PT_GNU_STACK)) := by
  have hsee := ProgState.see_stack s seg.vals
  rw [Bool.eq_iff_iff, Bool.or_eq_true, decide_eq_true_eq]
  exact hsee

/-- Leaving the loop early makes no difference. -/
theorem progLoop_segments (phents : Nat) (segs : List Segment) (phoff : Nat) (s : ProgState)
    (hsegs : ∀ i g, segs[i]? = some g → HeaderAt (hdrProg w) e mm (phoff + i * phents) g.vals)
    (hinterp : AtMostOne (decide (s.interp = some true)) PT_INTERP segs)
    (hstack : AtMostOne s.stack PT_GNU_STACK segs) :
    progLoop w e mm phents segs.length phoff s = .ok (seeAll s segs) := by
  induction segs generalizing phoff s with
  | nil => rfl
  | cons seg segs ih =>
      have hseg := hsegs 0 seg rfl
      rw [Nat.zero_mul, Nat.add_zero] at hseg
      have hsee : s.see (headerAt (hdrProg w) e mm phoff) = s.see seg.vals :=
        see_congr s (hseg.get (type_mem_hdrProg w)) (hseg.get (flags_mem_hdrProg w))
      have hinterp' : AtMostOne (decide ((s.see seg.vals).interp = some true)) PT_INTERP segs := by
        rw [met_interp]
        exact hinterp.tail
      have hstack' : AtMostOne (s.see seg.vals).stack PT_GNU_STACK segs := by
        rw [met_stack]
        exact hstack.tail
      rw [List.length_cons]
      unfold progLoop
      rw [unpack_bind (hseg.within (calcsize_hdrProg w)), hsee]
      show _ = Except.ok (seeAll (s.see seg.vals) segs)
      by_cases hseen : (s.see seg.vals).seen = true
      · rw [if_pos hseen]
        obtain ⟨hi, hs⟩ := (ProgState.seen_iff _).mp hseen
        rw [hi] at hinterp'
        rw [hs] at hstack'
        rw [seeAll_of_none _ hinterp'.not_mem hstack'.not_mem]
      · rw [if_neg hseen]
        apply ih _ _ _ hinterp' hstack'
        intro i g hg
        have hnext := hsegs (i + 1) g hg
        rw [Nat.succ_mul, show phoff + (i * phents + phents) = phoff + phents + i * phents by
          omega] at hnext
        exact hnext

theorem seeAll_interp (segs : List Segment) (s : ProgState) :
    (seeAll s segs).interp =
      if segs.any (fun g => g.type = PT_INTERP) then some true else s.interp := by
  induction segs generalizing s with
  | nil => rfl
  | cons seg segs ih =>
      show (seeAll (s.see seg.vals) segs).interp = _
      rw [ih, List.any_cons]
      rcases see_type s seg with ⟨htype, hsee⟩ | ⟨htype, hsee⟩ | ⟨htype, _, hsee⟩
      · rw [hsee, htype]
        simp
      · rw [hsee, htype]
        rfl
      · rw [hsee, decide_eq_false htype, Bool.false_or]

theorem seeAll_execstack (segs : List Segment) (s : ProgState)
    (hstack : AtMostOne s.stack PT_GNU_STACK segs) :
    (seeAll s segs).execstack =
      match segs.find? fun g => g.type = PT_GNU_STACK with
      | none => s.execstack
      | some g => hasBits g.flags 1 := by
  induction segs generalizing s with
  | nil => rfl
  | cons seg segs ih =>
      have hstack' : AtMostOne (s.see seg.vals).stack PT_GNU_STACK segs := by
        rw [met_stack]
        exact hstack.tail
      show (seeAll (s.see seg.vals) segs).execstack = _
      rw [ih _ hstack']
      by_cases htype : seg.type = PT_GNU_STACK
      · have hmet : (s.see seg.vals).stack = true := by
          rw [met_stack, decide_eq_true htype, Bool.or_true]
        rw [hmet] at hstack'
        have hnone : segs.find? (fun g => g.type = PT_GNU_STACK) = none := by
          rw [List.find?_eq_none]
          intro g hg hd
          exact hstack'.not_mem g hg (of_decide_eq_true hd)
        rw [hnone, List.find?_cons, decide_eq_true htype]
        rcases see_type s seg with ⟨h, _⟩ | ⟨_, hsee⟩ | ⟨_, h, _⟩
        · rw [htype] at h
          exact absurd h (by decide)
        · rw [hsee]
        · exact absurd htype h
      · rw [List.find?_cons, decide_eq_false htype]
        rcases see_type s seg with ⟨_, hsee⟩ | ⟨h, _⟩ | ⟨_, _, hsee⟩
        · rw [hsee]
        · exact absurd h htype
        · rw [hsee]

/-! ## Entries -/

/-- The state after entries of a dynamic section says what they say. -/
structure Says (read : Nat → Except Exc String) (strAddr : Nat) (interp : Option Bool)
    (s : DynState) (entries : List Entry) : Prop where
  needed : s.needed.mapM read = .ok (entries.filterMap Entry.needed?)
  count : s.needed.length = (entries.filterMap Entry.needed?).length
  soname : match (entries.filterMap Entry.soname?).getLast? with
    | none => s.soname = none
    | some name => ∃ val, val ≠ 0 ∧ s.soname = some val ∧ read val = .ok name
  strtab : .strtab ∈ entries → s.strtab = some strAddr
  textrel : s.textrel = entries.any Entry.hasTextrel
  interp : s.interp = if interp = some true then some true
    else if entries.any Entry.isPie then some false else none

theorem Says.start {read : Nat → Except Exc String} {strAddr : Nat} {interp : Option Bool}
    (h : interp ≠ some false) : Says read strAddr interp (ElfFile.start interp) [] where
  needed := rfl
  count := rfl
  soname := rfl
  strtab := fun h => by cases h
  textrel := rfl
  interp := by
    cases interp with
    | none => rfl
    | some b =>
        cases b
        · exact absurd rfl h
        · rfl

/-- The value of an entry, its name being read. -/
def EntryRead (read : Nat → Except Exc String) (strAddr val : Nat) : Entry → Prop
  | .needed name => val ≠ 0 ∧ read val = .ok name
  | .soname name => val ≠ 0 ∧ read val = .ok name
  | .strtab => val = strAddr
  | .textrel => True
  | .flags v => val = v
  | .flags1 v => val = v
  | .other tag _ => tag ∉ knownTags

theorem filterMap_concat {α β : Type} (g : α → Option β) (l : List α) (a : α) :
    (l ++ [a]).filterMap g = l.filterMap g ++ (g a).toList := by
  rw [List.filterMap_append]
  cases h : g a with
  | none => rw [List.filterMap_cons_none h, List.filterMap_nil, Option.toList_none]
  | some b => rw [List.filterMap_cons_some h, List.filterMap_nil, Option.toList_some]

theorem any_concat {α : Type} (g : α → Bool) (l : List α) (a : α) :
    (l ++ [a]).any g = (l.any g || g a) := by
  rw [List.any_append, List.any_cons, List.any_nil, Bool.or_false]

section Kinds

variable {read : Nat → Except Exc String} {strAddr val : Nat} {entry : Entry}

theorem tag_ne_of_known {tag t : Nat} (h : tag ∉ knownTags) (ht : t ∈ knownTags) : tag ≠ t := by
  intro heq
  exact h (heq ▸ ht)

theorem needed_or (h : EntryRead read strAddr val entry) :
    (∃ name, entry = .needed name) ∨ (entry.tag ≠ DT_NEEDED ∧ entry.needed? = none) := by
  cases entry with
  | needed name => exact Or.inl ⟨name, rfl⟩
  | other tag v => exact Or.inr ⟨tag_ne_of_known h (by decide), rfl⟩
  | _ => exact Or.inr ⟨by simp only [Entry.tag]; decide, rfl⟩

theorem soname_or (h : EntryRead read strAddr val entry) :
    (∃ name, entry = .soname name) ∨ (entry.tag ≠ DT_SONAME ∧ entry.soname? = none) := by
  cases entry with
  | soname name => exact Or.inl ⟨name, rfl⟩
  | other tag v => exact Or.inr ⟨tag_ne_of_known h (by decide), rfl⟩
  | _ => exact Or.inr ⟨by simp only [Entry.tag]; decide, rfl⟩

theorem strtab_or (h : EntryRead read strAddr val entry) :
    entry = .strtab ∨ (entry.tag ≠ DT_STRTAB ∧ entry ≠ .strtab) := by
  cases entry with
  | strtab => exact Or.inl rfl
  | other tag v => exact Or.inr ⟨tag_ne_of_known h (by decide), Entry.noConfusion⟩
  | _ => exact Or.inr ⟨by simp only [Entry.tag]; decide, Entry.noConfusion⟩

theorem textrel_or (h : EntryRead read strAddr val entry) :
    entry = .textrel ∨ (∃ v, entry = .flags v) ∨
      (entry.tag ≠ DT_TEXTREL ∧ entry.tag ≠ DT_FLAGS ∧ entry.hasTextrel = false) := by
  cases entry with
  | textrel => exact Or.inl rfl
  | flags v => exact Or.inr (Or.inl ⟨v, rfl⟩)
  | other tag v =>
      exact Or.inr (Or.inr ⟨tag_ne_of_known h (by decide), tag_ne_of_known h (by decide), rfl⟩)
  | _ =>
      exact Or.inr (Or.inr ⟨by simp only [Entry.tag]; decide, by simp only [Entry.tag]; decide, rfl⟩)

theorem pie_or (h : EntryRead read strAddr val entry) :
    (∃ v, entry = .flags1 v) ∨ (entry.tag ≠ DT_FLAGS_1 ∧ entry.isPie = false) := by
  cases entry with
  | flags1 v => exact Or.inl ⟨v, rfl⟩
  | other tag v => exact Or.inr ⟨tag_ne_of_known h (by decide), rfl⟩
  | _ => exact Or.inr ⟨by simp only [Entry.tag]; decide, rfl⟩

end Kinds

/-- One more entry. -/
theorem Says.see {read : Nat → Except Exc String} {strAddr val : Nat} {interp : Option Bool}
    {s : DynState} {entries : List Entry} {entry : Entry} {dynent : Header}
    (h : Says read strAddr interp s entries) (htag : dynent .tag = entry.tag)
    (hval : dynent .val = val) (hentry : EntryRead read strAddr val entry) :
    Says read strAddr interp (s.see dynent) (entries ++ [entry]) := by
  constructor
  case needed =>
    rw [DynState.see_needed, htag, hval, filterMap_concat]
    rcases needed_or hentry with ⟨name, rfl⟩ | ⟨hne, hnone⟩
    · rw [show (Entry.needed name).tag = DT_NEEDED from rfl, if_pos rfl, List.mapM_append, h.needed,
        List.mapM_cons, hentry.2]
      rfl
    · rw [if_neg hne, hnone, Option.toList_none, List.append_nil]
      exact h.needed
  case count =>
    rw [DynState.see_needed, htag, filterMap_concat, List.length_append, ← h.count]
    rcases needed_or hentry with ⟨name, rfl⟩ | ⟨hne, hnone⟩
    · rw [show (Entry.needed name).tag = DT_NEEDED from rfl, if_pos rfl, List.length_append]
      rfl
    · rw [if_neg hne, hnone]
      rfl
  case soname =>
    rw [DynState.see_soname, htag, hval, filterMap_concat]
    rcases soname_or hentry with ⟨name, rfl⟩ | ⟨hne, hnone⟩
    · rw [show (Entry.soname name).tag = DT_SONAME from rfl, if_pos rfl,
        show (Entry.soname name).soname?.toList = [name] from rfl, List.getLast?_concat]
      exact ⟨val, hentry.1, rfl, hentry.2⟩
    · rw [if_neg hne, hnone, Option.toList_none, List.append_nil]
      exact h.soname
  case strtab =>
    intro hmem
    rw [DynState.see_strtab, htag, hval]
    rcases strtab_or hentry with rfl | ⟨hne, hne'⟩
    · have hval : val = strAddr := hentry
      rw [hval]
      rfl
    · rw [if_neg hne]
      rcases List.mem_append.mp hmem with hmem | hmem
      · exact h.strtab hmem
      · exact absurd (List.mem_singleton.mp hmem).symm hne'
  case textrel =>
    rw [DynState.see_textrel, htag, hval, any_concat, h.textrel]
    rcases textrel_or hentry with rfl | ⟨v, rfl⟩ | ⟨hne, hne', hfalse⟩
    · exact (Bool.or_true _).symm
    · have hval : val = v := hentry
      rw [hval]
      rfl
    · rw [if_neg hne, if_neg hne', hfalse, Bool.or_false]
  case interp =>
    rw [DynState.see_interp, htag, hval, any_concat, h.interp]
    rcases pie_or hentry with ⟨v, rfl⟩ | ⟨hne, hfalse⟩
    · have hval : val = v := hentry
      have htag' : (Entry.flags1 v).tag = DT_FLAGS_1 := rfl
      rw [hval, htag']
      show _ = if interp = some true then some true
        else if (entries.any Entry.isPie || hasBits v 0x8000000) = true then some false else none
      by_cases htrue : interp = some true
      · simp [htrue]
      · cases hbits : hasBits v 0x8000000
        · simp [htrue]
        · cases hany : entries.any Entry.isPie
          · simp [htrue]
          · simp [htrue]
    · rw [if_neg fun hboth => hne hboth.1, hfalse, Bool.or_false]

end Cbuild.Elf
