import Cbuild.Elf.Readable

/-! # When the scan raises

The scan of a file raises nothing exactly when its headers are readable.
-/

namespace Cbuild.Elf

open Lib.Struct

/-! ## What the entries say -/

theorem DynState.see_strtab (s : DynState) (dynent : Header) :
    (s.see dynent).strtab =
      if dynent .tag = DT_STRTAB then some (dynent .val) else s.strtab := by
  unfold DynState.see
  dsimp only
  by_cases h : dynent .tag = DT_STRTAB
  · rw [h]
    rfl
  · rw [if_neg h, if_neg h]
    repeat' split
    all_goals rfl

theorem DynState.see_soname (s : DynState) (dynent : Header) :
    (s.see dynent).soname =
      if dynent .tag = DT_SONAME then some (dynent .val) else s.soname := by
  unfold DynState.see
  dsimp only
  by_cases h : dynent .tag = DT_SONAME
  · rw [h]
    rfl
  · rw [if_neg h, if_neg h]
    repeat' split
    all_goals rfl

theorem DynState.see_needed (s : DynState) (dynent : Header) :
    (s.see dynent).needed =
      if dynent .tag = DT_NEEDED then s.needed ++ [dynent .val] else s.needed := by
  unfold DynState.see
  dsimp only
  by_cases h : dynent .tag = DT_NEEDED
  · rw [h]
    rfl
  · rw [if_neg h, if_neg h]
    repeat' split
    all_goals rfl

theorem DynState.see_textrel (s : DynState) (dynent : Header) :
    (s.see dynent).textrel =
      if dynent .tag = DT_TEXTREL then true
      else if dynent .tag = DT_FLAGS then s.textrel || hasBits (dynent .val) 0x4
      else s.textrel := by
  unfold DynState.see
  dsimp only
  by_cases h : dynent .tag = DT_TEXTREL
  · rw [h]
    rfl
  · by_cases h' : dynent .tag = DT_FLAGS
    · rw [h']
      rfl
    · rw [if_neg h, if_neg h, if_neg h', if_neg h']
      repeat' split
      all_goals rfl

theorem DynState.see_interp (s : DynState) (dynent : Header) :
    (s.see dynent).interp =
      if dynent .tag = DT_FLAGS_1 ∧ hasBits (dynent .val) 0x8000000 ∧ s.interp ≠ some true then
        some false
      else s.interp := by
  unfold DynState.see
  dsimp only
  by_cases h : dynent .tag = DT_FLAGS_1
  · rw [h]
    simp only [true_and]
    change (if hasBits (dynent .val) 0x8000000 ∧ s.interp ≠ some true then
      { s with interp := some false } else s).interp = _
    split
    · rfl
    · rfl
  · have hnot : ¬ (dynent .tag = DT_FLAGS_1 ∧ hasBits (dynent .val) 0x8000000 ∧
        s.interp ≠ some true) := fun hboth => h hboth.1
    rw [if_neg hnot, if_neg h]
    repeat' split
    all_goals rfl

namespace ElfFile

variable {f : ElfFile} {d n : Nat}

theorem lastDyn_succ (f : ElfFile) (d n tag val : Nat) :
    f.LastDyn d (n + 1) tag val ↔
      if f.dyn d n .tag = tag then f.dyn d n .val = val else f.LastDyn d n tag val := by
  constructor
  · intro h
    obtain ⟨i, hi, htag, hval, hlast⟩ := h
    by_cases hn : f.dyn d n .tag = tag
    · rw [if_pos hn]
      have heq : i = n := by
        by_contra hne
        exact hlast n (Nat.lt_succ_self n) (by omega) hn
      rw [← heq]
      exact hval
    · rw [if_neg hn]
      have hlt : i < n := by
        rcases Nat.lt_succ_iff_lt_or_eq.mp hi with hlt | heq
        · exact hlt
        · rw [heq] at htag
          exact absurd htag hn
      exact ⟨i, hlt, htag, hval, fun j hj => hlast j (by omega)⟩
  · intro h
    by_cases hn : f.dyn d n .tag = tag
    · rw [if_pos hn] at h
      exact ⟨n, Nat.lt_succ_self n, hn, h, fun j hj hlt => by omega⟩
    · rw [if_neg hn] at h
      obtain ⟨i, hi, htag, hval, hlast⟩ := h
      refine ⟨i, by omega, htag, hval, fun j hj hlt => ?_⟩
      rcases Nat.lt_succ_iff_lt_or_eq.mp hj with hjn | heq
      · exact hlast j hjn hlt
      · rw [heq]
        exact hn

/-- A part of the state that keeps the last value of a tag. -/
theorem dynTo_last {part : DynState → Option Nat} {tag : Nat} {s : DynState}
    (hsee : ∀ s dynent, part (s.see dynent) =
      if dynent .tag = tag then some (dynent .val) else part s) (hs : part s = none) (n val : Nat) :
    part (f.dynTo d s n) = some val ↔ f.LastDyn d n tag val := by
  induction n with
  | zero =>
      apply iff_of_false
      · rw [show f.dynTo d s 0 = s from rfl, hs]
        exact (Option.some_ne_none val).symm
      · intro h
        obtain ⟨i, hi, _⟩ := h
        exact Nat.not_lt_zero i hi
  | succ n ih =>
      rw [dynTo_succ, hsee, lastDyn_succ]
      split
      · exact Option.some_inj
      · exact ih

theorem mem_dynTo_needed {s : DynState} (hs : s.needed = []) (n val : Nat) :
    val ∈ (f.dynTo d s n).needed ↔ f.HasNeeded d n val := by
  unfold HasNeeded
  induction n with
  | zero =>
      apply iff_of_false
      · rw [show f.dynTo d s 0 = s from rfl, hs]
        exact List.not_mem_nil
      · intro h
        obtain ⟨i, hi, _⟩ := h
        exact Nat.not_lt_zero i hi
  | succ n ih =>
      rw [dynTo_succ, DynState.see_needed, Nat.exists_lt_succ_right, ← ih]
      by_cases htag : f.dyn d n .tag = DT_NEEDED
      · rw [if_pos htag, List.mem_append, List.mem_singleton]
        exact or_congr_right ⟨fun h => ⟨htag, h.symm⟩, fun h => h.2.symm⟩
      · rw [if_neg htag]
        exact (or_iff_left fun h => htag h.1).symm

/-- The string table that is found. -/
theorem find_strtabsTo (f : ElfFile) (d addr : Nat) (st : Header) :
    ((f.strtabsTo d).find? fun st => decide (some addr = some (st .addr))) = some st ↔
      ∃ t, f.IsTable d addr t ∧ f.shdr t = st := by
  unfold strtabsTo
  rw [List.find?_map, List.find?_filter, Option.map_eq_some_iff]
  apply exists_congr
  intro t
  rw [List.find?_range_eq_some, List.mem_range]
  unfold IsTable
  apply and_congr_left
  intro _
  simp only [Function.comp_apply, decide_eq_true_eq, Option.some.injEq, Bool.not_eq_true',
    decide_eq_false_iff_not]
  constructor
  · intro h
    obtain ⟨⟨htype, haddr⟩, hlt, hfirst⟩ := h
    exact ⟨hlt, htype, haddr.symm, fun j hj htype' heq => hfirst j hj ⟨htype', heq.symm⟩⟩
  · intro h
    obtain ⟨hlt, htype, haddr, hfirst⟩ := h
    exact ⟨⟨htype, haddr.symm⟩, hlt, fun j hj hboth => hfirst j hj hboth.1 hboth.2.symm⟩

end ElfFile

/-! ## Names -/

/-- The address of a string table is taken for none, or there is none. -/
def NoTable (s : DynState) : Prop :=
  (s.strtab = none ∨ s.strtab = some 0) ∧
    (0 < s.needed.length ∨ (s.soname ≠ none ∧ s.soname ≠ some 0))

theorem ends_readNames (mm : Bytes) (strtabs : List Header) (s : DynState) :
    Ends (readNames mm strtabs s) ↔ ∀ st,
      (strtabs.find? fun st => decide (s.strtab = some (st .addr))) = some st → ¬ NoTable s →
      (∀ val ∈ s.needed, Decodes mm (st .offset + val)) ∧
        ∀ val, s.soname = some val → val ≠ 0 ∧ Decodes mm (st .offset + val) := by
  unfold readNames
  split
  next h => exact iff_of_true ⟨none, rfl⟩ fun st _ hnot => absurd h hnot
  next hnot =>
    split
    next hfind =>
      apply iff_of_true ⟨none, rfl⟩
      intro st hst
      rw [hfind] at hst
      cases hst
    next st hfind =>
      have hread : ∀ val, Ends (readName (st .offset) mm val) ↔ Decodes mm (st .offset + val) :=
        fun val => ends_readName
      have hall : (∀ st', (strtabs.find? fun st => decide (s.strtab = some (st .addr))) = some st' →
          ¬ NoTable s → (∀ val ∈ s.needed, Decodes mm (st' .offset + val)) ∧
            ∀ val, s.soname = some val → val ≠ 0 ∧ Decodes mm (st' .offset + val)) ↔
          Ends (s.needed.mapM (readName (st .offset) mm)) ∧
            ∀ val, s.soname = some val → val ≠ 0 ∧ Decodes mm (st .offset + val) := by
        rw [ends_mapM]
        simp only [hread]
        constructor
        · intro h
          exact h st hfind hnot
        · intro h st' hst' _
          rw [hfind] at hst'
          cases hst'
          exact h
      rw [hall, ends_bind]
      constructor
      · intro h
        obtain ⟨needed, hneeded, h⟩ := h
        refine ⟨⟨needed, hneeded⟩, fun val hval => ?_⟩
        split at h
        next hsoname =>
          rw [hsoname] at hval
          cases hval
        next hsoname =>
          obtain ⟨r, hr⟩ := h
          cases hr
        next offset hsoname =>
          rw [hsoname] at hval
          cases hval
          rw [ends_bind] at h
          obtain ⟨name, hname, _⟩ := h
          exact ⟨Nat.succ_ne_zero offset, (hread _).mp ⟨name, hname⟩⟩
      · intro h
        obtain ⟨⟨needed, hneeded⟩, hsoname⟩ := h
        refine ⟨needed, hneeded, ?_⟩
        split
        next => exact ⟨_, rfl⟩
        next hzero => exact absurd rfl (hsoname 0 hzero).1
        next offset hoffset =>
          rw [ends_bind]
          obtain ⟨name, hname⟩ := (hread _).mpr (hsoname _ hoffset).2
          exact ⟨name, hname, _, rfl⟩

/-! ## The scan -/

namespace ElfFile

variable {f : ElfFile}

/-- Before the entries are read. -/
abbrev start (interp : Option Bool) : DynState := ⟨[], none, none, false, interp⟩

theorem noTable_iff (f : ElfFile) (d n : Nat) (interp : Option Bool) {addr : Nat}
    (haddr : f.LastDyn d n DT_STRTAB addr) :
    ¬ NoTable (f.dynTo d (start interp) n) ↔ f.HasTable d n addr := by
  have hstrtab : (f.dynTo d (start interp) n).strtab = some addr :=
    (dynTo_last DynState.see_strtab rfl n addr).mpr haddr
  have hneeded : 0 < (f.dynTo d (start interp) n).needed.length ↔ ∃ val, f.HasNeeded d n val := by
    rw [List.length_pos_iff_exists_mem]
    exact exists_congr fun val => mem_dynTo_needed rfl n val
  have hsoname : ((f.dynTo d (start interp) n).soname ≠ none ∧
      (f.dynTo d (start interp) n).soname ≠ some 0) ↔
      ∃ val, f.LastDyn d n DT_SONAME val ∧ val ≠ 0 := by
    have hlast := dynTo_last (f := f) (d := d) DynState.see_soname
      (show (start interp).soname = none from rfl) n
    constructor
    · intro h
      obtain ⟨val, hval⟩ := Option.ne_none_iff_exists'.mp h.1
      refine ⟨val, (hlast val).mp hval, fun hzero => ?_⟩
      rw [hzero] at hval
      exact h.2 hval
    · intro h
      obtain ⟨val, hval, hne⟩ := h
      rw [(hlast val).mpr hval]
      exact ⟨Option.some_ne_none val, fun heq => hne (Option.some.inj heq)⟩
  unfold NoTable HasTable
  rw [hstrtab, hneeded, hsoname]
  constructor
  · intro h
    refine ⟨haddr, fun hzero => ⟨fun val hval => ?_, fun val hval => ?_⟩⟩
    · exact h ⟨Or.inr (congrArg some hzero), Or.inl ⟨val, hval⟩⟩
    · by_contra hne
      exact h ⟨Or.inr (congrArg some hzero), Or.inr ⟨val, hval, hne⟩⟩
  · intro h hno
    obtain ⟨hzero, hnames⟩ := hno
    have hzero : addr = 0 := by
      rcases hzero with hnone | hzero
      · cases hnone
      · exact Option.some.inj hzero
    rcases hnames with ⟨val, hval⟩ | ⟨val, hval, hne⟩
    · exact (h.2 hzero).1 val hval
    · exact hne ((h.2 hzero).2 val hval)

/-- The names are readable. -/
theorem ends_readNames_dynTo (f : ElfFile) (d n : Nat) (interp : Option Bool) :
    Ends (readNames f.mm (f.strtabsTo d) (f.dynTo d (start interp) n)) ↔
      ∀ addr, f.HasTable d n addr → ∀ t, f.IsTable d addr t →
        (∀ val, f.HasNeeded d n val → Decodes f.mm (f.shdr t .offset + val)) ∧
          ∀ val, f.LastDyn d n DT_SONAME val → val ≠ 0 ∧ Decodes f.mm (f.shdr t .offset + val) := by
  have hstrtab : ∀ addr, (f.dynTo d (start interp) n).strtab = some addr ↔
      f.LastDyn d n DT_STRTAB addr := dynTo_last DynState.see_strtab rfl n
  have hsoname : ∀ val, (f.dynTo d (start interp) n).soname = some val ↔
      f.LastDyn d n DT_SONAME val := dynTo_last DynState.see_soname rfl n
  have hneeded : ∀ val, val ∈ (f.dynTo d (start interp) n).needed ↔ f.HasNeeded d n val :=
    mem_dynTo_needed rfl n
  rw [ends_readNames]
  simp only [hsoname, hneeded]
  constructor
  · intro h addr htable t ht
    have haddr := (hstrtab addr).mpr htable.1
    apply h (f.shdr t) _ ((noTable_iff f d n interp htable.1).mpr htable)
    rw [haddr]
    exact (f.find_strtabsTo d addr (f.shdr t)).mpr ⟨t, ht, rfl⟩
  · intro h st hst hno
    cases haddr : (f.dynTo d (start interp) n).strtab with
    | none =>
        have hst := List.find?_some hst
        rw [haddr] at hst
        exact absurd (of_decide_eq_true hst) (Option.some_ne_none _).symm
    | some addr =>
        rw [haddr] at hst
        obtain ⟨t, ht, rfl⟩ := (f.find_strtabsTo d addr st).mp hst
        have hlast := (hstrtab addr).mp haddr
        exact h addr ((noTable_iff f d n interp hlast).mp hno) t ht

theorem phdrOffset_zero (f : ElfFile) : f.phdrOffset 0 = f.ehdr .phoff := by
  unfold phdrOffset
  rw [Nat.zero_mul, Nat.add_zero]

theorem shdrOffset_zero (f : ElfFile) : f.shdrOffset 0 = f.ehdr .shoff := by
  unfold shdrOffset
  rw [Nat.zero_mul, Nat.add_zero]

theorem dynOffset_zero (f : ElfFile) (d : Nat) : f.dynOffset d 0 = f.shdr d .offset := by
  unfold dynOffset
  rw [Nat.zero_mul, Nat.add_zero]

theorem IsDynamic.unique {d d' : Nat} (h : f.IsDynamic d) (h' : f.IsDynamic d') : d = d' := by
  rcases Nat.lt_trichotomy d d' with hlt | heq | hgt
  · exact absurd h.2.1 (h'.2.2 d hlt)
  · exact heq
  · exact absurd h'.2.1 (h.2.2 d' hgt)

theorem IsSentinel.unique {d n n' : Nat} (h : f.IsSentinel d n) (h' : f.IsSentinel d n') :
    n = n' := by
  rcases Nat.lt_trichotomy n n' with hlt | heq | hgt
  · exact absurd h.1 (h'.2 n hlt)
  · exact heq
  · exact absurd h'.1 (h.2 n' hgt)

theorem ends_progLoop_start (f : ElfFile) :
    Ends (progLoop f.w f.e f.mm (f.ehdr .phentsize) (f.ehdr .phnum) (f.ehdr .phoff)
      ⟨none, false, true⟩) ↔
      ∀ i < f.ehdr .phnum, f.LooksAtPhdr i → Within (hdrProg f.w) f.mm (f.phdrOffset i) := by
  have hnone : ∀ P : Nat → Prop, ¬ ∃ j < 0, P j := by
    intro P h
    obtain ⟨j, hj, _⟩ := h
    exact Nat.not_lt_zero j hj
  have hloop := ends_progLoop f (f.ehdr .phnum) 0 ⟨none, false, true⟩
    (iff_of_false (Option.some_ne_none true).symm (hnone _))
    (iff_of_false Bool.false_ne_true (hnone _)) (fun h => hnone _ h.1)
  rw [phdrOffset_zero] at hloop
  rw [hloop]
  constructor
  · intro h i hi
    exact h i (Nat.zero_le i) (by omega)
  · intro h i _ hi
    exact h i (by omega)

/-- The section headers that are looked at lie in the file. -/
def ShdrsWithin (f : ElfFile) : Prop :=
  ∀ i < f.ehdr .shnum, f.LooksAtShdr i → Within (hdrSect f.w) f.mm (f.shdrOffset i)

/-- The loop over the section headers, from the first one on. -/
theorem sectLoop_start (h : f.ShdrsWithin) :
    (∃ d, f.IsDynamic d ∧
      sectLoop f.w f.e f.mm (f.ehdr .shentsize) (f.ehdr .shnum) (f.ehdr .shoff) [] =
        .ok (f.strtabsTo d, some (f.shdr d))) ∨
    ((∀ d, ¬ f.IsDynamic d) ∧
      sectLoop f.w f.e f.mm (f.ehdr .shentsize) (f.ehdr .shnum) (f.ehdr .shoff) [] =
        .ok (f.strtabsTo (f.ehdr .shnum), none)) := by
  have hspec := sectLoop_spec f (f.ehdr .shnum) 0 (fun j hj => absurd hj (Nat.not_lt_zero j))
    fun i _ hi => h i (by omega)
  rw [shdrOffset_zero, Nat.zero_add] at hspec
  rcases hspec with ⟨d, hd, hdyn, hlook, hloop⟩ | ⟨hlook, hloop⟩
  · exact Or.inl ⟨d, ⟨hd, hdyn, hlook⟩, hloop⟩
  · exact Or.inr ⟨fun d hd => hlook d hd.1 hd.2.1, hloop⟩

theorem shdrsWithin_of_ends
    (h : Ends (sectLoop f.w f.e f.mm (f.ehdr .shentsize) (f.ehdr .shnum) (f.ehdr .shoff) [])) :
    f.ShdrsWithin := by
  rw [← shdrOffset_zero] at h
  intro i hi
  exact within_of_sectLoop f (f.ehdr .shnum) 0 [] h i (Nat.zero_le i) (by omega)

/-- The entries of the dynamic section that are looked at lie in the file. -/
def DynsWithin (f : ElfFile) (d : Nat) : Prop :=
  ∀ i, f.LooksAtDyn d i → Within (dynEntry f.w) f.mm (f.dynOffset d i)

theorem dynLoop_start {d : Nat} (h : f.DynsWithin d) (interp : Option Bool) :
    ∃ n, f.IsSentinel d n ∧ dynLoop f.w f.e f.mm (f.shdr d .offset) (start interp) =
      .ok (f.dynTo d (start interp) n) := by
  have hspec := dynLoop_spec f d (start interp) 0 (fun j hj => absurd hj (Nat.not_lt_zero j))
    fun j _ => h j
  rw [dynOffset_zero] at hspec
  exact hspec

theorem dynsWithin_of_ends {d : Nat} {s : DynState}
    (h : Ends (dynLoop f.w f.e f.mm (f.shdr d .offset) s)) : f.DynsWithin d := by
  rw [← dynOffset_zero] at h
  intro i hlook
  have hwithin := within_of_dynLoop_ends f d s 0 i h
  rw [Nat.zero_add] at hwithin
  exact hwithin hlook

/-- The last part of the scan, which makes a result of the names. -/
theorem ends_result {x : Except Exc (Option (List String × Option String))}
    {g : List String → Option String → Scan} :
    Ends (x >>= fun names => match names with
      | none => pure none
      | some (needed, soname) => pure (some (g needed soname))) ↔ Ends x := by
  rw [ends_bind]
  constructor
  · intro h
    obtain ⟨names, hnames, _⟩ := h
    exact ⟨names, hnames⟩
  · intro h
    obtain ⟨names, hnames⟩ := h
    refine ⟨names, hnames, ?_⟩
    cases names with
    | none => exact ⟨_, rfl⟩
    | some names => exact ⟨_, rfl⟩

theorem ends_scanHeaders (f : ElfFile) (etype : ElfType) :
    Ends (scanHeaders f.w f.e f.mm f.ehdr etype) ↔ f.Readable := by
  unfold scanHeaders
  constructor
  · intro h
    obtain ⟨p, hp, h⟩ := ends_bind.mp h
    obtain ⟨sects, hsects, h⟩ := ends_bind.mp h
    have hshdrs := shdrsWithin_of_ends ⟨sects, hsects⟩
    -- of the dynamic section, if there is one
    have hdynamic : ∀ d, f.IsDynamic d → f.DynsWithin d ∧ ∀ n, f.IsSentinel d n →
        ∀ addr, f.HasTable d n addr → ∀ t, f.IsTable d addr t →
        (∀ val, f.HasNeeded d n val → Decodes f.mm (f.shdr t .offset + val)) ∧
          ∀ val, f.LastDyn d n DT_SONAME val → val ≠ 0 ∧ Decodes f.mm (f.shdr t .offset + val) := by
      intro d hd
      rcases sectLoop_start hshdrs with ⟨d', hd', hloop⟩ | ⟨hnone, _⟩
      · rw [hsects] at hloop
        cases hloop
        obtain rfl := hd.unique hd'
        obtain ⟨s, hs, h⟩ := ends_bind.mp h
        have hdyns := dynsWithin_of_ends ⟨s, hs⟩
        refine ⟨hdyns, fun n hn => ?_⟩
        obtain ⟨n', hn', hdyn⟩ := dynLoop_start hdyns p.interp
        obtain rfl := hn.unique hn'
        rw [hs] at hdyn
        cases hdyn
        exact (ends_readNames_dynTo f d n p.interp).mp (ends_result.mp h)
      · exact absurd hd (hnone d)
    exact {
      phdrs := (ends_progLoop_start f).mp ⟨p, hp⟩
      shdrs := hshdrs
      dyns := fun d hd => (hdynamic d hd).1
      needed := fun d hd n hn addr ha t ht => ((hdynamic d hd).2 n hn addr ha t ht).1
      soname := fun d hd n hn addr ha t ht => ((hdynamic d hd).2 n hn addr ha t ht).2 }
  · intro h
    obtain ⟨p, hp⟩ := (ends_progLoop_start f).mpr h.phdrs
    refine ends_bind.mpr ⟨p, hp, ?_⟩
    rcases sectLoop_start h.shdrs with ⟨d, hd, hloop⟩ | ⟨_, hloop⟩
    · refine ends_bind.mpr ⟨_, hloop, ?_⟩
      obtain ⟨n, hn, hdyn⟩ := dynLoop_start (h.dyns d hd) p.interp
      refine ends_bind.mpr ⟨_, hdyn, ends_result.mpr ?_⟩
      rw [ends_readNames_dynTo]
      intro addr ha t ht
      exact ⟨h.needed d hd n hn addr ha t ht, h.soname d hd n hn addr ha t ht⟩
    · exact ends_bind.mpr ⟨_, hloop, _, rfl⟩

end ElfFile

theorem ends_scanElf (w : WordSize) (e : Endian) (mm : Bytes) :
    Ends (scanElf w e mm) ↔ ScannableElf w e mm := by
  unfold scanElf ScannableElf
  by_cases hin : Within (hdrElf w) mm 0
  · rw [unpack_bind hin]
    cases htype : elfTypes[headerAt (hdrElf w) e mm 0 .type]? with
    | none =>
        rw [List.getElem?_eq_none_iff] at htype
        exact iff_of_true ⟨none, rfl⟩ ⟨hin, fun hlt => absurd hlt (not_lt.mpr htype)⟩
    | some etype =>
        have hlt := (List.getElem?_eq_some_iff.mp htype).1
        have hheaders := ElfFile.ends_scanHeaders ⟨w, e, mm, headerAt (hdrElf w) e mm 0⟩ etype
        exact hheaders.trans ⟨fun h => ⟨hin, fun _ => h⟩, fun h => h.2 hlt⟩
  · exact iff_of_false (not_ends_unpack_bind (calcsize_hdrElf w) hin _) fun h => hin h.1

/-- The scan of a file raises nothing exactly when its headers are readable. -/
theorem scanOne_ends_iff (mm : Bytes) : (∃ r, scanOne mm = .ok r) ↔ Scannable mm := by
  unfold scanOne Scannable
  by_cases hmagic : slice mm 0 4 = elfMagic
  · rw [if_neg (not_not.mpr hmagic)]
    cases hwsi : mm[4]? with
    | none => exact iff_of_true ⟨_, rfl⟩ fun wsi endian _ h => by cases h
    | some wsi =>
        cases hendian : mm[5]? with
        | none => exact iff_of_true ⟨_, rfl⟩ fun wsi endian _ _ h => by cases h
        | some endian =>
            dsimp only
            by_cases hclass : 2 < wsi ∨ 2 < endian
            · rw [if_pos hclass]
              apply iff_of_true ⟨_, rfl⟩
              intro wsi' endian' _ hw he hle hle'
              cases hw
              cases he
              rcases hclass with hlt | hlt
              · exact absurd hlt (UInt8.not_lt.mpr hle)
              · exact absurd hlt (UInt8.not_lt.mpr hle')
            · rw [if_neg hclass]
              obtain ⟨hle, hle'⟩ := not_or.mp hclass
              apply (ends_scanElf _ _ mm).trans
              constructor
              · intro h wsi' endian' _ hw he _ _
                cases hw
                cases he
                exact h
              · intro h
                exact h wsi endian hmagic rfl rfl (UInt8.not_lt.mp hle) (UInt8.not_lt.mp hle')
  · rw [if_pos hmagic]
    exact iff_of_true ⟨_, rfl⟩ fun wsi endian h => absurd h hmagic

/-- A file that ends after its class and its byte order. -/
theorem truncated_raises :
    ¬ ∃ r, scanOne [0x7f, 0x45, 0x4c, 0x46, 1, 1] = .ok r := by
  have hraises : scanOne [0x7f, 0x45, 0x4c, 0x46, 1, 1] = .error .struct := rfl
  rw [hraises]
  intro h
  obtain ⟨r, hr⟩ := h
  cases hr

end Cbuild.Elf
