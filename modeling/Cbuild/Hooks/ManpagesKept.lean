import Cbuild.Hooks.Manpages

/-! # Man pages that keep their texts

A page the first hook uncompresses is moved to its plain name, and everything the
second hook handles is moved to the name with `.gz`. A link the first hook meets stays
where it is, so that pages and aliases are kept exactly when no alias is compressed or
leads to a compressed name.
-/

namespace Cbuild.Manpages

open Lib Entries

variable {C : Type} {tools : Tools C} {t t' : Entries Path C} {p q f : Path}

/-! ## Links stay -/

theorem symlinkTo_link {target : Path} (h : symlinkTo t f target = some t')
    (hp : t p = some (.link q)) : t' p = some (.link q) := by
  unfold symlinkTo at h
  split at h
  · contradiction
  · rename_i hno
    cases h
    have hne : p ≠ f := by
      intro heq
      rw [heq] at hp
      exact hno (by rw [hp]; rfl)
    rw [Function.update_of_ne hne]
    exact hp

theorem write_link {c : C} (h : write t f c = some t') (hp : t p = some (.link q)) :
    t' p = some (.link q) := by
  obtain ⟨k, hk, rfl⟩ := Option.map_eq_some_iff.mp h
  have hne : p ≠ k := by
    intro heq
    have hno := isLink_follow hk
    rw [← heq, isLink_iff.mpr ⟨q, hp⟩] at hno
    contradiction
  rw [Function.update_of_ne hne]
  exact hp

theorem uncompressOne_link (h : uncompressOne tools t f = some t') (hp : t p = some (.link q)) :
    t' p = some (.link q) := by
  unfold uncompressOne at h
  split at h
  · cases h
    exact hp
  · split at h
    · cases h
      exact hp
    · split at h
      · exact symlinkTo_link h hp
      · rename_i c hf
        obtain ⟨text, _, hw⟩ := Option.bind_eq_some_iff.mp h
        obtain ⟨t₁, ht₁, rfl⟩ := Option.map_eq_some_iff.mp hw
        have hne : p ≠ f := by
          intro heq
          rw [heq, hf] at hp
          cases hp
        rw [unlink, Function.update_of_ne hne]
        exact write_link ht₁ hp
      · cases h
        exact hp

theorem uncompress_link {listing : List Path} (h : uncompress tools listing t = some t')
    (hp : t p = some (.link q)) : t' p = some (.link q) := by
  unfold uncompress at h
  induction listing generalizing t with
  | nil =>
      cases h
      exact hp
  | cons f listing ih =>
      rw [List.foldlM_cons] at h
      obtain ⟨t₁, hf, hrest⟩ := Option.bind_eq_some_iff.mp h
      exact ih hrest (uncompressOne_link hf hp)

/-! ## The first hook -/

namespace ManTree

variable {m : ManTree tools}

theorem exists_read (hp : p ∈ m.names) : ∃ r, m.tree.read p = some r ∧
    tools.text m.tree p = if compressed r.1.2 then tools.uncompressed r.1.2 r.2 else some r.2 := by
  obtain ⟨x, hx⟩ := Option.isSome_iff_exists.mp (m.texts p hp)
  obtain ⟨r, hr, _⟩ := Option.bind_eq_some_iff.mp hx
  exact ⟨r, hr, by rw [Tools.text, hr, Option.bind_some]⟩

/-- An alias leads to a name of the tree. -/
theorem mem_of_link (hp : p ∈ m.names) (hlink : m.tree p = some (.link q)) : q ∈ m.names := by
  obtain ⟨r, hr, _⟩ := m.exists_read hp
  obtain ⟨k, hk, hfile⟩ := Option.bind_eq_some_iff.mp hr
  rw [follow, hlink] at hk
  rw [m.mem_names]
  cases hq : m.tree q with
  | some e => rfl
  | none =>
      have hno : m.tree.isLink q = false := by rw [isLink, hq]
      simp only [follow_of_not_link hno, Option.some.injEq] at hk
      rw [← hk, hq] at hfile
      contradiction

theorem not_compressed_plain (hp : p ∈ m.names) : compressed (plain p).2 = false := by
  rw [Bool.eq_false_iff]
  intro h
  exact m.plain_ends p hp (endsCompressed_of_compressed h)

theorem plain_plain (hp : p ∈ m.names) : plain (plain p) = plain p :=
  plain_of_not (m.not_compressed_plain hp)

/-- The plain name of a compressed page is free. -/
theorem plain_free (hp : p ∈ m.names) (hc : compressed p.2 = true) : m.tree (plain p) = none := by
  cases h : m.tree (plain p) with
  | none => rfl
  | some e =>
      have hmem : plain p ∈ m.names := (m.mem_names _).mpr (by rw [h]; rfl)
      have heq := m.once (plain p) hmem p hp (m.plain_plain hp)
      have hno := m.not_compressed_plain hp
      rw [heq, hc] at hno
      contradiction

theorem exists_listed (m : ManTree tools) : ∃ listing, Listed m.tree listing :=
  ⟨m.names.filter fun p => decide ('.' ∈ p.2), m.nodup.filter _, fun p => by
    rw [List.mem_filter, m.mem_names, decide_eq_true_iff]⟩

/-- A page with its text. -/
def unpacked (m : ManTree tools) (p : Path) : Entry Path C :=
  ((tools.text m.tree p).map Entry.file).getD (.link p)

end ManTree

/-- A compressed page is moved to its plain name. -/
theorem uncompressOne_page {m : ManTree tools} (hin : f ∈ m.names) (hc : compressed f.2 = true)
    (hno : ∀ q, m.tree f ≠ some (.link q)) (hsame : t' f = m.tree f) (hfree : t' (plain f) = none) :
    uncompressOne tools t' f = some (move f (plain f) (m.unpacked f) t') := by
  cases hentry : m.tree f with
  | none =>
      rw [m.mem_names, hentry] at hin
      contradiction
  | some e =>
      cases e with
      | link q => exact absurd hentry (hno q)
      | file c =>
          have htext : tools.text m.tree f = tools.uncompressed f.2 c := by
            rw [Tools.text, read_of_file hentry, Option.bind_some, if_pos hc]
          obtain ⟨x, hx⟩ := Option.isSome_iff_exists.mp (m.texts f hin)
          have hplain : plain f = withSuffix [] f := by rw [plain, if_pos hc]
          have hnolink : t'.isLink (withSuffix [] f) = false := by rw [← hplain, isLink, hfree]
          rw [hentry] at hsame
          unfold uncompressOne
          rw [read_of_file hsame, if_neg (by simp), if_neg (by simp [hc]), hsame]
          simp only [← htext, hx, Option.bind_some, write, follow_of_not_link hnolink,
            Option.map_some, ManTree.unpacked, Option.getD_some, hplain]
          rfl

/-- The compressed pages are moved to their plain names, if no alias is compressed. -/
theorem uncompress_moved {m : ManTree tools} {listing : List Path} (hl : Listed m.tree listing)
    (hlinks : ∀ p ∈ m.names, ∀ q, m.tree p = some (.link q) → compressed p.2 = false) :
    ∃ t, uncompress tools listing m.tree = some t ∧
      Moved plain m.unpacked (listing.filter fun p => compressed p.2) m.tree t := by
  have hnodup : (listing.filter fun p => compressed p.2).Nodup := hl.nodup.filter _
  have hin : ∀ f ∈ listing.filter fun p => compressed p.2, f ∈ m.names := fun f hf =>
    (m.mem_names f).mpr ((hl.mem_iff f).mp (List.mem_of_mem_filter hf)).1
  have hc : ∀ f ∈ listing.filter fun p => compressed p.2, compressed f.2 = true := fun f hf =>
    List.of_mem_filter (p := fun p : Path => compressed p.2) hf
  have hskip : ∀ (t : Entries Path C) f, compressed f.2 = false → uncompressOne tools t f = some t := by
    intro t f hc
    simp [uncompressOne, hc]
  rw [uncompress, foldlM_filter hskip]
  refine foldlM_moved (uncompressOne tools) hnodup
    (fun a ha b hb => m.once a (hin a ha) b (hin b hb))
    (fun a ha => (m.mem_names a).mp (hin a ha)) (fun a ha => m.plain_free (hin a ha) (hc a ha)) ?_
  intro f hf t' hsame hfree
  refine uncompressOne_page (hin f hf) (hc f hf) (fun q hentry => ?_) hsame hfree
  have hplain := hlinks f (hin f hf) q hentry
  rw [hc f hf] at hplain
  contradiction

/-- The content of a page under its plain name. -/
def decode (tools : Tools C) (p : Path) (c : C) : C :=
  if compressed p.2 then (tools.uncompressed p.2 c).getD c else c

section Unpacked

variable {m : ManTree tools} {listing : List Path}

theorem mem_compressed (hl : Listed m.tree listing) :
    (p ∈ listing.filter fun p => compressed p.2) ↔ p ∈ m.names ∧ compressed p.2 = true := by
  rw [List.mem_filter, hl.mem_iff, m.mem_names]
  constructor
  · intro h
    exact ⟨h.1.1, h.2⟩
  · intro h
    exact ⟨⟨h.1, dot_of_endsCompressed (endsCompressed_of_compressed h.2)⟩, h.2⟩

/-- What is there is what was there, under its plain name. -/
theorem unpacked_names (hl : Listed m.tree listing)
    (hm : Moved plain m.unpacked (listing.filter fun p => compressed p.2) m.tree t) :
    (t p).isSome = true ↔ ∃ q ∈ m.names, p = plain q := by
  rw [hm.isSome_iff]
  constructor
  · intro h
    rcases h with ⟨q, hq, rfl⟩ | ⟨hno, hp⟩
    · exact ⟨q, ((mem_compressed hl).mp hq).1, rfl⟩
    · have hin := (m.mem_names p).mpr hp
      have hc : compressed p.2 = false := by
        rw [Bool.eq_false_iff]
        exact fun hc => hno ((mem_compressed hl).mpr ⟨hin, hc⟩)
      exact ⟨p, hin, (plain_of_not hc).symm⟩
  · intro h
    obtain ⟨q, hq, rfl⟩ := h
    cases hc : compressed q.2 with
    | true => exact .inl ⟨q, (mem_compressed hl).mpr ⟨hq, hc⟩, rfl⟩
    | false =>
        rw [plain_of_not hc]
        refine .inr ⟨fun hmem => ?_, (m.mem_names q).mp hq⟩
        rw [((mem_compressed hl).mp hmem).2] at hc
        contradiction

/-- A name that is not compressed is left alone. -/
theorem unpacked_rest (hl : Listed m.tree listing)
    (hm : Moved plain m.unpacked (listing.filter fun p => compressed p.2) m.tree t)
    (hp : p ∈ m.names) (hc : compressed p.2 = false) : t p = m.tree p := by
  refine hm.rest p (fun k hk => ?_)
  obtain ⟨hk, hkc⟩ := (mem_compressed hl).mp hk
  refine ⟨fun heq => ?_, fun heq => ?_⟩
  · rw [heq, hkc] at hc
    contradiction
  · have hsome := (m.mem_names p).mp hp
    rw [heq, m.plain_free hk hkc] at hsome
    contradiction

/-- The tree of plain names, as a renaming of the tree before. -/
theorem unpacked_map (hl : Listed m.tree listing)
    (hm : Moved plain m.unpacked (listing.filter fun p => compressed p.2) m.tree t)
    (hlinks : ∀ p ∈ m.names, ∀ q, m.tree p = some (.link q) →
      compressed p.2 = false ∧ compressed q.2 = false) (hp : p ∈ m.names) :
    t (plain p) = (m.tree p).map (Entry.map plain (decode tools p)) := by
  cases hentry : m.tree p with
  | none =>
      rw [m.mem_names, hentry] at hp
      contradiction
  | some e =>
      cases e with
      | link q =>
          obtain ⟨hc, hqc⟩ := hlinks p hp q hentry
          rw [plain_of_not hc, unpacked_rest hl hm hp hc, hentry, Option.map_some, Entry.map,
            plain_of_not hqc]
      | file c =>
          cases hc : compressed p.2 with
          | false =>
              rw [plain_of_not hc, unpacked_rest hl hm hp hc, hentry]
              simp [Entry.map, decode, hc]
          | true =>
              have htext : tools.text m.tree p = tools.uncompressed p.2 c := by
                rw [Tools.text, read_of_file hentry, Option.bind_some, if_pos hc]
              obtain ⟨x, hx⟩ := Option.isSome_iff_exists.mp (m.texts p hp)
              rw [hm.there p ((mem_compressed hl).mpr ⟨hp, hc⟩), ManTree.unpacked, hx,
                Option.map_some, Option.getD_some, Option.map_some, Entry.map, decode, if_pos hc,
                ← htext, hx, Option.getD_some]

theorem unpacked_text (hl : Listed m.tree listing)
    (hm : Moved plain m.unpacked (listing.filter fun p => compressed p.2) m.tree t)
    (hlinks : ∀ p ∈ m.names, ∀ q, m.tree p = some (.link q) →
      compressed p.2 = false ∧ compressed q.2 = false) (hp : p ∈ m.names) :
    tools.text t (plain p) = tools.text m.tree p := by
  have hclosed : ∀ k q, k ∈ m.names → m.tree k = some (.link q) → q ∈ m.names :=
    fun k q hk => m.mem_of_link hk
  have hread := read_map (P := (· ∈ m.names)) (fun k hk => unpacked_map hl hm hlinks hk) hclosed hp
  obtain ⟨r, hr, htext⟩ := m.exists_read hp
  have hrin : r.1 ∈ m.names := by
    obtain ⟨k, hk, hfile⟩ := Option.bind_eq_some_iff.mp hr
    have hkin : k ∈ m.names := follow_closed (P := (· ∈ m.names)) hclosed hp hk
    split at hfile
    · cases hfile
      exact hkin
    · contradiction
  have hsome := m.texts p hp
  rw [Tools.text, hread, hr, Option.map_some, Option.bind_some, m.not_compressed_plain hrin, htext]
  rw [htext] at hsome
  simp only [Bool.false_eq_true, if_false, decode]
  split
  · rename_i hc
    rw [if_pos hc] at hsome
    obtain ⟨x, hx⟩ := Option.isSome_iff_exists.mp hsome
    rw [hx, Option.getD_some]
  · rfl

theorem unpacked_plain (hl : Listed m.tree listing)
    (hm : Moved plain m.unpacked (listing.filter fun p => compressed p.2) m.tree t)
    (hlinks : ∀ p ∈ m.names, ∀ q, m.tree p = some (.link q) →
      compressed p.2 = false ∧ compressed q.2 = false) : Plain m t := by
  refine ⟨fun p hp => ?_, fun p hp => unpacked_text hl hm hlinks hp⟩
  obtain ⟨q, hq, rfl⟩ := (unpacked_names hl hm).mp hp
  exact m.plain_ends q hq

end Unpacked

/-! ## The second hook -/

/-- What the second hook makes of an entry. -/
def gzipped (tools : Tools C) (t : Entries Path C) (p : Path) : Entry Path C :=
  ((t p).map (Entry.map addGz tools.gzip)).getD (.link p)

section Gzipped

variable {listing files : List Path}

theorem addGz_free (hends : ∀ p, (t p).isSome = true → ¬ EndsCompressed p.2) (p : Path) :
    t (addGz p) = none := by
  cases h : t (addGz p) with
  | none => rfl
  | some e => exact absurd (endsCompressed_addGz p) (hends (addGz p) (by rw [h]; rfl))

theorem addGz_ne (hends : ∀ p, (t p).isSome = true → ¬ EndsCompressed p.2)
    (hp : (t p).isSome = true) (q : Path) : p ≠ addGz q := by
  intro heq
  rw [heq, addGz_free hends q] at hp
  contradiction

variable (tools) in
theorem relink_moved (hl : Listed t listing)
    (hends : ∀ p, (t p).isSome = true → ¬ EndsCompressed p.2) :
    ∃ t₁, (listing.filter t.isLink).foldlM relinkOne t = some t₁ ∧
      Moved addGz (gzipped tools t) (listing.filter t.isLink) t t₁ := by
  have hin : ∀ f ∈ listing.filter t.isLink, (t f).isSome = true :=
    fun f hf => ((hl.mem_iff f).mp (List.mem_of_mem_filter hf)).1
  refine foldlM_moved relinkOne (hl.nodup.filter _) (fun a _ b _ h => addGz_injective h) hin
    (fun f _ => addGz_free hends f) ?_
  intro f hf (t' : Entries Path C) hsame hfree
  obtain ⟨q, hq⟩ := isLink_iff.mp (List.of_mem_filter hf)
  have hne : addGz f ≠ f := fun heq => addGz_ne hends (hin f hf) f heq.symm
  have hfree' : unlink t' f (addGz f) = none := by
    rw [unlink, Function.update_of_ne hne]
    exact hfree
  have hgz : gzipped tools t f = .link (addGz q) := by
    rw [gzipped, hq]
    rfl
  rw [hq] at hsame
  unfold relinkOne
  rw [hsame]
  show symlinkTo (unlink t' f) (withSuffix (suffix f.2 ++ gz) f) (addGz q) = _
  rw [withSuffix_gz, symlinkTo, hfree', hgz]
  exact congrArg some (Function.update_comm hne.symm _ _ _)

theorem gzip_moved {t₁ : Entries Path C} (hl : Listed t listing)
    (hfiles : files.Perm (listing.filter fun p => !t.isLink p))
    (hends : ∀ p, (t p).isSome = true → ¬ EndsCompressed p.2)
    (haccepts : ∀ p c, t p = some (.file c) → tools.refuses p.2 = false)
    (hm : Moved addGz (gzipped tools t) (listing.filter t.isLink) t t₁) :
    ∃ t₂, files.foldlM tools.gzipOne t₁ = some t₂ ∧ Moved addGz (gzipped tools t) files t₁ t₂ := by
  have hmem : ∀ f ∈ files, (t f).isSome = true ∧ t.isLink f = false := by
    intro f hf
    obtain ⟨hf, hno⟩ := List.mem_filter.mp (hfiles.mem_iff.mp hf)
    rw [Bool.not_eq_true'] at hno
    exact ⟨((hl.mem_iff f).mp hf).1, hno⟩
  -- the links have left the files and their new names alone
  have hlink : ∀ f ∈ files, ∀ k ∈ listing.filter t.isLink, f ≠ k := by
    intro f hf k hk heq
    have hno := (hmem f hf).2
    rw [heq, List.of_mem_filter hk] at hno
    contradiction
  have hrest : ∀ f ∈ files, t₁ f = t f := fun f hf => hm.rest f (fun k hk =>
    ⟨hlink f hf k hk, addGz_ne hends (hmem f hf).1 k⟩)
  have hfree : ∀ f ∈ files, t₁ (addGz f) = none := by
    intro f hf
    rw [hm.rest (addGz f) (fun k hk => ⟨fun heq => ?_, fun heq => ?_⟩)]
    · exact addGz_free hends f
    · exact addGz_ne hends ((hl.mem_iff k).mp (List.mem_of_mem_filter hk)).1 f heq.symm
    · exact hlink f hf k hk (addGz_injective heq)
  refine foldlM_moved tools.gzipOne (hfiles.nodup_iff.mpr (hl.nodup.filter _))
    (fun a _ b _ h => addGz_injective h) (fun f hf => by rw [hrest f hf]; exact (hmem f hf).1)
    hfree ?_
  intro f hf (t' : Entries Path C) hsame _
  rw [hrest f hf] at hsame
  cases hentry : t f with
  | none =>
      have hsome := (hmem f hf).1
      rw [hentry] at hsome
      contradiction
  | some e =>
      cases e with
      | link q =>
          have hno := (hmem f hf).2
          rw [isLink, hentry] at hno
          contradiction
      | file c =>
          rw [hentry] at hsame
          unfold Tools.gzipOne
          rw [hsame]
          simp [haccepts f c hentry, gzipped, hentry, Entry.map]

/-- What the second hook leaves, if every name has a dot. -/
structure Regzipped (tools : Tools C) (t t₂ : Entries Path C) : Prop where
  names : ∀ p, (t₂ p).isSome = true ↔ ∃ q, (t q).isSome = true ∧ p = addGz q
  map : ∀ q, (t q).isSome = true → t₂ (addGz q) = (t q).map (Entry.map addGz tools.gzip)

theorem recompress_done {stage : Nat} (hstage : 2 ≤ stage) (hl : Listed t listing)
    (hfiles : files.Perm (listing.filter fun p => !t.isLink p))
    (hends : ∀ p, (t p).isSome = true → ¬ EndsCompressed p.2)
    (hdot : ∀ p, (t p).isSome = true → '.' ∈ p.2)
    (haccepts : ∀ p c, t p = some (.file c) → tools.refuses p.2 = false) :
    ∃ t₂, recompress tools stage listing files t = some t₂ ∧ Regzipped tools t t₂ := by
  obtain ⟨t₁, hrelink, hm₁⟩ := relink_moved tools hl hends
  obtain ⟨t₂, hgzip, hm₂⟩ := gzip_moved hl hfiles hends haccepts hm₁
  have hcases : ∀ q, (t q).isSome = true → q ∈ listing.filter t.isLink ∨ q ∈ files := by
    intro q hq
    have hlisted := (hl.mem_iff q).mpr ⟨hq, hdot q hq⟩
    cases hlink : t.isLink q with
    | true => exact .inl (List.mem_filter.mpr ⟨hlisted, hlink⟩)
    | false => exact .inr (hfiles.mem_iff.mpr (List.mem_filter.mpr ⟨hlisted, by simp [hlink]⟩))
  have hfile : ∀ f ∈ files, (t f).isSome = true := fun f hf =>
    ((hl.mem_iff f).mp (List.mem_of_mem_filter (hfiles.mem_iff.mp hf))).1
  have hgz : ∀ q, (t q).isSome = true → gzipped tools t q = Entry.map addGz tools.gzip
      ((t q).getD (.link q)) := by
    intro q hq
    obtain ⟨e, he⟩ := Option.isSome_iff_exists.mp hq
    rw [gzipped, he, Option.map_some, Option.getD_some, Option.getD_some]
  have hnew : ∀ q, (t q).isSome = true → t₂ (addGz q) = some (gzipped tools t q) := by
    intro q hq
    rcases hcases q hq with hmem | hmem
    · rw [hm₂.rest (addGz q) (fun k hk => ⟨fun heq => ?_, fun heq => ?_⟩)]
      · exact hm₁.there q hmem
      · exact addGz_ne hends (hfile k hk) q heq.symm
      · have hlink := List.of_mem_filter hmem
        have hno := List.of_mem_filter (hfiles.mem_iff.mp hk)
        rw [addGz_injective heq] at hlink
        simp [hlink] at hno
    · exact hm₂.there q hmem
  refine ⟨t₂, ?_, fun p => ⟨fun hp => ?_, fun hp => ?_⟩, fun q hq => ?_⟩
  · rw [recompress, if_neg (by omega), hrelink, Option.bind_some]
    exact hgzip
  · rw [hm₂.isSome_iff, hm₁.isSome_iff] at hp
    rcases hp with ⟨q, hq, rfl⟩ | ⟨hno, ⟨q, hq, rfl⟩ | ⟨hnolink, hp⟩⟩
    · exact ⟨q, hfile q hq, rfl⟩
    · exact ⟨q, ((hl.mem_iff q).mp (List.mem_of_mem_filter hq)).1, rfl⟩
    · exact absurd (hcases p hp) (not_or.mpr ⟨hnolink, hno⟩)
  · obtain ⟨q, hq, rfl⟩ := hp
    rw [hnew q hq]
    rfl
  · obtain ⟨e, he⟩ := Option.isSome_iff_exists.mp hq
    rw [hnew q hq, hgz q hq, he, Option.getD_some, Option.map_some]

/-- Texts are kept where links lead to what is there. -/
theorem Regzipped.text {t₂ : Entries Path C} (h : Regzipped tools t t₂)
    (hends : ∀ p, (t p).isSome = true → ¬ EndsCompressed p.2)
    (hdot : ∀ p, (t p).isSome = true → '.' ∈ p.2)
    (hclosed : ∀ k q, (t k).isSome = true → t k = some (.link q) → (t q).isSome = true)
    (hp : (t p).isSome = true) : tools.text t₂ (addGz p) = tools.text t p := by
  rw [Tools.text, read_map (P := fun k => (t k).isSome = true) h.map hclosed hp, Tools.text]
  cases hr : t.read p with
  | none => rfl
  | some r =>
      have hrin : (t r.1).isSome = true := by
        obtain ⟨k, hk, hfile⟩ := Option.bind_eq_some_iff.mp hr
        have hkin := follow_closed (P := fun k => (t k).isSome = true) hclosed hp hk
        split at hfile
        · cases hfile
          exact hkin
        · contradiction
      have hne : r.1.2 ≠ [] := List.ne_nil_of_mem (hdot r.1 hrin)
      have hsuffix : suffix (addGz r.1).2 = gz := suffix_append_gz hne
      have hplain : compressed r.1.2 = false := by
        rw [Bool.eq_false_iff]
        exact fun hc => hends r.1 hrin (endsCompressed_of_compressed hc)
      have hgz : compressed (addGz r.1).2 = true := by simp [compressed, hsuffix]
      rw [Option.map_some, Option.bind_some, Option.bind_some, if_pos hgz, hplain,
        if_neg Bool.false_ne_true, Tools.uncompressed, if_pos hsuffix, tools.gunzip_gzip]

theorem recompress_frame {stage : Nat} (h : recompress tools stage listing files t = some t')
    (hlisting : ∀ k ∈ listing, p ≠ k ∧ p ≠ addGz k) (hfiles : ∀ k ∈ files, p ≠ k ∧ p ≠ addGz k) :
    t' p = t p := by
  unfold recompress at h
  split at h
  · cases h
    rfl
  · obtain ⟨t₁, hrelink, hgzip⟩ := Option.bind_eq_some_iff.mp h
    have hone₁ : ∀ (t : Entries Path C) k t', relinkOne t k = some t' →
        ∀ p, p ≠ k → p ≠ addGz k → t' p = t p := by
      intro t k t' hrun p hk hg
      unfold relinkOne at hrun
      split at hrun
      · rw [withSuffix_gz, symlinkTo] at hrun
        split at hrun
        · contradiction
        · cases hrun
          rw [Function.update_of_ne hg, unlink, Function.update_of_ne hk]
      · cases hrun
        rfl
    have hone₂ : ∀ (t : Entries Path C) k t', tools.gzipOne t k = some t' →
        ∀ p, p ≠ k → p ≠ addGz k → t' p = t p := by
      intro t k t' hrun p hk hg
      unfold Tools.gzipOne at hrun
      split at hrun
      · split at hrun
        · contradiction
        · cases hrun
          rw [move_apply, if_neg hk, if_neg hg]
      · contradiction
    rw [foldlM_frame hone₂ hgzip hfiles,
      foldlM_frame hone₁ hrelink (fun k hk => hlisting k (List.mem_of_mem_filter hk))]

theorem gzip_accepts {t₁ t₂ : Entries Path C} (h : files.foldlM tools.gzipOne t₁ = some t₂) :
    ∀ f ∈ files, tools.refuses f.2 = false := by
  induction files generalizing t₁ with
  | nil => simp
  | cons f files ih =>
      rw [List.foldlM_cons] at h
      obtain ⟨t', hf, hrest⟩ := Option.bind_eq_some_iff.mp h
      have hhead : tools.refuses f.2 = false := by
        unfold Tools.gzipOne at hf
        split at hf
        · split at hf
          · contradiction
          · rename_i hno
            exact Bool.eq_false_iff.mpr hno
        · contradiction
      exact List.forall_mem_cons.mpr ⟨hhead, ih hrest⟩

end Gzipped

/-! ## Both hooks -/

section Both

variable {m : ManTree tools} {listing : List Path}

/-- The links of the plain tree lead to what is there. -/
theorem unpacked_closed (hl : Listed m.tree listing)
    (hm : Moved plain m.unpacked (listing.filter fun p => compressed p.2) m.tree t)
    (hlinks : ∀ p ∈ m.names, ∀ q, m.tree p = some (.link q) →
      compressed p.2 = false ∧ compressed q.2 = false) (k q : Path) (hk : (t k).isSome = true)
    (hlink : t k = some (.link q)) : (t q).isSome = true := by
  obtain ⟨p, hp, rfl⟩ := (unpacked_names hl hm).mp hk
  rw [unpacked_map hl hm hlinks hp] at hlink
  obtain ⟨e, he, heq⟩ := Option.map_eq_some_iff.mp hlink
  cases e with
  | file c => cases heq
  | link q' =>
      cases heq
      exact (unpacked_names hl hm).mpr ⟨q', m.mem_of_link hp he, rfl⟩

theorem roundTrip_of_kept {stage : Nat} (h : ∀ p ∈ m.names, Kept stage m p) :
    RoundTrip stage m := by
  intro listing hl
  have hlinks : ∀ p ∈ m.names, ∀ q, m.tree p = some (.link q) →
      compressed p.2 = false ∧ compressed q.2 = false := fun p hp => (h p hp).link
  obtain ⟨t, hrun, hm⟩ := uncompress_moved hl (fun p hp q hq => (hlinks p hp q hq).1)
  have hplain := unpacked_plain hl hm hlinks
  refine ⟨t, hrun, hplain, fun listing' files hl' hfiles => ?_⟩
  by_cases hstage : 2 ≤ stage
  · have hdot : ∀ p, (t p).isSome = true → '.' ∈ p.2 := by
      intro p hp
      obtain ⟨q, hq, rfl⟩ := (unpacked_names hl hm).mp hp
      exact (h q hq).dot
    have haccepts : ∀ p c, t p = some (.file c) → tools.refuses p.2 = false := by
      intro p c hp
      obtain ⟨q, hq, rfl⟩ := (unpacked_names hl hm).mp (by rw [hp]; rfl)
      rw [unpacked_map hl hm hlinks hq] at hp
      obtain ⟨e, he, heq⟩ := Option.map_eq_some_iff.mp hp
      cases e with
      | file c' => exact (h q hq).file c' he
      | link q' => cases heq
    obtain ⟨t₂, hrun₂, hre⟩ := recompress_done hstage hl' hfiles hplain.ends hdot haccepts
    refine ⟨t₂, hrun₂, fun p => ?_, fun p hp => ?_⟩
    · rw [hre.names]
      constructor
      · intro hp
        obtain ⟨k, hk, rfl⟩ := hp
        obtain ⟨q, hq, rfl⟩ := (unpacked_names hl hm).mp hk
        exact ⟨q, hq, rfl⟩
      · intro hp
        obtain ⟨q, hq, rfl⟩ := hp
        exact ⟨plain q, (unpacked_names hl hm).mpr ⟨q, hq, rfl⟩, rfl⟩
    · rw [hre.text hplain.ends hdot (unpacked_closed hl hm hlinks)
        ((unpacked_names hl hm).mpr ⟨p, hp, rfl⟩)]
      exact hplain.text p hp
  · have hnone : ∀ p, p ∉ m.names := fun p hp => hstage (h p hp).stage
    refine ⟨t, if_pos (by omega), fun p => ?_, fun p hp => absurd hp (hnone p)⟩
    rw [unpacked_names hl hm]
    constructor
    · intro hp
      obtain ⟨q, hq, _⟩ := hp
      exact absurd hq (hnone q)
    · intro hp
      obtain ⟨q, hq, _⟩ := hp
      exact absurd hq (hnone q)

/-- A compressed alias is never removed. -/
theorem not_compressed_of_plain (hrun : uncompress tools listing m.tree = some t)
    (hplain : Plain m t) (hlink : m.tree p = some (.link q)) : compressed p.2 = false := by
  have hstays := uncompress_link hrun hlink
  rw [Bool.eq_false_iff]
  intro hc
  exact hplain.ends p (by rw [hstays]; rfl) (endsCompressed_of_compressed hc)

/-- An alias of a compressed page leads nowhere in the end. -/
theorem target_of_plain (hl : Listed m.tree listing)
    (hm : Moved plain m.unpacked (listing.filter fun p => compressed p.2) m.tree t)
    (hplain : Plain m t) (hp : p ∈ m.names) (hlink : m.tree p = some (.link q))
    (hc : compressed p.2 = false) : compressed q.2 = false := by
  rw [Bool.eq_false_iff]
  intro hqc
  have hgone : t q = none := hm.gone q ((mem_compressed hl).mpr ⟨m.mem_of_link hp hlink, hqc⟩)
  have htp : t p = some (.link q) := by
    rw [unpacked_rest hl hm hp hc]
    exact hlink
  have hno : isLink t q = false := by rw [isLink, hgone]
  have hread : Entries.read t p = none := by
    have hfollow : follow t 40 p = some q := by
      rw [follow, htp]
      exact follow_of_not_link hno _
    rw [Entries.read, hfollow, Option.bind_some, hgone]
  have htext := hplain.text p hp
  have hsome := m.texts p hp
  rw [plain_of_not hc, Tools.text, hread, Option.bind_none] at htext
  rw [← htext] at hsome
  contradiction

theorem kept_of_roundTrip {stage : Nat} (h : RoundTrip stage m) (hp : p ∈ m.names) :
    Kept stage m p := by
  obtain ⟨listing, hl⟩ := m.exists_listed
  obtain ⟨t, hrun, hplain, hsecond⟩ := h listing hl
  have hown : ∀ p ∈ m.names, ∀ q, m.tree p = some (.link q) → compressed p.2 = false :=
    fun p _ q hlink => not_compressed_of_plain hrun hplain hlink
  obtain ⟨t₀, hrun₀, hm⟩ := uncompress_moved hl hown
  rw [hrun, Option.some.injEq] at hrun₀
  subst hrun₀
  have hlinks : ∀ p ∈ m.names, ∀ q, m.tree p = some (.link q) →
      compressed p.2 = false ∧ compressed q.2 = false := fun p hp q hlink =>
    ⟨hown p hp q hlink, target_of_plain hl hm hplain hp hlink (hown p hp q hlink)⟩
  -- some listing for the second hook
  have hnodup : (m.names.map plain).Nodup :=
    (List.nodup_map_iff_inj_on m.nodup).mpr (fun a ha b hb => m.once a ha b hb)
  have hl' : Listed t ((m.names.map plain).filter fun p => decide ('.' ∈ p.2)) := by
    refine ⟨hnodup.filter _, fun k => ?_⟩
    rw [List.mem_filter, unpacked_names hl hm, decide_eq_true_iff, List.mem_map]
    simp only [eq_comm]
  obtain ⟨t', hrun', hgz⟩ := hsecond _ _ hl' (List.Perm.refl _)
  have htp : (t (plain p)).isSome = true := (unpacked_names hl hm).mpr ⟨p, hp, rfl⟩
  -- nothing keeps its plain name
  have hleft : t' (plain p) = t (plain p) → False := by
    intro hsame
    rw [← hsame] at htp
    obtain ⟨q, _, heq⟩ := (hgz.names (plain p)).mp htp
    exact m.plain_ends p hp (heq ▸ endsCompressed_addGz (plain q))
  have hstage : 2 ≤ stage := by
    by_contra hno
    rw [recompress, if_pos (by omega), Option.some.injEq] at hrun'
    exact hleft (by rw [hrun'])
  have hdot : '.' ∈ (plain p).2 := by
    by_contra hno
    refine hleft (recompress_frame hrun' (fun k hk => ?_) (fun k hk => ?_))
    · refine ⟨fun heq => hno (heq ▸ ((hl'.mem_iff k).mp hk).2), fun heq => hno ?_⟩
      rw [heq]
      exact dot_of_endsCompressed (endsCompressed_addGz k)
    · have hk' := List.mem_of_mem_filter hk
      refine ⟨fun heq => hno (heq ▸ ((hl'.mem_iff k).mp hk').2), fun heq => hno ?_⟩
      rw [heq]
      exact dot_of_endsCompressed (endsCompressed_addGz k)
  refine ⟨hstage, hdot, hlinks p hp, fun c hfile => ?_⟩
  rw [recompress, if_neg (by omega)] at hrun'
  obtain ⟨t₁, _, hgzip⟩ := Option.bind_eq_some_iff.mp hrun'
  refine gzip_accepts hgzip (plain p) (List.mem_filter.mpr ⟨(hl'.mem_iff _).mpr ⟨htp, hdot⟩, ?_⟩)
  rw [isLink, unpacked_map hl hm hlinks hp, hfile]
  rfl

/-- Both hooks keep a tree of man pages exactly when, for every page and alias in it, the second
hook runs and meets its name, and no alias is compressed or leads to a compressed name. -/
theorem roundTrip_iff (stage : Nat) (m : ManTree tools) :
    RoundTrip stage m ↔ ∀ p ∈ m.names, Kept stage m p :=
  ⟨fun h _ hp => kept_of_roundTrip h hp, roundTrip_of_kept⟩

end Both

/-- Compression as a letter in front of the text. -/
def tagged : Tools Str where
  gzip := fun c => 'g' :: c
  gunzip := fun c => if c.head? = some 'g' then some (c.drop 1) else none
  bunzip2 := fun c => if c.head? = some 'b' then some (c.drop 1) else none
  gunzip_gzip := fun _ => rfl
  refuses := fun name => gz.isSuffixOf name

def barPage : Path := (["man1".toList], "bar.1.gz".toList)

def fooAlias : Path := (["man1".toList], "foo.1.gz".toList)

/-- A compressed page and an alias of it. -/
def aliased : ManTree tagged where
  tree := fun p =>
    if p = barPage then some (.file "gbar".toList)
    else if p = fooAlias then some (.link barPage)
    else none
  names := [barPage, fooAlias]
  nodup := by decide +kernel
  mem_names := by
    intro p
    by_cases hbar : p = barPage
    · simp [hbar]
    · rw [if_neg hbar]
      by_cases hfoo : p = fooAlias
      · simp [hfoo]
      · simp [hbar, hfoo]
  once := by decide +kernel
  plain_ends := by
    unfold EndsCompressed
    decide +kernel
  texts := by decide +kernel

/-- The alias stays behind under its compressed name. -/
theorem aliased_not_roundTrip :
    ¬ ∀ (C : Type) (tools : Tools C) (m : ManTree tools) (stage : Nat), 2 ≤ stage → RoundTrip stage m := by
  intro h
  obtain ⟨listing, hl⟩ := aliased.exists_listed
  obtain ⟨t, hrun, hplain, _⟩ := h Str tagged aliased 2 (Nat.le_refl 2) listing hl
  have hlink : aliased.tree fooAlias = some (.link barPage) := by decide +kernel
  exact absurd (not_compressed_of_plain hrun hplain hlink) (by decide +kernel)

end Cbuild.Manpages
