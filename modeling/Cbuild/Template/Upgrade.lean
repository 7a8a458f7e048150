import Cbuild.Bulk.StatusFile
import Cbuild.Lib.Replace
import Cbuild.Template.Renamed

/-! # New checksums in a template

`do_prepare_upgrade` of `runner.py` rewrites the text of a template after its sources
have been fetched anew: the checksums in quotes are replaced line by line, from the
line on that begins the declaration.
-/

namespace Cbuild.Upgrade

open Lib Renamed
open Bulk (isSpace)

/-! ## The text -/

/-- Where `str.splitlines` cuts, besides at `\r\n`. -/
def isLineBreak (c : Char) : Bool :=
  let n := c.toNat
  (10 ≤ n && n ≤ 13) || (28 ≤ n && n ≤ 30) || n == 0x85 || n == 0x2028 || n == 0x2029

/-- The lines of a text, `cur` being what has been read of the first one. -/
def splitlinesFrom (cur : Str) : Str → List Str
  | [] => if cur = [] then [] else [cur]
  | '\r' :: '\n' :: s => cur :: splitlinesFrom [] s
  | c :: s => if isLineBreak c then cur :: splitlinesFrom [] s else splitlinesFrom (cur ++ [c]) s

/-- `str.splitlines` -/
def splitlines (text : Str) : List Str := splitlinesFrom [] text

/-- `str.strip` -/
def strip (s : Str) : Str := ((s.dropWhile isSpace).reverse.dropWhile isSpace).reverse

def quoted (ck : Str) : Str := '"' :: ck ++ ['"']

/-- `ln.startswith("pkgrel =")` -/
def isPkgrel (ln : Str) : Bool := "pkgrel =".toList.isPrefixOf ln

/-- `ln.strip().startswith("sha256 =")` -/
def isSha256 (ln : Str) : Bool := "sha256 =".toList.isPrefixOf (strip ln)

/-- One old and new checksum on a line, with the new ones that have been used. -/
def updateCk (s : List Str × Str) (ck : Str × Str) : List Str × Str :=
  if ck.1 = ck.2 ∨ ck.2 ∈ s.1 then s
  else
    let nln := replace (quoted ck.1) (quoted ck.2) s.2
    if s.2 ≠ nln then (ck.2 :: s.1, nln) else s

/-- The lines that are written, from `found_sha` and `sha_replaced` on. -/
def rewriteLines (cks : List (Str × Str)) : Bool → List Str → List Str → List Str
  | _, _, [] => []
  | found, replaced, ln :: lns =>
      if isPkgrel ln then "pkgrel = 0".toList :: rewriteLines cks found replaced lns
      else if found || isSha256 ln then
        let s := cks.foldl updateCk (replaced, ln)
        s.2 :: rewriteLines cks true s.1 lns
      else ln :: rewriteLines cks found replaced lns

/-- The lines of the new text, each of which is ended by a newline. -/
def rewrite (oldsha newsha : List Str) (text : Str) : List Str :=
  rewriteLines (oldsha.zip newsha) false [] (splitlines text)

/-! ## Where the checksums are -/

/-- A checksum of the template, the new one that is to take its place, and the pieces of text
behind it. The quotes around the checksums and those in the text are left out. -/
structure Ck where
  old : Str
  new : Str
  behind : List Str

/-- A line of the declaration: the pieces of text before the first checksum, and the checksums. -/
structure DeclLine where
  head : List Str
  cks : List Ck

namespace DeclLine

/-- The pieces of the line with these checksums. -/
def pieces (l : DeclLine) (names : List Str) : List Str :=
  l.head ++ (List.zipWith (fun v b => v :: b) names (l.cks.map Ck.behind)).flatten

def text (l : DeclLine) (names : List Str) : Str := delimited '"' (l.pieces names)

def pairs (l : DeclLine) : List (Str × Str) := l.cks.map fun ck => (ck.old, ck.new)

end DeclLine

/-- A text: the lines before the declaration of the checksums, those of the declaration, and
those behind it. -/
structure Layout where
  before : List Str
  decl : List DeclLine
  after : List Str

namespace Layout

def rows (t : Layout) : List (List (Str × Str)) := t.decl.map DeclLine.pairs

def oldsha (t : Layout) : List Str := t.rows.flatten.map Prod.fst

def newsha (t : Layout) : List Str := t.rows.flatten.map Prod.snd

def oldLines (t : Layout) : List Str :=
  t.before ++ t.decl.map (fun l => l.text (l.pairs.map Prod.fst)) ++ t.after

/-- The line that stands for one that is not of the declaration. -/
def kept (ln : Str) : Str := if isPkgrel ln then "pkgrel = 0".toList else ln

/-- Each checksum is the new one in its place, and all else is as it was but for the release. -/
def newLines (t : Layout) : List Str :=
  t.before.map kept ++ t.decl.map (fun l => l.text (l.pairs.map Prod.snd)) ++ t.after.map kept

/-- The declaration begins where it is found, and its checksums are what is quoted there of them. -/
structure Wellformed (t : Layout) : Prop where
  before : ∀ ln ∈ t.before, isSha256 ln = false
  first : ∀ l ∈ t.decl.head?, isSha256 (l.text (l.pairs.map Prod.fst)) = true
  notPkgrel : ∀ l ∈ t.decl, isPkgrel (l.text (l.pairs.map Prod.fst)) = false
  head : ∀ l ∈ t.decl, l.head ≠ []
  behind : ∀ l ∈ t.decl, ∀ ck ∈ l.cks, ck.behind ≠ []
  /-- No quotes are in a checksum. -/
  sums : ∀ p ∈ t.rows.flatten, '"' ∉ p.1 ∧ '"' ∉ p.2
  /-- The pieces of text are cut at the quotes, and none of them is a checksum. -/
  texts : ∀ l ∈ t.decl, ∀ s ∈ l.head ++ (l.cks.map Ck.behind).flatten,
    '"' ∉ s ∧ s ∉ t.oldsha ∧ s ∉ t.newsha

end Layout

/-! ## One line -/

/-- The names of a line with the pieces of text between them. -/
def spread (names : List Str) (behind : List (List Str)) : List Str :=
  (List.zipWith (fun v b => v :: b) names behind).flatten

theorem replacePieces_spread (o n : Str) (names : List Str) (behind : List (List Str))
    (hlen : names.length = behind.length) (hbehind : ∀ b ∈ behind, b ≠ [] ∧ o ∉ b) (h : Str)
    (head : List Str) (hhead : o ∉ head) :
    replacePieces o n (h :: head ++ spread names behind) =
      h :: head ++ spread (names.map (rename (o, n))) behind := by
  induction names generalizing behind h head with
  | nil =>
      -- no checksum is left: only text follows
      have hspread : spread [] behind = [] := rfl
      rw [List.map_nil, hspread, List.append_nil]
      clear hspread
      induction head generalizing h with
      | nil => rfl
      | cons x head ih =>
          cases head with
          | nil => rfl
          | cons y head =>
              have hx : x ≠ o := by
                rintro rfl
                exact hhead List.mem_cons_self
              rw [replacePieces, if_neg hx, ih x fun hm => hhead (List.mem_cons_of_mem x hm)]
  | cons v names ih =>
      cases behind with
      | nil => cases hlen
      | cons b behind =>
          have hlen' : names.length = behind.length := Nat.succ.inj hlen
          have hrest : ∀ b ∈ behind, b ≠ [] ∧ o ∉ b := fun c hc =>
            hbehind c (List.mem_cons_of_mem b hc)
          obtain ⟨hb, ho⟩ := hbehind b List.mem_cons_self
          induction head generalizing h with
          | nil =>
              cases b with
              | nil => exact absurd rfl hb
              | cons x b =>
                  have hob : o ∉ b := fun hm => ho (List.mem_cons_of_mem x hm)
                  show replacePieces o n (h :: v :: (x :: b ++ spread names behind)) =
                    h :: rename (o, n) v :: (x :: b ++ spread (names.map (rename (o, n))) behind)
                  by_cases hv : v = o
                  · rw [List.cons_append, replacePieces, if_pos hv, rename, if_pos hv,
                      ← List.cons_append, ih behind hlen' hrest x b hob]
                  · have hmiss := ih behind hlen' hrest v (x :: b) ho
                    rw [List.cons_append, replacePieces, if_neg hv, rename, if_neg hv]
                    exact congrArg (h :: ·) hmiss
          | cons x head ih' =>
              have hx : x ≠ o := by
                rintro rfl
                exact hhead List.mem_cons_self
              have hhead' := ih' x fun hm => hhead (List.mem_cons_of_mem x hm)
              have hsplit : ∃ y r, head ++ spread (v :: names) (b :: behind) = y :: r := by
                cases head with
                | nil => exact ⟨v, b ++ spread names behind, rfl⟩
                | cons y head => exact ⟨y, head ++ spread (v :: names) (b :: behind), rfl⟩
              obtain ⟨y, r, hyr⟩ := hsplit
              have hthree : h :: x :: head ++ spread (v :: names) (b :: behind) =
                  h :: x :: y :: r := by
                rw [← hyr]
                rfl
              have htwo : x :: head ++ spread (v :: names) (b :: behind) = x :: y :: r := by
                rw [← hyr]
                rfl
              rw [htwo] at hhead'
              rw [hthree, replacePieces, if_neg hx, hhead']
              rfl

theorem spread_injective {behind : List (List Str)} {names names' : List Str}
    (hlen : names.length = behind.length) (hlen' : names'.length = behind.length)
    (h : spread names behind = spread names' behind) : names = names' := by
  induction behind generalizing names names' with
  | nil => rw [List.length_eq_zero_iff.mp hlen, List.length_eq_zero_iff.mp hlen']
  | cons b behind ih =>
      match names, names', hlen, hlen', h with
      | v :: names, v' :: names', hlen, hlen', h =>
          have hcons : v :: (b ++ spread names behind) = v' :: (b ++ spread names' behind) := h
          obtain ⟨rfl, hrest⟩ := List.cons.inj hcons
          rw [ih (Nat.succ.inj hlen) (Nat.succ.inj hlen') (List.append_cancel_left hrest)]

theorem mem_spread {names : List Str} {behind : List (List Str)} {s : Str}
    (h : s ∈ spread names behind) : s ∈ names ∨ s ∈ behind.flatten := by
  induction names generalizing behind with
  | nil => cases h
  | cons v names ih =>
      cases behind with
      | nil => cases h
      | cons b behind =>
          have hmem : s ∈ v :: (b ++ spread names behind) := h
          rcases List.mem_cons.mp hmem with rfl | hmem
          · exact Or.inl List.mem_cons_self
          · rcases List.mem_append.mp hmem with hmem | hmem
            · exact Or.inr (List.mem_append_left _ hmem)
            · exact (ih hmem).imp (List.mem_cons_of_mem v) (List.mem_append_right b)

/-- What is asked of a line. -/
structure Fits (l : DeclLine) (names : List Str) : Prop where
  length : names.length = l.cks.length
  names : ∀ v ∈ names, '"' ∉ v
  head : l.head ≠ []
  behind : ∀ ck ∈ l.cks, ck.behind ≠ []
  texts : ∀ s ∈ l.head ++ (l.cks.map Ck.behind).flatten, '"' ∉ s

variable {l : DeclLine} {names names' : List Str}

theorem Fits.notMem (h : Fits l names) : ∀ s ∈ l.pieces names, '"' ∉ s := by
  intro s hs
  rcases List.mem_append.mp hs with hs | hs
  · exact h.texts s (List.mem_append_left _ hs)
  · rcases mem_spread hs with hs | hs
    · exact h.names s hs
    · exact h.texts s (List.mem_append_right _ hs)

theorem Fits.injective (h : Fits l names) (h' : Fits l names') (heq : l.text names = l.text names') :
    names = names' := by
  have hne : ∀ names, l.pieces names ≠ [] := fun names =>
    List.append_ne_nil_of_left_ne_nil h.head _
  have hpieces := delimited_injective h.notMem h'.notMem (hne _) (hne _) heq
  have hlen : ∀ {names}, Fits l names → names.length = (l.cks.map Ck.behind).length := fun h => by
    rw [h.length, List.length_map]
  exact spread_injective (hlen h) (hlen h') (List.append_cancel_left hpieces)

/-- A checksum is replaced where it is one of the line. -/
theorem Fits.replace {o n : Str} (h : Fits l names) (ho : '"' ∉ o)
    (htexts : o ∉ l.head ++ (l.cks.map Ck.behind).flatten) :
    replace (quoted o) (quoted n) (l.text names) = l.text (names.map (rename (o, n))) := by
  have hreplace := replace_delimited n ho h.notMem
  obtain ⟨x, head, hhead⟩ := List.exists_cons_of_ne_nil h.head
  have hpieces : replacePieces o n (l.pieces names) = l.pieces (names.map (rename (o, n))) := by
    unfold DeclLine.pieces
    rw [hhead] at htexts ⊢
    apply replacePieces_spread
    · rw [h.length, List.length_map]
    · intro b hb
      obtain ⟨ck, hck, rfl⟩ := List.mem_map.mp hb
      refine ⟨h.behind ck hck, fun hm => htexts ?_⟩
      exact List.mem_append_right _ (List.mem_flatten.mpr ⟨_, hb, hm⟩)
    · intro hm
      exact htexts (List.mem_append_left _ (List.mem_cons_of_mem x hm))
  rw [hpieces] at hreplace
  exact hreplace

/-- One checksum on a line of the declaration is one pair of names. -/
theorem Fits.updateCk {p : Str × Str} (h : Fits l names) (used : List Str)
    (hp : '"' ∉ p.1 ∧ '"' ∉ p.2) (htexts : p.1 ∉ l.head ++ (l.cks.map Ck.behind).flatten) :
    updateCk (used, l.text names) p = ((pairStep ⟨used, names⟩ p).used,
        l.text (pairStep ⟨used, names⟩ p).names) ∧
      Fits l (pairStep ⟨used, names⟩ p).names := by
  have hrenamed : Fits l (names.map (rename p)) := by
    refine ⟨by rw [List.length_map, h.length], ?_, h.head, h.behind, h.texts⟩
    intro v hv
    obtain ⟨w, hw, rfl⟩ := List.mem_map.mp hv
    unfold rename
    split
    · exact hp.2
    · exact h.names w hw
  unfold Upgrade.updateCk pairStep
  dsimp only
  split
  next => exact ⟨rfl, h⟩
  next hskip =>
    rw [not_or] at hskip
    rw [h.replace hp.1 htexts]
    by_cases hmem : p.1 ∈ names
    · have hchanged : l.text names ≠ l.text (names.map (rename (p.1, p.2))) := by
        intro heq
        have hnames := h.injective hrenamed heq
        rw [hnames] at hmem
        obtain ⟨v, -, hv⟩ := List.mem_map.mp hmem
        unfold rename at hv
        split at hv
        next => exact hskip.1 hv.symm
        next hne => exact hne hv
      rw [if_pos hchanged, if_pos hmem]
      exact ⟨rfl, hrenamed⟩
    · have hsame : names.map (rename (p.1, p.2)) = names := by
        conv_rhs => rw [← List.map_id names]
        apply List.map_congr_left
        intro v hv
        have hne : v ≠ p.1 := fun heq => hmem (heq ▸ hv)
        unfold rename
        rw [if_neg hne]
        rfl
      rw [hsame, if_neg (not_not_intro rfl), if_neg hmem]
      exact ⟨rfl, h⟩

theorem Fits.updateCks {cks : List (Str × Str)} (h : Fits l names) (used : List Str)
    (hcks : ∀ p ∈ cks, ('"' ∉ p.1 ∧ '"' ∉ p.2) ∧ p.1 ∉ l.head ++ (l.cks.map Ck.behind).flatten) :
    cks.foldl Upgrade.updateCk (used, l.text names) = ((lineRun cks ⟨used, names⟩).used,
        l.text (lineRun cks ⟨used, names⟩).names) ∧
      Fits l (lineRun cks ⟨used, names⟩).names := by
  induction cks generalizing used names with
  | nil => exact ⟨rfl, h⟩
  | cons p cks ih =>
      obtain ⟨hp, htexts⟩ := hcks p List.mem_cons_self
      obtain ⟨hstep, hfits⟩ := h.updateCk used hp htexts
      obtain ⟨hrun, hfits'⟩ := ih hfits _ fun q hq => hcks q (List.mem_cons_of_mem p hq)
      rw [List.foldl_cons, hstep]
      exact ⟨hrun, hfits'⟩

/-! ## All lines -/

variable {cks : List (Str × Str)} {t : Layout}

/-- Before the declaration. -/
theorem rewriteLines_before {before : List Str} (h : ∀ ln ∈ before, isSha256 ln = false)
    (used rest : List Str) : rewriteLines cks false used (before ++ rest) =
      before.map Layout.kept ++ rewriteLines cks false used rest := by
  induction before with
  | nil => rfl
  | cons ln before ih =>
      have hrest := ih fun ln' hln' => h ln' (List.mem_cons_of_mem ln hln')
      rw [List.cons_append, rewriteLines, List.map_cons, Layout.kept]
      by_cases hrel : isPkgrel ln = true
      · rw [if_pos hrel, if_pos hrel, hrest]
        rfl
      · have hno : ¬ (false || isSha256 ln) = true := by
          rw [h ln List.mem_cons_self]
          decide
        rw [if_neg hrel, if_neg hrel, if_neg hno, hrest]
        rfl

/-- A line is as it was if no pair has anything to do. -/
theorem updateCk_idle {used : List Str} (h : ∀ p ∈ cks, p.1 = p.2 ∨ p.2 ∈ used) (ln : Str) :
    cks.foldl updateCk (used, ln) = (used, ln) := by
  induction cks with
  | nil => rfl
  | cons p cks ih =>
      have hstep : updateCk (used, ln) p = (used, ln) := if_pos (h p List.mem_cons_self)
      rw [List.foldl_cons, hstep]
      exact ih fun q hq => h q (List.mem_cons_of_mem p hq)

theorem rewriteLines_idle {used : List Str} (h : ∀ p ∈ cks, p.1 = p.2 ∨ p.2 ∈ used) (found : Bool)
    (lns : List Str) : rewriteLines cks found used lns = lns.map Layout.kept := by
  induction lns generalizing found with
  | nil => rfl
  | cons ln lns ih =>
      rw [rewriteLines, List.map_cons, Layout.kept, updateCk_idle h]
      split
      · rw [ih]
      · split
        · exact congrArg (ln :: ·) (ih true)
        · rw [ih]

/-- Once the declaration has been found the lines are renamed one by one. -/
theorem rewriteLines_decl (cks : List (Str × Str)) {decl : List DeclLine}
    (hfits : ∀ l ∈ decl, Fits l (l.pairs.map Prod.fst))
    (hrel : ∀ l ∈ decl, isPkgrel (l.text (l.pairs.map Prod.fst)) = false)
    (hcks : ∀ l ∈ decl, ∀ p ∈ cks, ('"' ∉ p.1 ∧ '"' ∉ p.2) ∧
      p.1 ∉ l.head ++ (l.cks.map Ck.behind).flatten) (used rest : List Str) :
    rewriteLines cks true used (decl.map (fun l => l.text (l.pairs.map Prod.fst)) ++ rest) =
      List.zipWith DeclLine.text decl (linesRun cks used (olds (decl.map DeclLine.pairs))).2 ++
        rewriteLines cks true (linesRun cks used (olds (decl.map DeclLine.pairs))).1 rest ∧
      List.Forall₂ Fits decl (linesRun cks used (olds (decl.map DeclLine.pairs))).2 := by
  induction decl generalizing used with
  | nil => exact ⟨rfl, List.Forall₂.nil⟩
  | cons l decl ih =>
      have hl := List.mem_cons_self (a := l) (l := decl)
      obtain ⟨hline, hline'⟩ := (hfits l hl).updateCks used (hcks l hl)
      obtain ⟨hrest, hrest'⟩ := ih (fun m hm => hfits m (List.mem_cons_of_mem l hm))
        (fun m hm => hrel m (List.mem_cons_of_mem l hm))
        (fun m hm => hcks m (List.mem_cons_of_mem l hm))
        (lineRun cks ⟨used, l.pairs.map Prod.fst⟩).used
      refine ⟨?_, List.Forall₂.cons hline' hrest'⟩
      rw [List.map_cons, List.cons_append, rewriteLines, hrel l hl, if_neg (by decide), Bool.true_or,
        if_pos rfl, hline]
      exact congrArg (_ :: ·) hrest

/-- For the line that begins the declaration it makes no difference that it is the first. -/
theorem rewriteLines_first {used : List Str} {ln : Str} {lns : List Str} (h : isSha256 ln = true)
    (hrel : isPkgrel ln = false) :
    rewriteLines cks false used (ln :: lns) = rewriteLines cks true used (ln :: lns) := by
  rw [rewriteLines, rewriteLines, h, hrel]
  rfl

theorem texts_injective {decl : List DeclLine} {ns ns' : List (List Str)}
    (h : List.Forall₂ Fits decl ns) (h' : List.Forall₂ Fits decl ns')
    (heq : List.zipWith DeclLine.text decl ns = List.zipWith DeclLine.text decl ns') : ns = ns' := by
  induction h generalizing ns' with
  | nil =>
      cases h'
      rfl
  | cons hfits _ ih =>
      cases h' with
      | cons hfits' hrest' =>
          obtain ⟨hhead, hrest⟩ := List.cons.inj heq
          rw [hfits.injective hfits' hhead, ih hrest' hrest]

namespace Layout

theorem zip_rows (t : Layout) : t.oldsha.zip t.newsha = t.rows.flatten := by
  unfold oldsha newsha
  generalize t.rows.flatten = ps
  induction ps with
  | nil => rfl
  | cons p ps ih =>
      rw [List.map_cons, List.map_cons, List.zip_cons_cons, ih]

theorem Wellformed.fits (h : t.Wellformed) {l : DeclLine} (hl : l ∈ t.decl) (f : Str × Str → Str)
    (hf : ∀ p ∈ l.pairs, '"' ∉ f p) : Fits l (l.pairs.map f) := by
  refine ⟨by simp [DeclLine.pairs], ?_, h.head l hl, h.behind l hl, fun s hs => (h.texts l hl s hs).1⟩
  intro v hv
  obtain ⟨p, hp, rfl⟩ := List.mem_map.mp hv
  exact hf p hp

theorem mem_rows {l : DeclLine} (hl : l ∈ t.decl) {p : Str × Str} (hp : p ∈ l.pairs) :
    p ∈ t.rows.flatten := List.mem_flatten.mpr ⟨l.pairs, List.mem_map_of_mem hl, hp⟩

theorem Wellformed.fits_old (h : t.Wellformed) {l : DeclLine} (hl : l ∈ t.decl) :
    Fits l (l.pairs.map Prod.fst) :=
  h.fits hl Prod.fst fun p hp => (h.sums p (mem_rows hl hp)).1

theorem Wellformed.fits_news (h : t.Wellformed) : List.Forall₂ Fits t.decl (news t.rows) := by
  unfold news rows
  rw [List.map_map, List.forall₂_map_right_iff]
  apply List.forall₂_same.mpr
  intro l hl
  exact h.fits hl Prod.snd fun p hp => (h.sums p (mem_rows hl hp)).2

theorem zipWith_news (t : Layout) : List.zipWith DeclLine.text t.decl (news t.rows) =
    t.decl.map fun l => l.text (l.pairs.map Prod.snd) := by
  unfold news rows
  rw [List.map_map, List.zipWith_map_right, List.zipWith_self]
  rfl

/-- Only the lines of the declaration are written anew, and what comes after them. -/
theorem Wellformed.rewrite_eq (h : t.Wellformed) {text : Str} (htext : splitlines text = t.oldLines) :
    List.Forall₂ Fits t.decl (linesRun t.rows.flatten [] (olds t.rows)).2 ∧
      rewrite t.oldsha t.newsha text = t.before.map kept ++
        (List.zipWith DeclLine.text t.decl (linesRun t.rows.flatten [] (olds t.rows)).2 ++
          rewriteLines t.rows.flatten t.decl.isEmpty.not
            (linesRun t.rows.flatten [] (olds t.rows)).1 t.after) := by
  have hcks : ∀ l ∈ t.decl, ∀ p ∈ t.rows.flatten, ('"' ∉ p.1 ∧ '"' ∉ p.2) ∧
      p.1 ∉ l.head ++ (l.cks.map Ck.behind).flatten := by
    intro l hl p hp
    refine ⟨h.sums p hp, ?_⟩
    intro hmem
    exact (h.texts l hl p.1 hmem).2.1 (List.mem_map_of_mem hp)
  have hrun := rewriteLines_decl t.rows.flatten (fun l hl => h.fits_old hl) h.notPkgrel hcks []
    t.after
  refine ⟨hrun.2, ?_⟩
  unfold rewrite
  rw [htext, t.zip_rows, oldLines, List.append_assoc, rewriteLines_before h.before]
  cases hdecl : t.decl with
  | nil =>
      have hrows : t.rows = [] := by
        unfold rows
        rw [hdecl]
        rfl
      rw [hrows]
      rfl
  | cons l ds =>
      have hl : l ∈ t.decl := by
        rw [hdecl]
        exact List.mem_cons_self
      have hfirst : isSha256 (l.text (l.pairs.map Prod.fst)) = true :=
        h.first l (by rw [hdecl]; rfl)
      rw [hdecl, List.map_cons, List.cons_append] at hrun
      rw [List.map_cons, List.cons_append, rewriteLines_first hfirst (h.notPkgrel l hl), hrun.1]
      have hsome : (!t.decl.isEmpty) = true := by
        rw [hdecl]
        rfl
      rw [← hdecl, hsome]
      rfl

end Layout

/-- Each checksum becomes the new one in its place and all other lines are kept, exactly if no
checksums get into each other's way. -/
theorem rewrite_iff (t : Layout) (h : t.Wellformed) (text : Str)
    (htext : splitlines text = t.oldLines) :
    rewrite t.oldsha t.newsha text = t.newLines ↔ RowsOk t.rows := by
  obtain ⟨hfits, hout⟩ := h.rewrite_eq htext
  rw [hout, Layout.newLines, List.append_assoc, List.append_cancel_left_eq, ← t.zipWith_news]
  constructor
  · intro heq
    have hlen : (List.zipWith DeclLine.text t.decl (linesRun t.rows.flatten [] (olds t.rows)).2).length =
        (List.zipWith DeclLine.text t.decl (news t.rows)).length := by
      rw [List.length_zipWith, List.length_zipWith, ← hfits.length_eq, ← h.fits_news.length_eq]
    have hnames := texts_injective hfits h.fits_news (List.append_inj heq hlen).1
    exact (linesRun_iff t.rows).mp hnames
  · intro hok
    have hnames : (linesRun t.rows.flatten [] (olds t.rows)).2 = news t.rows :=
      (linesRun_iff t.rows).mpr hok
    have hidle : ∀ p ∈ t.rows.flatten, p.1 = p.2 ∨
        p.2 ∈ (linesRun t.rows.flatten [] (olds t.rows)).1 := by
      intro p hp
      by_cases hne : p.1 = p.2
      · exact Or.inl hne
      · exact Or.inr (linesRun_used hok p hp hne)
    rw [hnames, rewriteLines_idle hidle]

/-- A declaration of two checksums, one on a line. -/
def twoSums (old old' new new' : Str) : Layout where
  before := ["pkgver = \"1.0\"".toList, "pkgrel = 3".toList]
  decl := [⟨["sha256 = [".toList], []⟩, ⟨["    ".toList], [⟨old, new, [",".toList]⟩]⟩,
    ⟨["    ".toList], [⟨old', new', [",".toList]⟩]⟩, ⟨["]".toList], []⟩]
  after := ["# check".toList]

def sumOf (c : Char) : Str := List.replicate 64 c

theorem twoSums_rewrite : rewrite (twoSums (sumOf 'a') (sumOf 'b') (sumOf 'c') (sumOf 'd')).oldsha
      (twoSums (sumOf 'a') (sumOf 'b') (sumOf 'c') (sumOf 'd')).newsha
      ((twoSums (sumOf 'a') (sumOf 'b') (sumOf 'c') (sumOf 'd')).oldLines.flatMap (· ++ ['\n'])) =
        (twoSums (sumOf 'a') (sumOf 'b') (sumOf 'c') (sumOf 'd')).newLines ↔
    RowsOk (twoSums (sumOf 'a') (sumOf 'b') (sumOf 'c') (sumOf 'd')).rows :=
  rewrite_iff _ ⟨by decide +kernel, by decide +kernel, by decide +kernel, by decide +kernel,
    by decide +kernel, by decide +kernel, by decide +kernel⟩ _ (by decide +kernel)

/-- Two sources that change places. -/
theorem swapped_not_rewritten : ¬ ∀ t : Layout, t.Wellformed → ∀ text,
    splitlines text = t.oldLines → rewrite t.oldsha t.newsha text = t.newLines := by
  intro h
  have hswapped := h (twoSums (sumOf 'a') (sumOf 'b') (sumOf 'b') (sumOf 'a'))
    ⟨by decide +kernel, by decide +kernel, by decide +kernel, by decide +kernel,
      by decide +kernel, by decide +kernel, by decide +kernel⟩
    ((twoSums (sumOf 'a') (sumOf 'b') (sumOf 'b') (sumOf 'a')).oldLines.flatMap (· ++ ['\n']))
    (by decide +kernel)
  revert hswapped
  decide +kernel

end Cbuild.Upgrade
