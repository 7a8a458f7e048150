import Cbuild.Bulk.Run

/-! # The status file

The lines a run writes, and `_collect_status`, which reads such a file back as a
list of names to build.
-/

namespace Cbuild.Bulk

/-- The characters `str.split` splits at. -/
def isSpace (c : Char) : Bool :=
  let n := c.toNat
  (9 ≤ n && n ≤ 13) || (28 ≤ n && n ≤ 32) || n == 0x85 || n == 0xa0 || n == 0x1680 ||
    (0x2000 ≤ n && n ≤ 0x200a) || n == 0x2028 || n == 0x2029 || n == 0x202f || n == 0x205f ||
    n == 0x3000

/-- Where a text file read line by line is cut. -/
def isLineEnd (c : Char) : Bool := c == '\n' || c == '\r'

/-- `str.split()`. -/
def pySplit (s : Str) : List Str := (s.splitOnP isSpace).filter (· ≠ [])

/-- The lines of a text file, up to blank ones. -/
def fileLines (inf : Str) : List Str := inf.splitOnP isLineEnd

def Status.word : Status → Str
  | .missing => "missing".toList
  | .invalid => "invalid".toList
  | .skipped => "skipped".toList
  | .parse => "parse".toList
  | .broken => "broken".toList
  | .done => "done".toList
  | .ok => "ok".toList
  | .failed => "failed".toList

/-- `f"{pn} {st}\n"`. -/
def statusLine (a : Str × Status) : Str := a.1 ++ ' ' :: (a.2.word ++ ['\n'])

def statusText (status : List (Str × Status)) : Str := status.flatMap statusLine

/-- The words that keep a name from being collected. -/
def ignoredWords : List Str :=
  ["broken".toList, "ok".toList, "invalid".toList, "missing".toList]

def collectLine (pkgs : Finset Str) (sline : Str) : Finset Str :=
  match pySplit sline with
  | [] => pkgs
  | [pn] => insert pn pkgs
  | pn :: st :: _ => if ignoredWords.contains st then pkgs else insert pn pkgs

/-- `_collect_status`. -/
def collectStatus (inf : Str) : Finset Str := (fileLines inf).foldl collectLine ∅

/-- A name that is one word to `str.split`. -/
def IsWord (pn : Str) : Prop := pn ≠ [] ∧ ∀ c ∈ pn, isSpace c = false

theorem isSpace_of_isLineEnd {c : Char} (h : isLineEnd c = true) : isSpace c = true := by
  simp only [isLineEnd, Bool.or_eq_true, beq_iff_eq] at h
  rcases h with rfl | rfl
  · decide
  · decide

theorem IsWord.not_lineEnd {pn : Str} (h : IsWord pn) (c : Char) (hc : c ∈ pn) :
    isLineEnd c = false := by
  refine Bool.eq_false_iff.mpr fun hend => ?_
  have hspace := isSpace_of_isLineEnd hend
  rw [h.2 c hc] at hspace
  contradiction

/-- Being a word can be checked character by character. -/
theorem isWord_iff (pn : Str) : IsWord pn ↔ (pn ≠ [] ∧ pn.all (fun c => !isSpace c) = true) := by
  simp [IsWord]

theorem Status.isWord (st : Status) : IsWord st.word := by
  rw [isWord_iff]
  cases st <;> decide

/-- A line splits into the name and the word. -/
theorem pySplit_line {pn st : Str} (hpn : IsWord pn) (hst : IsWord st) :
    pySplit (pn ++ ' ' :: st) = [pn, st] := by
  rw [pySplit, List.splitOnP_append_cons_of_forall_mem hpn.2 ' ' rfl,
    List.splitOnP_eq_singleton hst.2]
  simp [hpn.1, hst.1]

/-- The lines of a status file are the lines written to it. -/
theorem fileLines_statusText (status : List (Str × Status)) (h : ∀ a ∈ status, IsWord a.1) :
    fileLines (statusText status) = status.map (fun a => a.1 ++ ' ' :: a.2.word) ++ [[]] := by
  induction status with
  | nil => rfl
  | cons a status ih =>
      have ha := h a (List.mem_cons_self ..)
      have hline : ∀ c ∈ a.1 ++ ' ' :: a.2.word, isLineEnd c = false := by
        intro c hc
        rcases List.mem_append.mp hc with hc | hc
        · exact ha.not_lineEnd c hc
        · rcases List.mem_cons.mp hc with rfl | hc
          · decide
          · exact a.2.isWord.not_lineEnd c hc
      have htext : statusText (a :: status) =
          (a.1 ++ ' ' :: a.2.word) ++ '\n' :: statusText status := by
        simp [statusText, statusLine]
      rw [htext, fileLines, List.splitOnP_append_cons_of_forall_mem hline '\n' rfl]
      rw [fileLines] at ih
      rw [ih fun b hb => h b (List.mem_cons_of_mem a hb)]
      rfl

/-- The states a line keeps for another run. -/
def Status.Collected (st : Status) : Prop :=
  st = .skipped ∨ st = .parse ∨ st = .failed ∨ st = .done

theorem contains_ignoredWords_iff (st : Status) :
    ignoredWords.contains st.word = true ↔ ¬ st.Collected := by
  unfold Status.Collected
  cases st <;> decide

theorem mem_foldl_collectLine (status : List (Str × Status)) (h : ∀ a ∈ status, IsWord a.1)
    (pkgs : Finset Str) (n : Str) :
    n ∈ (status.map fun a => a.1 ++ ' ' :: a.2.word).foldl collectLine pkgs ↔
      n ∈ pkgs ∨ ∃ a ∈ status, a.1 = n ∧ a.2.Collected := by
  induction status generalizing pkgs with
  | nil => simp
  | cons a status ih =>
      have ha := h a (List.mem_cons_self ..)
      have hstep : collectLine pkgs (a.1 ++ ' ' :: a.2.word) =
          if ignoredWords.contains a.2.word then pkgs else insert a.1 pkgs := by
        rw [collectLine, pySplit_line ha a.2.isWord]
      rw [List.map_cons, List.foldl_cons, ih fun b hb => h b (List.mem_cons_of_mem a hb), hstep]
      rw [List.exists_mem_cons_iff]
      by_cases hign : ignoredWords.contains a.2.word = true
      · have hno := (contains_ignoredWords_iff a.2).mp hign
        rw [if_pos hign]
        simp [hno]
      · have hyes : a.2.Collected :=
          not_not.mp (fun hc => hign ((contains_ignoredWords_iff a.2).mpr hc))
        rw [if_neg hign, Finset.mem_insert, or_comm (a := n = a.1), or_assoc, eq_comm (a := n)]
        simp [hyes]

/-- Reading a status file back collects the names with a word that is not ignored. -/
theorem mem_collectStatus (status : List (Str × Status)) (h : ∀ a ∈ status, IsWord a.1)
    (n : Str) :
    n ∈ collectStatus (statusText status) ↔ ∃ a ∈ status, a.1 = n ∧ a.2.Collected := by
  rw [collectStatus, fileLines_statusText status h, List.foldl_append, List.foldl_cons,
    List.foldl_nil]
  have hblank : ∀ pkgs, collectLine pkgs [] = pkgs := fun _ => rfl
  rw [hblank, mem_foldl_collectLine status h]
  simp

end Cbuild.Bulk
