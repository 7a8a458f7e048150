import Mathlib.Data.List.Basic

/-! # Quoting for the shell and splitting by it

`quote` and `join` are those of Python's `shlex`; `shellWords` is what a POSIX
shell makes of a line that is one simple command, and has no result where the
shell would do more than split the line (an operator, an expansion, a pattern) or
where a quotation does not end.
-/

namespace Cbuild.Lib

/-! ## `shlex` -/

/-- What needs no quotes: ASCII letters, digits and the signs that mean nothing to a shell. -/
def isShellSafe (c : Char) : Bool :=
  ('a' ≤ c && c ≤ 'z') || ('A' ≤ c && c ≤ 'Z') || ('0' ≤ c && c ≤ '9') ||
    ['_', '@', '%', '+', '=', ':', ',', '.', '/', '-'].contains c

/-- A single quote is put between double quotes, outside the single ones. -/
def escapeQuote (c : Char) : List Char :=
  if c = '\'' then ['\'', '"', '\'', '"', '\''] else [c]

def shellQuote (s : List Char) : List Char :=
  if s = [] then ['\'', '\'']
  else if s.all isShellSafe then s
  else '\'' :: (s.flatMap escapeQuote ++ ['\''])

def shellJoin : List (List Char) → List Char
  | [] => []
  | [w] => shellQuote w
  | w :: ws => shellQuote w ++ ' ' :: shellJoin ws

theorem shellJoin_cons_cons (w v : List Char) (ws : List (List Char)) :
    shellJoin (w :: v :: ws) = shellQuote w ++ ' ' :: shellJoin (v :: ws) := by
  rw [shellJoin]
  exact List.cons_ne_nil v ws

/-! ## The shell -/

inductive Quotation
  | plain | single | double

def isBlank (c : Char) : Bool := c = ' ' || c = '\t'

/-- What the shell gives a meaning to outside quotes, apart from blanks, quotes and `\`. -/
def isShellMeta (c : Char) : Bool :=
  ['|', '&', ';', '<', '>', '(', ')', '$', '`', '\n', '*', '?', '['].contains c

/-- What has a meaning only where a word begins. -/
def wordOpeners : List Char := ['#', '~']

/-- The words of a line, with the one that has begun. Words that are reserved where a command
begins are not told apart. -/
def splitWords : Quotation → Option (List Char) → List Char → Option (List (List Char))
  | .plain, word, [] => some word.toList
  | .plain, word, '\\' :: c :: line => splitWords .plain (some (word.getD [] ++ [c])) line
  | .plain, word, c :: line =>
      if isBlank c then (splitWords .plain none line).map (word.toList ++ ·)
      else if c = '\'' then splitWords .single (some (word.getD [])) line
      else if c = '"' then splitWords .double (some (word.getD [])) line
      else if isShellMeta c || (word.isNone && wordOpeners.contains c) then none
      else splitWords .plain (some (word.getD [] ++ [c])) line
  | .single, _, [] => none
  | .single, word, c :: line =>
      if c = '\'' then splitWords .plain word line
      else splitWords .single (some (word.getD [] ++ [c])) line
  | .double, _, [] => none
  | .double, word, '\\' :: c :: line =>
      if ['$', '`', '"', '\\'].contains c then
        splitWords .double (some (word.getD [] ++ [c])) line
      else splitWords .double (some (word.getD [] ++ ['\\', c])) line
  | .double, word, c :: line =>
      if c = '"' then splitWords .plain word line
      else if c = '$' ∨ c = '`' then none
      else splitWords .double (some (word.getD [] ++ [c])) line

def shellWords (line : List Char) : Option (List (List Char)) := splitWords .plain none line

/-! ## Words that were quoted come back -/

variable {w s line : List Char}

/-- What `shellWords` looks for outside quotes. -/
def shellSpecial : List Char :=
  ['\\', ' ', '\t', '\'', '"', '|', '&', ';', '<', '>', '(', ')', '$', '`', '\n', '*', '?', '[']

theorem not_safe_of_mem {c : Char} (h : c ∈ shellSpecial) : isShellSafe c = false := by
  have hall : shellSpecial.all (fun c => !isShellSafe c) = true := by decide
  simpa using List.all_eq_true.mp hall c h

theorem not_safe_of_opener {c : Char} (h : c ∈ wordOpeners) : isShellSafe c = false := by
  have hall : wordOpeners.all (fun c => !isShellSafe c) = true := by decide
  simpa using List.all_eq_true.mp hall c h

theorem splitWords_ordinary {c : Char} (h : c ∉ shellSpecial) (word : Option (List Char))
    (hword : word = none → c ∉ wordOpeners) :
    splitWords .plain word (c :: line) =
      splitWords .plain (some (word.getD [] ++ [c])) line := by
  simp only [shellSpecial, List.mem_cons, List.not_mem_nil, or_false, not_or] at h
  rw [splitWords]
  · cases word with
    | none => simp [h, hword rfl, isBlank, isShellMeta]
    | some w => simp [h, isBlank, isShellMeta]
  · intro d line' hd _
    exact h.1 hd

theorem splitWords_safe {c : Char} (h : isShellSafe c = true) (word : Option (List Char)) :
    splitWords .plain word (c :: line) =
      splitWords .plain (some (word.getD [] ++ [c])) line := by
  refine splitWords_ordinary ?_ word fun _ => ?_
  · intro hmem
    rw [not_safe_of_mem hmem] at h
    contradiction
  · intro hmem
    rw [not_safe_of_opener hmem] at h
    contradiction

/-- Characters that are not special go on with the word that has begun. -/
theorem splitWords_bare (h : ∀ c ∈ s, c ∉ shellSpecial) (w : List Char) :
    splitWords .plain (some w) (s ++ line) = splitWords .plain (some (w ++ s)) line := by
  induction s generalizing w with
  | nil => simp
  | cons c s ih =>
      rw [List.forall_mem_cons] at h
      rw [List.cons_append, splitWords_ordinary h.1 (some w) nofun, ih h.2]
      simp

theorem not_special_of_allSafe (h : s.all isShellSafe = true) : ∀ c ∈ s, c ∉ shellSpecial := by
  intro c hc hmem
  have hsafe := List.all_eq_true.mp h c hc
  rw [not_safe_of_mem hmem] at hsafe
  contradiction

theorem splitWords_allSafe (h : s.all isShellSafe = true) (w : List Char) :
    splitWords .plain (some w) (s ++ line) = splitWords .plain (some (w ++ s)) line :=
  splitWords_bare (not_special_of_allSafe h) w

theorem splitWords_escaped (w : List Char) :
    splitWords .single (some w) (s.flatMap escapeQuote ++ '\'' :: line) =
      splitWords .plain (some (w ++ s)) line := by
  induction s generalizing w with
  | nil => simp [splitWords]
  | cons c s ih =>
      by_cases hc : c = '\''
      · subst hc
        simp [escapeQuote, splitWords, isBlank, ih]
      · simp [escapeQuote, splitWords, hc, ih]

/-- What was quoted goes on with the word. -/
theorem splitWords_quoted (s line : List Char) (word : Option (List Char)) :
    splitWords .plain word (shellQuote s ++ line) =
      splitWords .plain (some (word.getD [] ++ s)) line := by
  unfold shellQuote
  split
  · rename_i h
    subst h
    simp [splitWords, isBlank]
  split
  · rename_i hne hsafe
    cases s with
    | nil => exact absurd rfl hne
    | cons c s =>
        rw [List.all_cons, Bool.and_eq_true] at hsafe
        rw [List.cons_append, splitWords_safe hsafe.1, splitWords_allSafe hsafe.2,
          List.append_assoc, List.singleton_append]
  · rw [List.cons_append, List.append_assoc, List.singleton_append]
    rw [← splitWords_escaped]
    simp [splitWords, isBlank]

/-- A text that the shell reads as one word, whatever comes after it. -/
def ReadsAs (text w : List Char) : Prop :=
  ∀ line, splitWords .plain none (text ++ line) = splitWords .plain (some w) line

theorem readsAs_quote (s : List Char) : ReadsAs (shellQuote s) s :=
  fun line => splitWords_quoted s line none

/-- Texts of words, with blanks between them. -/
theorem shellWords_intercalate {ws : List (List Char)} {text : List Char → List Char}
    (h : ∀ w ∈ ws, ReadsAs (text w) w) : shellWords ([' '].intercalate (ws.map text)) = some ws := by
  unfold shellWords
  induction ws with
  | nil => rfl
  | cons w ws ih =>
      rw [List.forall_mem_cons] at h
      cases ws with
      | nil =>
          have hread := h.1 []
          rw [List.append_nil] at hread
          rw [List.map_singleton, List.intercalate_singleton, hread]
          rfl
      | cons v ws =>
          have hrest := ih h.2
          rw [List.map_cons] at hrest
          rw [List.map_cons, List.map_cons, List.intercalate_cons_cons, List.append_assoc, h.1]
          simp [splitWords, isBlank, hrest]

theorem shellJoin_eq (ws : List (List Char)) :
    shellJoin ws = [' '].intercalate (ws.map shellQuote) := by
  induction ws with
  | nil => rfl
  | cons w ws ih =>
      cases ws with
      | nil => rw [shellJoin, List.map_singleton, List.intercalate_singleton]
      | cons v ws =>
          have hmap : (w :: v :: ws).map shellQuote =
              shellQuote w :: shellQuote v :: ws.map shellQuote := rfl
          rw [shellJoin_cons_cons, ih, hmap, List.intercalate_cons_cons, List.append_assoc]
          rfl

theorem shellWords_join (ws : List (List Char)) : shellWords (shellJoin ws) = some ws := by
  rw [shellJoin_eq]
  exact shellWords_intercalate (fun w _ => readsAs_quote w)

/-! ## No character comes from nowhere -/

theorem count_escapeQuote {d : Char} (hd : d ≠ '\'') (hd' : d ≠ '"') (s : List Char) :
    (s.flatMap escapeQuote).count d = s.count d := by
  induction s with
  | nil => rfl
  | cons c s ih =>
      rw [List.flatMap_cons, List.count_append, ih, List.count_cons]
      unfold escapeQuote
      split
      · rename_i hc
        subst hc
        simp [hd.symm, hd'.symm]
      · rw [List.count_singleton, Nat.add_comm]

theorem count_quote {d : Char} (hd : d ≠ '\'') (hd' : d ≠ '"') (s : List Char) :
    (shellQuote s).count d = s.count d := by
  unfold shellQuote
  split
  · rename_i h
    subst h
    simp [hd.symm]
  split
  · rfl
  · simp [count_escapeQuote hd hd', hd.symm]

theorem count_join {d : Char} (hd : d ≠ '\'') (hd' : d ≠ '"') (hd'' : d ≠ ' ')
    (ws : List (List Char)) : (shellJoin ws).count d = ws.flatten.count d := by
  induction ws with
  | nil => rfl
  | cons w ws ih =>
      cases ws with
      | nil => simp [shellJoin, count_quote hd hd']
      | cons v ws =>
          rw [shellJoin_cons_cons, List.count_append, count_quote hd hd', List.count_cons, ih,
            List.flatten_cons, List.count_append]
          simp [hd''.symm]

/-- Splitting a line takes nothing but blanks, quotes and backslashes away. -/
theorem splitWords_perm (q : Quotation) (word : Option (List Char)) (s : List Char)
    {ws : List (List Char)} (h : splitWords q word s = some ws) :
    ∃ taken : List Char, (∀ c ∈ taken, c ∈ [' ', '\t', '\'', '"', '\\']) ∧
      (ws.flatten ++ taken).Perm (word.getD [] ++ s) := by
  simp only [List.perm_iff_count, List.count_append]
  fun_induction splitWords q word s generalizing ws with
  | case1 word =>
      cases h
      refine ⟨[], by simp, fun d => ?_⟩
      cases word <;> simp
  | case3 word c line _ hblank ih =>
      obtain ⟨rest, hrest, rfl⟩ := Option.map_eq_some_iff.mp h
      obtain ⟨taken, htaken, hcount⟩ := ih hrest
      have hc : c ∈ [' ', '\t', '\'', '"', '\\'] := by
        rw [isBlank, Bool.or_eq_true, decide_eq_true_eq, decide_eq_true_eq] at hblank
        rcases hblank with rfl | rfl <;> decide
      refine ⟨c :: taken, List.forall_mem_cons.mpr ⟨hc, htaken⟩, fun d => ?_⟩
      have hd := hcount d
      rw [List.flatten_append, List.count_append, List.count_cons, List.count_cons]
      cases word with
      | none => simp at hd ⊢; omega
      | some w => simp at hd ⊢; omega
  | case6 | case8 | case11 | case15 => nomatch h
  | case7 | case10 | case13 | case16 =>
      rename_i ih
      obtain ⟨taken, htaken, hcount⟩ := ih h
      refine ⟨taken, htaken, fun d => ?_⟩
      have hd := hcount d
      simp only [Option.getD_some, List.count_append, List.count_cons, List.count_nil] at hd ⊢
      omega
  | case2 | case12 =>
      rename_i ih
      obtain ⟨taken, htaken, hcount⟩ := ih h
      refine ⟨'\\' :: taken, List.forall_mem_cons.mpr ⟨by decide, htaken⟩, fun d => ?_⟩
      have hd := hcount d
      simp only [Option.getD_some, List.count_append, List.count_cons, List.count_nil] at hd ⊢
      omega
  | case4 | case9 =>
      rename_i ih
      obtain ⟨taken, htaken, hcount⟩ := ih h
      refine ⟨'\'' :: taken, List.forall_mem_cons.mpr ⟨by decide, htaken⟩, fun d => ?_⟩
      have hd := hcount d
      simp only [Option.getD_some, List.count_cons] at hd ⊢
      omega
  | case5 | case14 =>
      rename_i ih
      obtain ⟨taken, htaken, hcount⟩ := ih h
      refine ⟨'"' :: taken, List.forall_mem_cons.mpr ⟨by decide, htaken⟩, fun d => ?_⟩
      have hd := hcount d
      simp only [Option.getD_some, List.count_cons] at hd ⊢
      omega

theorem count_shellWords (d : Char) {ws : List (List Char)} (h : shellWords s = some ws) :
    ws.flatten.count d ≤ s.count d := by
  obtain ⟨taken, -, hperm⟩ := splitWords_perm .plain none s h
  have hcount := hperm.count_eq d
  rw [List.count_append] at hcount
  exact hcount ▸ Nat.le_add_right _ _

theorem count_shellWords_eq {d : Char} (hd : d ∉ [' ', '\t', '\'', '"', '\\'])
    {ws : List (List Char)} (h : shellWords s = some ws) : ws.flatten.count d = s.count d := by
  obtain ⟨taken, htaken, hperm⟩ := splitWords_perm .plain none s h
  have hcount := hperm.count_eq d
  rw [List.count_append, List.count_eq_zero_of_not_mem fun hmem => hd (htaken d hmem)] at hcount
  exact hcount

/-! ## Words that were not quoted -/

/-- The first word ends at a blank. With what it had before, it is as long as what it was read
from where that was plain and without special characters, and shorter otherwise. -/
def FirstWord (q : Quotation) (before : Nat) (s w : List Char) (ws : List (List Char)) : Prop :=
  ∃ a c b, s = a ++ c :: b ∧ isBlank c = true ∧ shellWords b = some ws ∧
    (w.length < before + a.length ∨
      q = .plain ∧ w.length = before + a.length ∧ ∀ d ∈ a, d ∉ shellSpecial)

section

variable {q q' : Quotation} {n n' : Nat} {c : Char} {ws : List (List Char)}

/-- A character that adds nothing, or that is in a quotation. -/
theorem FirstWord.cons (h : FirstWord q' n' s w ws) (hn : n' ≤ n + 1)
    (hlost : n' ≤ n ∨ q' ≠ .plain) (q : Quotation) (c : Char) : FirstWord q n (c :: s) w ws := by
  obtain ⟨a, d, b, rfl, hblank, hrest, hlen⟩ := h
  refine ⟨c :: a, d, b, rfl, hblank, hrest, Or.inl ?_⟩
  rw [List.length_cons]
  rcases hlen with hlt | ⟨hplain, heq, -⟩
  · omega
  · have := hlost.resolve_right (not_not_intro hplain)
    omega

theorem FirstWord.ordinary (h : FirstWord .plain (n + 1) s w ws) (hc : c ∉ shellSpecial) :
    FirstWord .plain n (c :: s) w ws := by
  obtain ⟨a, d, b, rfl, hblank, hrest, hlen⟩ := h
  refine ⟨c :: a, d, b, rfl, hblank, hrest, ?_⟩
  rw [List.length_cons]
  rcases hlen with hlt | ⟨-, heq, ha⟩
  · exact Or.inl (by omega)
  · exact Or.inr ⟨rfl, by omega, List.forall_mem_cons.mpr ⟨hc, ha⟩⟩

theorem splitWords_first {word : Option (List Char)} (hws : ws ≠ [])
    (h : splitWords q word s = some (w :: ws)) : FirstWord q (word.getD []).length s w ws := by
  have hsnoc : ∀ (word : Option (List Char)) (v : List Char),
      ((some (word.getD [] ++ v)).getD []).length = (word.getD []).length + v.length :=
    fun word v => List.length_append
  fun_induction splitWords q word s generalizing ws with
  | case1 word =>
      cases word with
      | none => cases h
      | some u =>
          cases h
          exact absurd rfl hws
  | case2 word c line ih =>
      have hfirst := ih hws h
      rw [hsnoc] at hfirst
      exact (hfirst.cons (Nat.le_succ _) (Or.inl (Nat.le_refl _)) .single c).cons (Nat.le_refl _)
        (Or.inr nofun) _ _
  | case3 word c line _ hblank ih =>
      obtain ⟨rest, hrest, heq⟩ := Option.map_eq_some_iff.mp h
      cases word with
      | none =>
          rw [Option.toList_none, List.nil_append] at heq
          rw [heq] at hrest
          exact (ih hws hrest).cons (Nat.le_succ _) (Or.inl (Nat.le_refl _)) _ _
      | some u =>
          rw [Option.toList_some, List.singleton_append, List.cons.injEq] at heq
          obtain ⟨rfl, rfl⟩ := heq
          exact ⟨[], c, line, rfl, hblank, hrest, Or.inr ⟨rfl, rfl, List.forall_mem_nil _⟩⟩
  | case4 word line _ _ ih | case5 word line _ _ _ ih =>
      exact (ih hws h).cons (Nat.le_succ _) (Or.inl (Nat.le_refl _)) _ _
  | case7 word c line hescape hblank hsingle hdouble hmeta ih =>
      have hfirst := ih hws h
      rw [hsnoc] at hfirst
      refine hfirst.ordinary ?_
      have hslash : c ≠ '\\' := by
        intro hc
        cases line with
        | nil =>
            rw [splitWords] at h
            cases h
            exact hws rfl
        | cons d line => exact hescape d line hc rfl
      simp only [isBlank, isShellMeta] at hblank hmeta
      simp_all [shellSpecial]
  | case6 | case8 | case11 | case15 => nomatch h
  | case9 word line ih =>
      exact (ih hws h).cons (Nat.le_succ _) (Or.inl (Nat.le_refl _)) _ _
  | case14 word line _ ih => exact (ih hws h).cons (Nat.le_succ _) (Or.inl (Nat.le_refl _)) _ _
  | case10 word c line _ ih | case16 word c line _ _ _ ih =>
      have hfirst := ih hws h
      rw [hsnoc] at hfirst
      exact hfirst.cons (Nat.le_refl _) (Or.inr nofun) _ _
  | case12 word c line _ ih =>
      have hfirst := ih hws h
      rw [hsnoc] at hfirst
      exact (hfirst.cons (Nat.le_succ _) (Or.inl (Nat.le_refl _)) .double c).cons (Nat.le_refl _)
        (Or.inr nofun) _ _
  | case13 word c line _ ih =>
      have hfirst := ih hws h
      rw [hsnoc] at hfirst
      exact (hfirst.cons (Nat.le_refl _) (Or.inr nofun) .double c).cons (Nat.le_refl _)
        (Or.inr nofun) _ _

end

/-- A word that needs no quotes. -/
structure Bareword (v : List Char) : Prop where
  nonempty : v ≠ []
  plain : ∀ c ∈ v, c ∉ shellSpecial
  start : ∀ c, v.head? = some c → c ∉ wordOpeners

theorem bareword_of_allSafe {v : List Char} (hne : v ≠ []) (h : v.all isShellSafe = true) :
    Bareword v where
  nonempty := hne
  plain := not_special_of_allSafe h
  start := by
    intro c hc hmem
    have hsafe := List.all_eq_true.mp h c (List.mem_of_mem_head? hc)
    rw [not_safe_of_opener hmem] at hsafe
    contradiction

theorem shellWords_cons {v : List Char} (h : Bareword v) :
    shellWords (v ++ ' ' :: line) = (shellWords line).map (v :: ·) := by
  cases v with
  | nil => exact absurd rfl h.nonempty
  | cons c v =>
      have hplain := List.forall_mem_cons.mp h.plain
      rw [shellWords, List.cons_append, splitWords_ordinary hplain.1 none fun _ => h.start c rfl,
        splitWords_bare hplain.2]
      simp [splitWords, isBlank, shellWords]

/-- A line that is read does not begin with what only means something there. -/
theorem not_opener_of_shellWords {c : Char} {ws : List (List Char)}
    (h : shellWords (c :: line) = some ws) : c ∉ wordOpeners := by
  intro hmem
  rcases List.mem_cons.mp hmem with rfl | hmem
  · simp [shellWords, splitWords, isBlank, wordOpeners] at h
  · rw [List.mem_singleton.mp hmem] at h
    simp [shellWords, splitWords, isBlank, wordOpeners] at h

/-- Words at the front of a line. -/
def spaced (ws : List (List Char)) (line : List Char) : List Char :=
  ws.foldr (fun v line => v ++ ' ' :: line) line

theorem spaced_append (ws : List (List Char)) (s line : List Char) :
    spaced ws (s ++ line) = spaced ws s ++ line := by
  induction ws with
  | nil => rfl
  | cons v ws ih =>
      have hline : ∀ line, spaced (v :: ws) line = v ++ ' ' :: spaced ws line := fun _ => rfl
      rw [hline, hline, ih, List.append_assoc, List.cons_append]

theorem shellWords_spaced {ws : List (List Char)} (h : ∀ v ∈ ws, Bareword v) :
    shellWords (spaced ws line) = (shellWords line).map (ws ++ ·) := by
  induction ws with
  | nil => simp [spaced]
  | cons v ws ih =>
      rw [List.forall_mem_cons] at h
      have hline : spaced (v :: ws) line = v ++ ' ' :: spaced ws line := rfl
      rw [hline, shellWords_cons h.1, ih h.2, Option.map_map]
      rfl

theorem count_spaced {d : Char} (hd : d ≠ ' ') (ws : List (List Char)) (line : List Char) :
    (spaced ws line).count d = ws.flatten.count d + line.count d := by
  induction ws with
  | nil => simp [spaced]
  | cons v ws ih =>
      have hline : spaced (v :: ws) line = v ++ ' ' :: spaced ws line := rfl
      rw [hline, List.count_append, List.count_cons_of_ne hd.symm, ih, List.flatten_cons,
        List.count_append]
      omega

theorem shellQuote_cons {d : Char} (hd : d ≠ '\'') (w : List Char) :
    ∃ r, shellQuote (d :: w) = d :: r ∨ shellQuote (d :: w) = '\'' :: d :: r := by
  unfold shellQuote
  rw [if_neg (List.cons_ne_nil _ _)]
  split
  · exact ⟨w, Or.inl rfl⟩
  · refine ⟨w.flatMap escapeQuote ++ ['\''], Or.inr ?_⟩
    rw [List.flatMap_cons, escapeQuote, if_neg hd]
    rfl

/-- What stands unquoted before a quoted word is a word exactly when it needs no quotes. -/
theorem shellWords_bare_iff {o w : List Char} {d : Char} (ho : o ≠ []) (hd : isShellSafe d = true) :
    shellWords (o ++ ' ' :: shellQuote (d :: w)) = some [o, d :: w] ↔ Bareword o := by
  have hquoted : shellWords (shellQuote (d :: w)) = some [d :: w] := shellWords_join [d :: w]
  constructor
  · intro h
    refine ⟨ho, ?_, ?_⟩
    swap
    · intro c hc
      obtain ⟨o', rfl⟩ : ∃ o', o = c :: o' := List.head?_eq_some_iff.mp hc
      exact not_opener_of_shellWords h
    obtain ⟨a, c, b, heq, hblank, hrest, hlen⟩ := splitWords_first (List.cons_ne_nil _ _) h
    rw [Option.getD_none, List.length_nil, Nat.zero_add] at hlen
    rcases hlen with hlt | ⟨-, hlen, ha⟩
    · -- the word would go on into the quotation, and what is left has too few of `d`
      have hne : ∀ e, isShellSafe e = false → d ≠ e := by
        intro e he hde
        rw [hde, he] at hd
        contradiction
      have hne' : c ≠ '\'' ∧ c ≠ d := by
        rw [isBlank, Bool.or_eq_true, decide_eq_true_eq, decide_eq_true_eq] at hblank
        rcases hblank with rfl | rfl
        · exact ⟨by decide, (hne _ rfl).symm⟩
        · exact ⟨by decide, (hne _ rfl).symm⟩
      obtain ⟨a', rfl, htail⟩ : ∃ a', a = o ++ a' ∧ ' ' :: shellQuote (d :: w) = a' ++ c :: b := by
        rcases List.append_eq_append_iff.mp heq with ⟨a', ha', htail⟩ | ⟨o', ho', htail⟩
        · exact ⟨a', ha', htail⟩
        · rw [ho', List.length_append] at hlt
          omega
      cases a' with
      | nil => simp at hlt
      | cons x a' =>
          rw [List.cons_append, List.cons.injEq] at htail
          have hcount := count_shellWords d hrest
          have htotal := count_quote (hne '\'' rfl) (hne '"' rfl) (d :: w)
          rw [htail.2, List.count_append, List.count_cons_of_ne hne'.2] at htotal
          rw [List.flatten_singleton] at hcount
          have hnone : d ∉ a' := List.count_eq_zero.mp (by omega)
          obtain ⟨r, hr | hr⟩ := shellQuote_cons (hne '\'' rfl) w
          · rw [hr] at htail
            cases a' with
            | nil => exact absurd (List.cons.inj htail.2).1.symm hne'.2
            | cons y a' =>
                rw [(List.cons.inj htail.2).1] at hnone
                simp at hnone
          · rw [hr] at htail
            cases a' with
            | nil => exact absurd (List.cons.inj htail.2).1.symm hne'.1
            | cons y a' =>
                have htail' := (List.cons.inj htail.2).2
                cases a' with
                | nil => exact absurd (List.cons.inj htail').1.symm hne'.2
                | cons z a' =>
                    have hz := (List.cons.inj htail').1
                    rw [hz] at hnone
                    simp at hnone
    · have := List.append_inj heq hlen
      rw [this.1]
      exact ha
  · intro h
    rw [shellWords_cons h, hquoted]
    rfl

end Cbuild.Lib
