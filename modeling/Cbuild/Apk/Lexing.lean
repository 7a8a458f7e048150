import Cbuild.Apk.Constraint

/-! # A version as the text of its tokens

What one call of `Token.next` reads, as a relation on the types of the tokens and the text:
the text splits into that of the token and the rest, and the rest does not go on with the
token.
-/

namespace Cbuild.Apk

open Lib

/-! ## One token -/

/-- The characters that a token of the type goes on with. -/
def TokenType.goesOn : TokenType → Char → Bool
  | .initialDigit | .digit | .suffixNo | .revisionNo => iscdigit
  | .suffix => isclow
  | .commitHash => isxdigit
  | _ => fun _ => false

abbrev Lexeme : Type := TokenType × Str

/-- How a token is written. -/
def lexemeText : Lexeme → Str
  | (.digit, w) => '.' :: w
  | (.suffix, w) => '_' :: w
  | (.commitHash, w) => '~' :: w
  | (.revisionNo, w) => '-' :: 'r' :: w
  | (_, w) => w

/-- After a token of the first type, the text begins with the token and goes on with the rest. -/
inductive Reads : TokenType → Str → Lexeme → Str → Prop
  | letter {k : TokenType} {c : Char} {s : Str} (hk : k.code ≤ TokenType.digit.code)
      (hc : isclow c = true) : Reads k (c :: s) (.letter, [c]) s
  | suffix {k : TokenType} {w s : Str} (hk : k.code ≤ TokenType.suffixNo.code)
      (hw : w ∈ suffixNames) (hs : Stops isclow s) : Reads k ('_' :: (w ++ s)) (.suffix, w) s
  | hash {k : TokenType} {w s : Str} (hk : k.code < TokenType.commitHash.code) (hne : w ≠ [])
      (hw : ∀ c ∈ w, isxdigit c = true) (hs : Stops isxdigit s) :
      Reads k ('~' :: (w ++ s)) (.commitHash, w) s
  | revision {k : TokenType} {w s : Str} (hk : k.code < TokenType.revisionNo.code) (hne : w ≠ [])
      (hw : ∀ c ∈ w, iscdigit c = true) (hs : Stops iscdigit s) :
      Reads k ('-' :: 'r' :: (w ++ s)) (.revisionNo, w) s
  | digit {k : TokenType} {w s : Str} (hk : k.code ≤ TokenType.digit.code) (hne : w ≠ [])
      (hw : ∀ c ∈ w, iscdigit c = true) (hs : Stops iscdigit s) :
      Reads k ('.' :: (w ++ s)) (.digit, w) s
  | suffixNo {w s : Str} (hne : w ≠ []) (hw : ∀ c ∈ w, iscdigit c = true)
      (hs : Stops iscdigit s) : Reads .suffix (w ++ s) (.suffixNo, w) s

variable {k : TokenType} {input s r : Str} {l : Lexeme}

theorem Reads.text (h : Reads k input l s) : input = lexemeText l ++ s := by
  cases h <;> rfl

theorem Reads.stops (h : Reads k input l s) : Stops l.1.goesOn s := by
  cases h with
  | letter => exact fun c _ => rfl
  | suffix _ _ hs => exact hs
  | hash _ _ _ hs => exact hs
  | revision _ _ _ hs => exact hs
  | digit _ _ _ hs => exact hs
  | suffixNo _ _ hs => exact hs

/-- More text can follow if it does not go on with the token. -/
theorem Reads.append (h : Reads k input l s) (hr : Stops l.1.goesOn (s ++ r)) :
    Reads k (input ++ r) l (s ++ r) := by
  cases h with
  | letter hk hc => exact .letter hk hc
  | suffix hk hw _ =>
      rw [List.cons_append, List.append_assoc]
      exact .suffix hk hw hr
  | hash hk hne hw _ =>
      rw [List.cons_append, List.append_assoc]
      exact .hash hk hne hw hr
  | revision hk hne hw _ =>
      rw [List.cons_append, List.cons_append, List.append_assoc]
      exact .revision hk hne hw hr
  | digit hk hne hw _ =>
      rw [List.cons_append, List.append_assoc]
      exact .digit hk hne hw hr
  | suffixNo hne hw _ =>
      rw [List.append_assoc]
      exact .suffixNo hne hw hr

/-! ## What the tokenizer reads -/

variable {t : Token}

theorem takeWhile_span {p : Char → Bool} {w : Str} (hw : ∀ c ∈ w, p c = true) (hs : Stops p s) :
    (w ++ s).takeWhile p = w ∧ (w ++ s).dropWhile p = s :=
  ⟨takeWhile_append_of_stops hw hs, dropWhile_append_of_stops hw hs⟩

theorem extractSpan_append {p : Char → Bool} {w : Str} (hin : t.input = w ++ s) (hne : w ≠ [])
    (hw : ∀ c ∈ w, p c = true) (hs : Stops p s) :
    t.extractSpan p = some { t with value := w, input := s } := by
  obtain ⟨htake, hdrop⟩ := takeWhile_span hw hs
  rw [Token.extractSpan, hin, htake, hdrop, if_neg hne]

theorem suffixNames_ne_nil {w : Str} (hw : w ∈ suffixNames) : w ≠ [] := by
  rintro rfl
  revert hw
  rw [mem_suffixNames]
  decide

theorem next_nil (h : t.input = []) : t.next = { t with token := .endTok } := by
  unfold Token.next
  rw [h]

theorem next_low {c : Char} (h : t.input = c :: s) (hc : isclow c = true) : t.next =
    if t.token.code > TokenType.digit.code then t.invalidate
    else { t with value := [c], token := .letter, input := s } := by
  unfold Token.next
  rw [h]
  exact if_pos hc

theorem next_underscore (h : t.input = '_' :: s) : t.next = t.nextSuffix s := by
  unfold Token.next
  rw [h]
  rfl

theorem next_tilde (h : t.input = '~' :: s) : t.next = t.nextHash s := by
  unfold Token.next
  rw [h]
  rfl

theorem next_dash (h : t.input = '-' :: s) : t.next = t.nextRevision := by
  unfold Token.next
  rw [h]
  rfl

theorem next_dot (h : t.input = '.' :: s) : t.next =
    if t.token.code > TokenType.digit.code then t.invalidate
    else { t with input := s }.nextNumber := by
  unfold Token.next
  rw [h]
  rfl

theorem next_other {c : Char} (h : t.input = c :: s) (hlow : isclow c = false) (hu : c ≠ '_')
    (ht : c ≠ '~') (hd : c ≠ '-') (hdot : c ≠ '.') :
    t.next = if iscdigit c = true then t.nextNumber else t.invalidate := by
  unfold Token.next
  rw [h]
  simp only [hlow, hu, ht, hd, hdot, if_false, Bool.false_eq_true]
  by_cases hc : iscdigit c = true <;> simp [hc]

theorem next_digit {c : Char} (h : t.input = c :: s) (hc : iscdigit c = true) :
    t.next = t.nextNumber := by
  have hne : ∀ d, iscdigit d = false → c ≠ d := by
    rintro d hd rfl
    rw [hd] at hc
    cases hc
  have hlow : isclow c = false := by
    cases hl : isclow c with
    | false => rfl
    | true => rw [iscdigit_of_isclow hl] at hc; cases hc
  rw [next_other h hlow (hne _ (by decide)) (hne _ (by decide)) (hne _ (by decide))
    (hne _ (by decide)), if_pos hc]

theorem nextNumber_span {w : Str} {k : TokenType} (hin : t.input = w ++ s) (hne : w ≠ [])
    (hw : ∀ c ∈ w, iscdigit c = true) (hs : Stops iscdigit s) (hk : t.enterNumber = { t with token := k })
    (hinv : k ≠ .invalid) :
    t.nextNumber = { t with token := k, value := w, input := s, number := pyInt w } := by
  have hspan := extractSpan_append (t := { t with token := k }) hin hne hw hs
  unfold Token.nextNumber
  rw [hk, if_neg hinv]
  simp only [hspan]

/-- What can be read is read. -/
theorem next_of_reads (h : Reads t.token t.input l s) :
    t.next.token = l.1 ∧ t.next.value = l.2 ∧ t.next.input = s ∧
      (l.1 = .suffix → t.next.suffix = (sufmap.lookup l.2).getD .invalid) := by
  generalize hk : t.token = k at h
  generalize hin : t.input = input at h
  cases h with
  | letter hle hc =>
      rw [next_low hin hc, if_neg (by rw [hk]; omega)]
      exact ⟨rfl, rfl, rfl, fun h => by cases h⟩
  | @suffix _ w _ hle hw hs =>
      have hne := suffixNames_ne_nil hw
      have hspan := extractSpan_append (t := { t with input := w ++ s }) rfl hne
        (suffixNames_isclow hw) hs
      have hval := (not_congr (sufmap_eq_invalid_iff w)).mpr (not_not.mpr hw)
      have hlen : ¬ (t.token.code > TokenType.suffixNo.code ∨ t.input.length ≤ 1) := by
        have := List.length_pos_iff.mpr hne
        rw [hk, hin, List.length_cons, List.length_append]
        omega
      rw [next_underscore hin, Token.nextSuffix, if_neg hlen]
      simp only [hspan, if_neg hval]
      exact ⟨trivial, trivial, trivial, fun _ => trivial⟩
  | @hash _ w _ hlt hne hw hs =>
      have hspan := extractSpan_append (t := { t with input := w ++ s, token := .commitHash }) rfl
        hne hw hs
      have hlen : ¬ (t.token.code ≥ TokenType.commitHash.code ∨ t.input.length ≤ 1) := by
        have := List.length_pos_iff.mpr hne
        rw [hk, hin, List.length_cons, List.length_append]
        omega
      rw [next_tilde hin, Token.nextHash, if_neg hlen]
      simp only [hspan]
      exact ⟨trivial, trivial, trivial, fun h => by cases h⟩
  | @revision _ w _ hlt hne hw hs =>
      have hspan := extractSpan_append
        (t := { t with input := t.input.drop 2, token := .revisionNo }) (by simp [hin]) hne hw hs
      have hpre : ¬ (t.token.code ≥ TokenType.revisionNo.code ∨ ¬ "-r".toList <+: t.input) := by
        rw [hk, hin, not_or, not_not]
        exact ⟨by omega, ⟨w ++ s, rfl⟩⟩
      rw [next_dash hin, Token.nextRevision, if_neg hpre]
      simp only [hspan]
      exact ⟨trivial, trivial, trivial, fun h => by cases h⟩
  | @digit _ w _ hle hne hw hs =>
      have henter : Token.enterNumber { t with input := w ++ s } =
          { t with token := .digit, input := w ++ s } := by
        unfold Token.enterNumber
        simp only [hk]
        cases k with
        | initialDigit => rfl
        | digit => rfl
        | _ => exact absurd hle (by decide)
      rw [next_dot hin, if_neg (by rw [hk]; omega),
        nextNumber_span (t := { t with input := w ++ s }) rfl hne hw hs henter (by decide)]
      exact ⟨rfl, rfl, rfl, fun h => by cases h⟩
  | @suffixNo w _ hne hw hs =>
      obtain ⟨c, w', rfl⟩ := List.exists_cons_of_ne_nil hne
      have henter : t.enterNumber = { t with token := .suffixNo } := by
        unfold Token.enterNumber
        rw [hk]
      rw [next_digit hin (hw c List.mem_cons_self), nextNumber_span hin hne hw hs henter (by decide)]
      exact ⟨rfl, rfl, rfl, fun h => by cases h⟩

theorem reads_nextSuffix (hin : t.input = '_' :: s)
    (hn : (t.nextSuffix s).token ≠ .invalid) :
    Reads t.token t.input ((t.nextSuffix s).token, (t.nextSuffix s).value)
      (t.nextSuffix s).input := by
  rw [hin]
  revert hn
  unfold Token.nextSuffix
  by_cases hthr : t.token.code > TokenType.suffixNo.code ∨ t.input.length ≤ 1
  · rw [if_pos hthr]
    exact fun hn => absurd rfl hn
  rw [if_neg hthr]
  by_cases hspan : s.takeWhile isclow = []
  · simp only [Token.extractSpan, hspan, if_true]
    exact fun hn => absurd rfl hn
  simp only [Token.extractSpan, if_neg hspan]
  by_cases hname : s.takeWhile isclow ∈ suffixNames
  · have hval := (not_congr (sufmap_eq_invalid_iff (s.takeWhile isclow))).mpr (not_not.mpr hname)
    have hreads := Reads.suffix (k := t.token) (by omega) hname (stops_dropWhile isclow s)
    rw [List.takeWhile_append_dropWhile] at hreads
    rw [if_neg hval]
    exact fun _ => hreads
  · rw [if_pos ((sufmap_eq_invalid_iff (s.takeWhile isclow)).mpr hname)]
    exact fun hn => absurd rfl hn

theorem reads_nextHash (hin : t.input = '~' :: s) (hn : (t.nextHash s).token ≠ .invalid) :
    Reads t.token t.input ((t.nextHash s).token, (t.nextHash s).value) (t.nextHash s).input := by
  rw [hin]
  revert hn
  unfold Token.nextHash
  by_cases hthr : t.token.code ≥ TokenType.commitHash.code ∨ t.input.length ≤ 1
  · rw [if_pos hthr]
    exact fun hn => absurd rfl hn
  rw [if_neg hthr]
  by_cases hspan : s.takeWhile isxdigit = []
  · simp only [Token.extractSpan, hspan, if_true]
    exact fun hn => absurd rfl hn
  simp only [Token.extractSpan, if_neg hspan]
  have hreads := Reads.hash (k := t.token) (by omega) hspan
    (fun c hc => List.mem_takeWhile_imp hc) (stops_dropWhile isxdigit s)
  rw [List.takeWhile_append_dropWhile] at hreads
  exact fun _ => hreads

theorem reads_nextRevision (hn : t.nextRevision.token ≠ .invalid) :
    Reads t.token t.input (t.nextRevision.token, t.nextRevision.value) t.nextRevision.input := by
  revert hn
  unfold Token.nextRevision
  by_cases hthr : t.token.code ≥ TokenType.revisionNo.code ∨ ¬ "-r".toList <+: t.input
  · rw [if_pos hthr]
    exact fun hn => absurd rfl hn
  rw [if_neg hthr]
  rw [not_or, not_not] at hthr
  obtain ⟨hlt, w, hw⟩ := hthr
  have hdrop : t.input.drop 2 = w := by
    rw [← hw]
    rfl
  rw [hdrop]
  by_cases hspan : w.takeWhile iscdigit = []
  · simp only [Token.extractSpan, hspan, if_true]
    exact fun hn => absurd rfl hn
  simp only [Token.extractSpan, if_neg hspan]
  have hreads := Reads.revision (k := t.token) (by omega) hspan
    (fun c hc => List.mem_takeWhile_imp hc) (stops_dropWhile iscdigit w)
  rw [List.takeWhile_append_dropWhile] at hreads
  rw [← hw]
  exact fun _ => hreads

/-- What a number is read as, where the tokenizer is past the dot if there was one. -/
theorem nextNumber_split (hn : t.nextNumber.token ≠ .invalid) :
    t.input.takeWhile iscdigit ≠ [] ∧ t.nextNumber.token = t.enterNumber.token ∧
      t.nextNumber.value = t.input.takeWhile iscdigit ∧
      t.nextNumber.input = t.input.dropWhile iscdigit := by
  unfold Token.nextNumber at hn ⊢
  by_cases hinv : t.enterNumber.token = .invalid
  · rw [if_pos hinv] at hn
    exact absurd hinv hn
  rw [if_neg hinv] at hn ⊢
  cases hs : t.enterNumber.extractSpan iscdigit with
  | none =>
      rw [hs] at hn
      exact absurd rfl hn
  | some u =>
      obtain ⟨rfl, hne⟩ := extractSpan_spec hs
      rw [Token.enterNumber_input] at hne
      dsimp only
      rw [Token.enterNumber_input]
      exact ⟨hne, rfl, rfl, rfl⟩

/-- A call of `next` that goes well is at the end of the text or reads a token. -/
theorem next_cases (hm : t.Munched) (hne : t.next.token ≠ .invalid) :
    t.input = [] ∧ t.next.token = .endTok ∨
      Reads t.token t.input (t.next.token, t.next.value) t.next.input := by
  cases hin : t.input with
  | nil =>
      rw [next_nil hin]
      exact Or.inl ⟨rfl, rfl⟩
  | cons c s =>
      right
      rw [← hin]
      by_cases hlow : isclow c = true
      · rw [next_low hin hlow] at hne ⊢
        by_cases hle : t.token.code > TokenType.digit.code
        · rw [if_pos hle] at hne
          exact absurd rfl hne
        · rw [if_neg hle, hin]
          exact .letter (by omega) hlow
      by_cases hu : c = '_'
      · subst hu
        rw [next_underscore hin] at hne ⊢
        exact reads_nextSuffix hin hne
      by_cases ht : c = '~'
      · subst ht
        rw [next_tilde hin] at hne ⊢
        exact reads_nextHash hin hne
      by_cases hd : c = '-'
      · subst hd
        rw [next_dash hin] at hne ⊢
        exact reads_nextRevision hne
      by_cases hdot : c = '.'
      · subst hdot
        rw [next_dot hin] at hne ⊢
        by_cases hle : t.token.code > TokenType.digit.code
        · rw [if_pos hle] at hne
          exact absurd rfl hne
        rw [if_neg hle] at hne ⊢
        obtain ⟨hspan, htok, hval, hinput⟩ := nextNumber_split hne
        have henter : (Token.enterNumber { t with input := s }).token = .digit := by
          unfold Token.enterNumber
          cases hk : t.token <;> simp [hk, TokenType.code] at hle ⊢
        have hreads := Reads.digit (k := t.token) (by omega) hspan
          (fun c hc => List.mem_takeWhile_imp hc) (stops_dropWhile iscdigit s)
        rw [List.takeWhile_append_dropWhile] at hreads
        rw [htok, hval, hinput, henter, hin]
        exact hreads
      by_cases hdig : iscdigit c = true
      · rw [next_digit hin hdig] at hne ⊢
        obtain ⟨hspan, htok, hval, hinput⟩ := nextNumber_split hne
        have hk : t.token = .suffix := by
          rw [htok] at hne
          unfold Token.Munched at hm
          unfold Token.enterNumber at hne
          -- a digit cannot follow a run of digits
          cases hk : t.token <;> simp [hk, hin, hdig] at hm hne ⊢
        have henter : t.enterNumber.token = .suffixNo := by
          unfold Token.enterNumber
          rw [hk]
        have hreads := Reads.suffixNo hspan (fun c hc => List.mem_takeWhile_imp hc)
          (stops_dropWhile iscdigit t.input)
        rw [List.takeWhile_append_dropWhile] at hreads
        rw [htok, hval, hinput, henter, hk]
        exact hreads
      · rw [next_other hin (by simpa using hlow) hu ht hd hdot, if_neg hdig] at hne
        exact absurd rfl hne

/-! ## All tokens of a text -/

/-- The tokens read in turn, each with the actual rest of the text behind it. -/
inductive Lexes : TokenType → Str → List Lexeme → Str → Prop
  | nil {k : TokenType} {s : Str} : Lexes k s [] s
  | cons {k : TokenType} {input s r : Str} {l : Lexeme} {ls : List Lexeme}
      (first : Reads k input l s) (rest : Lexes l.1 s ls r) : Lexes k input (l :: ls) r

/-- The type of the last token, where one of type `k` stands before them. -/
def lastType (k : TokenType) (ls : List Lexeme) : TokenType := ls.foldl (fun _ l => l.1) k

variable {ls ls' : List Lexeme}

theorem Lexes.text (h : Lexes k input ls s) : input = (ls.map lexemeText).flatten ++ s := by
  induction h with
  | nil => rfl
  | cons first _ ih =>
      rw [List.map_cons, List.flatten_cons, List.append_assoc, ← ih]
      exact first.text

theorem Lexes.stops (h : Lexes k input ls s) (hk : Stops k.goesOn input) :
    Stops (lastType k ls).goesOn s := by
  induction h with
  | nil => exact hk
  | cons first _ ih => exact ih first.stops

theorem Reads.ne_nil (h : Reads k input l s) : input ≠ [] := by
  cases h with
  | suffixNo hne _ _ => exact fun h => hne (List.append_eq_nil_iff.mp h).1
  | _ => exact List.cons_ne_nil _ _

theorem stops_append_of_ne_nil {p : Char → Bool} (h : Stops p s) (hne : s ≠ []) :
    Stops p (s ++ r) := by
  cases s with
  | nil => exact absurd rfl hne
  | cons c s => simpa using h

theorem Lexes.append (h : Lexes k input ls s) (hr : Stops (lastType k ls).goesOn (s ++ r)) :
    Lexes k (input ++ r) ls (s ++ r) := by
  induction h with
  | nil => exact .nil
  | cons first rest ih =>
      refine .cons (first.append ?_) (ih hr)
      cases rest with
      | nil => exact hr
      | cons second _ => exact stops_append_of_ne_nil first.stops second.ne_nil

/-- The text is cut where the first tokens end. -/
theorem Lexes.split (h : Lexes k input (ls ++ ls') r) :
    ∃ s, Lexes k input ls s ∧ Lexes (lastType k ls) s ls' r := by
  induction ls generalizing k input with
  | nil => exact ⟨input, .nil, h⟩
  | cons l ls ih =>
      cases h with
      | cons first rest =>
          obtain ⟨s, hfirst, hrest⟩ := ih rest
          exact ⟨s, .cons first hfirst, hrest⟩

/-! ## The emitted tokens -/

def Token.lexeme (t : Token) : Lexeme := (t.token, t.value)

/-- The types and the values of the tokens of a version, the end left out. -/
def lexemes (t : Token) : List Lexeme := (emit t).dropLast.map Token.lexeme

def tokenValues (ver : Str) : List Lexeme := lexemes (.init ver)

theorem lexemes_of_lt (h : t.token.code < TokenType.endTok.code) :
    lexemes t = t.lexeme :: lexemes t.next := by
  obtain ⟨rest, hrest⟩ := emit_eq_cons t.next
  unfold lexemes
  rw [emit_of_lt h, List.dropLast_cons_of_ne_nil (by rw [hrest]; exact List.cons_ne_nil _ _),
    List.map_cons]

theorem lexemes_of_stopped (h : ¬ t.token.code < TokenType.endTok.code) : lexemes t = [] := by
  unfold lexemes
  rw [emit_of_stopped h]
  rfl

theorem Reads.code_lt (h : Reads k input l s) : l.1.code < TokenType.endTok.code := by
  cases h <;> simp [TokenType.code]

theorem munched_of_goesOn (h : Stops t.token.goesOn t.input) : t.Munched := by
  unfold Token.Munched
  split
  · rename_i hk
    rw [hk] at h
    exact h
  · rename_i hk
    rw [hk] at h
    exact h
  · rename_i hk
    rw [hk] at h
    exact h
  · trivial

/-- The tokens of an accepted text take up the whole of it. -/
theorem lexes_of_accepts (h : t.token.code < TokenType.endTok.code) (hm : t.Munched)
    (ha : Accepts t) : ∃ ls, lexemes t = t.lexeme :: ls ∧ Lexes t.token t.input ls [] := by
  induction t using emit.induct with
  | case1 t hlt ih =>
      rw [accepts_next hlt] at ha
      have hne : t.next.token ≠ .invalid := fun hinv => not_accepts_of_invalid hinv ha
      rw [lexemes_of_lt hlt]
      obtain ⟨hin, hend⟩ | hreads := next_cases hm hne
      · rw [lexemes_of_stopped (by rw [hend]; decide), hin]
        exact ⟨[], rfl, .nil⟩
      · obtain ⟨ls, hls, hlex⟩ := ih hreads.code_lt (munched_of_goesOn hreads.stops) ha
        exact ⟨t.next.lexeme :: ls, by rw [hls], .cons hreads hlex⟩
  | case2 t hstop => exact absurd h hstop

/-- The tokens that can be read are the first that are emitted. -/
theorem lexemes_of_lexes (h : t.token.code < TokenType.endTok.code)
    (hl : Lexes t.token t.input ls s) : t.lexeme :: ls <+: lexemes t := by
  induction ls generalizing t with
  | nil =>
      rw [lexemes_of_lt h]
      exact ⟨_, rfl⟩
  | cons l ls ih =>
      generalize hk : t.token = k at hl
      cases hl with
      | cons first rest =>
          subst hk
          obtain ⟨htok, hval, hin, -⟩ := next_of_reads first
          have hlt : t.next.token.code < TokenType.endTok.code := by
            rw [htok]
            exact first.code_lt
          rw [← htok, ← hin] at rest
          have hpre := ih hlt rest
          have hlex : t.next.lexeme = l := Prod.ext htok hval
          rw [hlex] at hpre
          rw [lexemes_of_lt h]
          exact List.cons_prefix_cons.mpr ⟨rfl, hpre⟩

/-! ## The tokens of a valid version -/

theorem Version.init_eq (v : Version) :
    Token.init v.text = ⟨.initialDigit, v.text.dropWhile iscdigit, v.text.takeWhile iscdigit,
      pyInt (v.text.takeWhile iscdigit), .invalid⟩ := by
  obtain ⟨c, s, hv, hc⟩ := v.head_digit
  have hspan : v.text.takeWhile iscdigit ≠ [] := by
    rw [hv, List.takeWhile_cons_of_pos hc]
    exact List.cons_ne_nil _ _
  unfold Token.init Token.extractSpan
  dsimp only
  rw [if_neg hspan]

theorem Version.init_lt (v : Version) :
    (Token.init v.text).token.code < TokenType.endTok.code := by
  rw [v.init_eq]
  exact Nat.zero_lt_succ 6

theorem Version.init_munched (v : Version) : (Token.init v.text).Munched := by
  rw [v.init_eq]
  exact munched_of_stops (stops_dropWhile _ _)

theorem Version.init_accepts (v : Version) : Accepts (.init v.text) := by
  have := v.valid
  rwa [versionValidate, decide_eq_true_iff] at this

/-- The type of the last token of a version. -/
def Version.lastToken (v : Version) : TokenType := lastType .initialDigit (tokenValues v.text)

theorem Version.tokens (v : Version) : ∃ ls : List Lexeme,
    tokenValues v.text = (.initialDigit, v.text.takeWhile iscdigit) :: ls ∧
      Lexes .initialDigit (v.text.dropWhile iscdigit) ls [] ∧
      v.lastToken = lastType .initialDigit ls := by
  obtain ⟨ls, hls, hlex⟩ := lexes_of_accepts v.init_lt v.init_munched v.init_accepts
  have htokens : tokenValues v.text = (.initialDigit, v.text.takeWhile iscdigit) :: ls := by
    unfold tokenValues
    rw [hls, v.init_eq]
    rfl
  rw [v.init_eq] at hlex
  refine ⟨ls, htokens, hlex, ?_⟩
  unfold Version.lastToken
  rw [htokens]
  rfl

end Cbuild.Apk
