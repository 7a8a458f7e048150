import Cbuild.Apk.Token
import Mathlib.Computability.Language
import Mathlib.Logic.Function.Iterate

/-! # The language of valid versions

`versionGrammar` is the regular language of version strings. Each token type
has a residual language: what may still follow a token of that type. The
residuals are computed one character at a time, in step with `Token.next`, and
`versionValidate` accepts exactly the grammar.
-/

namespace Cbuild.Apk

open Lib
open scoped Computability

/-! ## The grammar -/

/-- `p*`, for a character class `p`. -/
def manyOf (p : Char → Bool) : Language Char := {w | ∀ c ∈ w, p c = true}

/-- `p+`, for a character class `p`. -/
def someOf (p : Char → Bool) : Language Char := {w | w ≠ [] ∧ ∀ c ∈ w, p c = true}

/-- One given string. -/
def literal (s : Str) : Language Char := {w | w = s}

/-- One character of the class `p`. -/
def oneOf (p : Char → Bool) : Language Char := {w | ∃ c, w = [c] ∧ p c = true}

/-- The suffix names. -/
def suffixNames : Language Char :=
  {w | w ∈ ["alpha", "beta", "pre", "rc", "cvs", "svn", "git", "hg", "p"].map String.toList}

def dottedPart : Language Char := literal ['.'] * someOf iscdigit

def suffixPart : Language Char := literal ['_'] * (suffixNames * manyOf iscdigit)

def hashPart : Language Char := 1 + literal ['~'] * someOf isxdigit

def revisionPart : Language Char := 1 + literal ['-', 'r'] * someOf iscdigit

/-- `D+ ('.' D+)* [a-z]? ('_' name D*)* ('~' [0-9a-f]+)? ('-r' D+)?` -/
def versionGrammar : Language Char :=
  someOf iscdigit * (dottedPart∗ * ((1 + oneOf isclow) *
    (suffixPart∗ * (hashPart * revisionPart))))

/-! ## What may follow a token -/

/-- After the commit hash. -/
def afterHash : Language Char := revisionPart

/-- After a letter or a suffix number. -/
def afterLetter : Language Char := suffixPart∗ * (hashPart * revisionPart)

/-- After a suffix name. -/
def afterSuffix : Language Char := manyOf iscdigit * afterLetter

/-- After a dotted component. -/
def afterDigit : Language Char := dottedPart∗ * ((1 + oneOf isclow) * afterLetter)

def residual : TokenType → Language Char
  | .initialDigit | .digit => afterDigit
  | .letter | .suffixNo => afterLetter
  | .suffix => afterSuffix
  | .commitHash => afterHash
  | .revisionNo => 1
  | .endTok => 1
  | .invalid => 0

/-! ## Decomposition of the residuals -/

theorem mem_literal_mul (s x : Str) (l : Language Char) :
    x ∈ literal s * l ↔ ∃ y ∈ l, x = s ++ y := by
  rw [Language.mem_mul]
  constructor
  · rintro ⟨a, rfl, y, hy, rfl⟩
    exact ⟨y, hy, rfl⟩
  · rintro ⟨y, hy, rfl⟩
    exact ⟨s, rfl, y, hy, rfl⟩

/-- Unfolding a starred prefix once. -/
theorem mem_kstar_mul (l m : Language Char) (x : Str) :
    x ∈ l∗ * m ↔ x ∈ m ∨ ∃ a ∈ l, ∃ y ∈ l∗ * m, x = a ++ y := by
  have hunfold : l∗ * m = m + l * (l∗ * m) := by
    calc
      l∗ * m = (1 + l * l∗) * m := by rw [Language.one_add_self_mul_kstar_eq_kstar]
      _ = m + l * (l∗ * m) := by rw [add_mul, one_mul, mul_assoc]
  rw [hunfold, Language.mem_add, Language.mem_mul]
  constructor
  · rintro (h | ⟨a, ha, y, hy, rfl⟩)
    · exact .inl h
    · exact .inr ⟨a, ha, y, hunfold ▸ hy, rfl⟩
  · rintro (h | ⟨a, ha, y, hy, rfl⟩)
    · exact .inl h
    · exact .inr ⟨a, ha, y, hunfold ▸ hy, rfl⟩

theorem mem_optional_mul (l m : Language Char) (x : Str) :
    x ∈ (1 + l) * m ↔ x ∈ m ∨ x ∈ l * m := by
  rw [add_mul, one_mul, Language.mem_add]

theorem mem_afterHash (x : Str) :
    x ∈ afterHash ↔ x = [] ∨ ∃ w ∈ someOf iscdigit, x = '-' :: 'r' :: w := by
  rw [afterHash, revisionPart, Language.mem_add, Language.mem_one, mem_literal_mul]
  rfl

theorem mem_hash_mul (x : Str) :
    x ∈ hashPart * revisionPart ↔
      x ∈ afterHash ∨ ∃ w ∈ someOf isxdigit, ∃ y ∈ afterHash, x = '~' :: (w ++ y) := by
  rw [hashPart, mem_optional_mul, mul_assoc, mem_literal_mul]
  simp only [Language.mem_mul, afterHash]
  constructor
  · rintro (h | ⟨_, ⟨w, hw, y, hy, rfl⟩, rfl⟩)
    · exact .inl h
    · exact .inr ⟨w, hw, y, hy, rfl⟩
  · rintro (h | ⟨w, hw, y, hy, rfl⟩)
    · exact .inl h
    · exact .inr ⟨_, ⟨w, hw, y, hy, rfl⟩, rfl⟩

theorem mem_afterLetter (x : Str) :
    x ∈ afterLetter ↔ x ∈ hashPart * revisionPart ∨
      ∃ w ∈ suffixNames, ∃ y ∈ afterSuffix, x = '_' :: (w ++ y) := by
  unfold afterLetter
  rw [mem_kstar_mul]
  constructor
  · rintro (h | ⟨a, ha, y, hy, rfl⟩)
    · exact .inl h
    · rw [suffixPart, mem_literal_mul] at ha
      obtain ⟨b, hb, rfl⟩ := ha
      obtain ⟨w, hw, d, hd, rfl⟩ := Language.mem_mul.mp hb
      refine .inr ⟨w, hw, d ++ y, Language.append_mem_mul hd hy, ?_⟩
      simp
  · rintro (h | ⟨w, hw, y, hy, rfl⟩)
    · exact .inl h
    · obtain ⟨d, hd, z, hz, rfl⟩ := Language.mem_mul.mp hy
      refine .inr ⟨'_' :: (w ++ d), ?_, z, hz, by simp⟩
      rw [suffixPart, mem_literal_mul]
      exact ⟨w ++ d, Language.append_mem_mul hw hd, rfl⟩

theorem mem_letterOpt_mul (x : Str) :
    x ∈ (1 + oneOf isclow) * afterLetter ↔
      x ∈ afterLetter ∨ ∃ c, isclow c = true ∧ ∃ y ∈ afterLetter, x = c :: y := by
  rw [mem_optional_mul, Language.mem_mul]
  constructor
  · rintro (h | ⟨_, ⟨c, rfl, hc⟩, y, hy, rfl⟩)
    · exact .inl h
    · exact .inr ⟨c, hc, y, hy, rfl⟩
  · rintro (h | ⟨c, hc, y, hy, rfl⟩)
    · exact .inl h
    · exact .inr ⟨[c], ⟨c, rfl, hc⟩, y, hy, rfl⟩

theorem mem_afterDigit (x : Str) :
    x ∈ afterDigit ↔ x ∈ (1 + oneOf isclow) * afterLetter ∨
      ∃ w ∈ someOf iscdigit, ∃ y ∈ afterDigit, x = '.' :: (w ++ y) := by
  unfold afterDigit
  rw [mem_kstar_mul]
  constructor
  · rintro (h | ⟨a, ha, y, hy, rfl⟩)
    · exact .inl h
    · rw [dottedPart, mem_literal_mul] at ha
      obtain ⟨w, hw, rfl⟩ := ha
      exact .inr ⟨w, hw, y, hy, by simp⟩
  · rintro (h | ⟨w, hw, y, hy, rfl⟩)
    · exact .inl h
    · refine .inr ⟨'.' :: w, ?_, y, hy, rfl⟩
      rw [dottedPart, mem_literal_mul]
      exact ⟨w, hw, rfl⟩

/-! ## Where the residuals can start -/

theorem stops_isclow_of_digit {w : Str} (hw : w ∈ manyOf iscdigit) : Stops isclow w := by
  cases w with
  | nil => simp
  | cons c w =>
      have hc := hw c List.mem_cons_self
      simp only [iscdigit, Bool.and_eq_true, decide_eq_true_eq] at hc
      simp only [stops_cons, isclow, Bool.and_eq_false_iff, decide_eq_false_iff_not]
      omega

theorem stops_append {p : Char → Bool} {w y : Str} (hw : Stops p w) (hy : Stops p y) :
    Stops p (w ++ y) := by
  cases w with
  | nil => exact hy
  | cons c w => simpa using hw

theorem stops_afterHash {p : Char → Bool} (hp : p '-' = false) {x : Str} (hx : x ∈ afterHash) :
    Stops p x := by
  rcases (mem_afterHash x).mp hx with rfl | ⟨w, _, rfl⟩
  · simp
  · simpa using hp

theorem stops_afterLetter {p : Char → Bool} (hdash : p '-' = false) (htilde : p '~' = false)
    (hunder : p '_' = false) {x : Str} (hx : x ∈ afterLetter) : Stops p x := by
  rcases (mem_afterLetter x).mp hx with hx | ⟨w, _, y, _, rfl⟩
  · rcases (mem_hash_mul x).mp hx with hx | ⟨w, _, y, _, rfl⟩
    · exact stops_afterHash hdash hx
    · simpa using htilde
  · simpa using hunder

theorem stops_afterSuffix {x : Str} (hx : x ∈ afterSuffix) : Stops isclow x := by
  obtain ⟨d, hd, y, hy, rfl⟩ := Language.mem_mul.mp hx
  exact stops_append (stops_isclow_of_digit hd) (stops_afterLetter rfl rfl rfl hy)

theorem iscdigit_of_isclow {c : Char} (h : isclow c = true) : iscdigit c = false := by
  simp only [isclow, Bool.and_eq_true, decide_eq_true_eq] at h
  simp only [iscdigit, Bool.and_eq_false_iff, decide_eq_false_iff_not]
  omega

theorem stops_afterDigit {x : Str} (hx : x ∈ afterDigit) : Stops iscdigit x := by
  rcases (mem_afterDigit x).mp hx with hx | ⟨w, _, y, _, rfl⟩
  · rcases (mem_letterOpt_mul x).mp hx with hx | ⟨c, hc, y, _, rfl⟩
    · exact stops_afterLetter rfl rfl rfl hx
    · simpa using iscdigit_of_isclow hc
  · simp [iscdigit]

/-! ## Cutting maximal spans -/

/-- Cutting the longest run of `p` finds the word whenever what follows cannot
extend it. -/
theorem exists_someOf_iff {p : Char → Bool} {l : Language Char}
    (hl : ∀ y ∈ l, Stops p y) (s : Str) :
    (∃ w ∈ someOf p, ∃ y ∈ l, s = w ++ y) ↔ s.takeWhile p ≠ [] ∧ s.dropWhile p ∈ l := by
  constructor
  · rintro ⟨w, ⟨hne, hw⟩, y, hy, rfl⟩
    rw [takeWhile_append_of_stops hw (hl y hy), dropWhile_append_of_stops hw (hl y hy)]
    exact ⟨hne, hy⟩
  · rintro ⟨hne, hy⟩
    refine ⟨s.takeWhile p, ⟨hne, fun c hc => List.mem_takeWhile_imp hc⟩, s.dropWhile p, hy, ?_⟩
    exact List.takeWhile_append_dropWhile.symm

theorem suffixNames_isclow {w : Str} (hw : w ∈ suffixNames) : ∀ c ∈ w, isclow c = true := by
  have hall : (["alpha", "beta", "pre", "rc", "cvs", "svn", "git", "hg", "p"].map
      String.toList).all (fun w => w.all isclow) = true := by decide
  exact List.all_eq_true.mp (List.all_eq_true.mp hall w hw)

theorem exists_suffixName_iff (s : Str) :
    (∃ w ∈ suffixNames, ∃ y ∈ afterSuffix, s = w ++ y) ↔
      s.takeWhile isclow ∈ suffixNames ∧ s.dropWhile isclow ∈ afterSuffix := by
  constructor
  · rintro ⟨w, hw, y, hy, rfl⟩
    have hstop := stops_afterSuffix hy
    rw [takeWhile_append_of_stops (suffixNames_isclow hw) hstop,
      dropWhile_append_of_stops (suffixNames_isclow hw) hstop]
    exact ⟨hw, hy⟩
  · rintro ⟨hw, hy⟩
    exact ⟨_, hw, _, hy, List.takeWhile_append_dropWhile.symm⟩

theorem exists_manyOf_digit_iff (s : Str) :
    s ∈ afterSuffix ↔ s.dropWhile iscdigit ∈ afterLetter := by
  rw [afterSuffix, Language.mem_mul]
  constructor
  · rintro ⟨w, hw, y, hy, rfl⟩
    rwa [dropWhile_append_of_stops hw (stops_afterLetter rfl rfl rfl hy)]
  · intro hy
    exact ⟨_, fun c hc => List.mem_takeWhile_imp hc, _, hy, List.takeWhile_append_dropWhile⟩

/-! ## Residuals by their first character -/

theorem nil_mem_residual {t : TokenType} (h : t.code < TokenType.endTok.code) :
    [] ∈ residual t := by
  have hhash : [] ∈ afterHash := (mem_afterHash []).mpr (.inl rfl)
  have hletter : [] ∈ afterLetter :=
    (mem_afterLetter []).mpr (.inl ((mem_hash_mul []).mpr (.inl hhash)))
  have hdigit : [] ∈ afterDigit :=
    (mem_afterDigit []).mpr (.inl ((mem_letterOpt_mul []).mpr (.inl hletter)))
  have hsuffix : [] ∈ afterSuffix := (exists_manyOf_digit_iff []).mpr hletter
  cases t with
  | initialDigit | digit => exact hdigit
  | letter | suffixNo => exact hletter
  | suffix => exact hsuffix
  | commitHash => exact hhash
  | revisionNo => exact Language.nil_mem_one
  | endTok | invalid => simp [TokenType.code] at h

/-- A character that ends neither a residual nor a digit run makes them agree. -/
theorem cons_mem_afterSuffix {c : Char} (hc : iscdigit c = false) (s : Str) :
    c :: s ∈ afterSuffix ↔ c :: s ∈ afterLetter := by
  rw [exists_manyOf_digit_iff, List.dropWhile_cons_of_neg (by simp [hc])]

theorem cons_mem_afterDigit {c : Char} (hdot : c ≠ '.') (hlow : isclow c = false) (s : Str) :
    c :: s ∈ afterDigit ↔ c :: s ∈ afterLetter := by
  rw [mem_afterDigit, mem_letterOpt_mul]
  constructor
  · rintro ((h | ⟨d, hd, y, _, he⟩) | ⟨w, _, y, _, he⟩)
    · exact h
    · rw [(List.cons.inj he).1, hd] at hlow
      contradiction
    · exact (hdot (List.cons.inj he).1).elim
  · intro h
    exact .inl (.inl h)

theorem cons_mem_hash_mul {c : Char} (hc : c ≠ '~') (s : Str) :
    c :: s ∈ hashPart * revisionPart ↔ c :: s ∈ afterHash := by
  rw [mem_hash_mul]
  constructor
  · rintro (h | ⟨w, _, y, _, he⟩)
    · exact h
    · exact (hc (List.cons.inj he).1).elim
  · exact .inl

theorem cons_mem_afterLetter {c : Char} (hc : c ≠ '_') (s : Str) :
    c :: s ∈ afterLetter ↔ c :: s ∈ hashPart * revisionPart := by
  rw [mem_afterLetter]
  constructor
  · rintro (h | ⟨w, _, y, _, he⟩)
    · exact h
    · exact (hc (List.cons.inj he).1).elim
  · exact .inl

theorem cons_mem_afterHash {c : Char} (hc : c ≠ '-') (s : Str) : c :: s ∉ afterHash := by
  rw [mem_afterHash]
  rintro (h | ⟨w, _, he⟩)
  · contradiction
  · exact hc (List.cons.inj he).1

theorem cons_notMem_one (c : Char) (s : Str) : c :: s ∉ (1 : Language Char) := by
  rw [Language.mem_one]
  exact List.cons_ne_nil c s

theorem underscore_mem_afterLetter (s : Str) :
    '_' :: s ∈ afterLetter ↔ ∃ w ∈ suffixNames, ∃ y ∈ afterSuffix, s = w ++ y := by
  rw [mem_afterLetter, cons_mem_hash_mul (by decide)]
  constructor
  · rintro (h | ⟨w, hw, y, hy, he⟩)
    · exact (cons_mem_afterHash (by decide) s h).elim
    · exact ⟨w, hw, y, hy, (List.cons.inj he).2⟩
  · rintro ⟨w, hw, y, hy, rfl⟩
    exact .inr ⟨w, hw, y, hy, rfl⟩

theorem underscore_mem_residual (t : TokenType) (s : Str) :
    '_' :: s ∈ residual t ↔ t.code ≤ TokenType.suffixNo.code ∧
      s.takeWhile isclow ∈ suffixNames ∧ s.dropWhile isclow ∈ afterSuffix := by
  rw [← exists_suffixName_iff, ← underscore_mem_afterLetter]
  cases t with
  | initialDigit | digit =>
      rw [residual, cons_mem_afterDigit (by decide) (by decide)]
      simp [TokenType.code]
  | letter | suffixNo => simp [residual, TokenType.code]
  | suffix =>
      rw [residual, cons_mem_afterSuffix (by decide)]
      simp [TokenType.code]
  | commitHash =>
      have h := cons_mem_afterHash (c := '_') (by decide) s
      simp [residual, TokenType.code, h]
  | revisionNo | endTok =>
      have h := cons_notMem_one '_' s
      simp [residual, TokenType.code, h]
  | invalid => simp [residual, TokenType.code, Language.notMem_zero]

theorem tilde_mem_hash_mul (s : Str) : '~' :: s ∈ hashPart * revisionPart ↔
    ∃ w ∈ someOf isxdigit, ∃ y ∈ afterHash, s = w ++ y := by
  rw [mem_hash_mul]
  constructor
  · rintro (h | ⟨w, hw, y, hy, he⟩)
    · exact (cons_mem_afterHash (by decide) s h).elim
    · exact ⟨w, hw, y, hy, (List.cons.inj he).2⟩
  · rintro ⟨w, hw, y, hy, rfl⟩
    exact .inr ⟨w, hw, y, hy, rfl⟩

theorem tilde_mem_residual (t : TokenType) (s : Str) :
    '~' :: s ∈ residual t ↔ t.code < TokenType.commitHash.code ∧
      s.takeWhile isxdigit ≠ [] ∧ s.dropWhile isxdigit ∈ afterHash := by
  rw [← exists_someOf_iff (fun _ => stops_afterHash (by decide)), ← tilde_mem_hash_mul]
  cases t with
  | initialDigit | digit =>
      rw [residual, cons_mem_afterDigit (by decide) (by decide), cons_mem_afterLetter (by decide)]
      simp [TokenType.code]
  | letter | suffixNo =>
      rw [residual, cons_mem_afterLetter (by decide)]
      simp [TokenType.code]
  | suffix =>
      rw [residual, cons_mem_afterSuffix (by decide), cons_mem_afterLetter (by decide)]
      simp [TokenType.code]
  | commitHash =>
      have h := cons_mem_afterHash (c := '~') (by decide) s
      simp [residual, TokenType.code, h]
  | revisionNo | endTok =>
      have h := cons_notMem_one '~' s
      simp [residual, TokenType.code, h]
  | invalid => simp [residual, TokenType.code, Language.notMem_zero]

theorem dash_mem_afterHash (s : Str) :
    '-' :: s ∈ afterHash ↔ ∃ w ∈ someOf iscdigit, s = 'r' :: w := by
  rw [mem_afterHash]
  constructor
  · rintro (h | ⟨w, hw, he⟩)
    · contradiction
    · exact ⟨w, hw, (List.cons.inj he).2⟩
  · rintro ⟨w, hw, rfl⟩
    exact .inr ⟨w, hw, rfl⟩

theorem dash_mem_residual (t : TokenType) (s : Str) :
    '-' :: s ∈ residual t ↔ t.code < TokenType.revisionNo.code ∧
      ∃ w ∈ someOf iscdigit, s = 'r' :: w := by
  rw [← dash_mem_afterHash]
  cases t with
  | initialDigit | digit =>
      rw [residual, cons_mem_afterDigit (by decide) (by decide), cons_mem_afterLetter (by decide),
        cons_mem_hash_mul (by decide)]
      simp [TokenType.code]
  | letter | suffixNo =>
      rw [residual, cons_mem_afterLetter (by decide), cons_mem_hash_mul (by decide)]
      simp [TokenType.code]
  | suffix =>
      rw [residual, cons_mem_afterSuffix (by decide), cons_mem_afterLetter (by decide),
        cons_mem_hash_mul (by decide)]
      simp [TokenType.code]
  | commitHash => simp [residual, TokenType.code]
  | revisionNo | endTok =>
      have h := cons_notMem_one '-' s
      simp [residual, TokenType.code, h]
  | invalid => simp [residual, TokenType.code, Language.notMem_zero]

/-- No residual below the dotted components contains this first character. -/
theorem other_notMem_afterLetter {c : Char} (hunder : c ≠ '_') (htilde : c ≠ '~') (hdash : c ≠ '-')
    (s : Str) : c :: s ∉ afterLetter := by
  rw [cons_mem_afterLetter hunder, cons_mem_hash_mul htilde]
  exact cons_mem_afterHash hdash s

theorem low_mem_residual (t : TokenType) {c : Char} (hc : isclow c = true) (s : Str) :
    c :: s ∈ residual t ↔ t.code ≤ TokenType.digit.code ∧ s ∈ afterLetter := by
  have hne : ∀ d, isclow d = false → c ≠ d := by
    rintro d hd rfl
    rw [hc] at hd
    contradiction
  have hletter := other_notMem_afterLetter (hne '_' rfl) (hne '~' rfl) (hne '-' rfl) s
  have hdigit : c :: s ∈ afterDigit ↔ s ∈ afterLetter := by
    rw [mem_afterDigit, mem_letterOpt_mul]
    constructor
    · rintro ((h | ⟨d, _, y, hy, he⟩) | ⟨w, _, y, _, he⟩)
      · exact (hletter h).elim
      · rwa [(List.cons.inj he).2]
      · exact (hne '.' rfl (List.cons.inj he).1).elim
    · intro h
      exact .inl (.inr ⟨c, hc, s, h, rfl⟩)
  cases t with
  | initialDigit | digit => simp [residual, hdigit, TokenType.code]
  | letter | suffixNo => simp [residual, hletter, TokenType.code]
  | suffix =>
      rw [residual, cons_mem_afterSuffix (iscdigit_of_isclow hc)]
      simp [hletter, TokenType.code]
  | commitHash =>
      have h := cons_mem_afterHash (hne '-' rfl) s
      simp [residual, TokenType.code, h]
  | revisionNo | endTok =>
      have h := cons_notMem_one c s
      simp [residual, TokenType.code, h]
  | invalid => simp [residual, TokenType.code, Language.notMem_zero]

theorem dot_mem_residual (t : TokenType) (s : Str) :
    '.' :: s ∈ residual t ↔ t.code ≤ TokenType.digit.code ∧
      s.takeWhile iscdigit ≠ [] ∧ s.dropWhile iscdigit ∈ afterDigit := by
  rw [← exists_someOf_iff fun _ => stops_afterDigit]
  have hletter := other_notMem_afterLetter (c := '.') (by decide) (by decide) (by decide) s
  have hdigit : '.' :: s ∈ afterDigit ↔
      ∃ w ∈ someOf iscdigit, ∃ y ∈ afterDigit, s = w ++ y := by
    rw [mem_afterDigit, mem_letterOpt_mul]
    constructor
    · rintro ((h | ⟨d, hd, y, _, he⟩) | ⟨w, hw, y, hy, he⟩)
      · exact (hletter h).elim
      · rw [← (List.cons.inj he).1] at hd
        contradiction
      · exact ⟨w, hw, y, hy, (List.cons.inj he).2⟩
    · rintro ⟨w, hw, y, hy, rfl⟩
      exact .inr ⟨w, hw, y, hy, rfl⟩
  cases t with
  | initialDigit | digit => simp [residual, hdigit, TokenType.code]
  | letter | suffixNo => simp [residual, hletter, TokenType.code]
  | suffix =>
      rw [residual, cons_mem_afterSuffix (by decide)]
      simp [hletter, TokenType.code]
  | commitHash =>
      have h := cons_mem_afterHash (c := '.') (by decide) s
      simp [residual, TokenType.code, h]
  | revisionNo | endTok =>
      have h := cons_notMem_one '.' s
      simp [residual, TokenType.code, h]
  | invalid => simp [residual, TokenType.code, Language.notMem_zero]

/-- After a suffix a digit opens the suffix number; no other residual has one. -/
theorem digit_mem_residual (t : TokenType) {c : Char} (hc : iscdigit c = true) (s : Str) :
    c :: s ∈ residual t ↔
      t = .suffix ∧ (c :: s).dropWhile iscdigit ∈ afterLetter := by
  have hne : ∀ d, iscdigit d = false → c ≠ d := by
    intro d hd he
    rw [he, hd] at hc
    contradiction
  have hletter := other_notMem_afterLetter (hne '_' rfl) (hne '~' rfl) (hne '-' rfl) s
  have hdigit : c :: s ∉ afterDigit := by
    intro h
    have hstop := stops_afterDigit h
    rw [stops_cons, hc] at hstop
    contradiction
  cases t with
  | initialDigit | digit => simp [residual, hdigit]
  | letter | suffixNo => simp [residual, hletter]
  | suffix =>
      rw [residual, exists_manyOf_digit_iff]
      simp
  | commitHash =>
      have h := cons_mem_afterHash (hne '-' rfl) s
      simp [residual, h]
  | revisionNo | endTok =>
      have h := cons_notMem_one c s
      simp [residual, h]
  | invalid => simp [residual, Language.notMem_zero]

theorem other_notMem_residual (t : TokenType) {c : Char} (hlow : isclow c = false)
    (hdig : iscdigit c = false) (hunder : c ≠ '_') (htilde : c ≠ '~') (hdash : c ≠ '-')
    (hdot : c ≠ '.') (s : Str) : c :: s ∉ residual t := by
  have hletter := other_notMem_afterLetter hunder htilde hdash s
  cases t with
  | initialDigit | digit => rwa [residual, cons_mem_afterDigit hdot hlow]
  | letter | suffixNo => exact hletter
  | suffix => rwa [residual, cons_mem_afterSuffix hdig]
  | commitHash => exact cons_mem_afterHash hdash s
  | revisionNo | endTok => exact cons_notMem_one c s
  | invalid => exact Language.notMem_zero _

/-! ## Acceptance -/

/-- The tokenizer reaches the end of the string from here. -/
def Accepts (tok : Token) : Prop := validateLoop tok = .endTok

theorem accepts_next {tok : Token} (h : tok.token.code < TokenType.endTok.code) :
    Accepts tok ↔ Accepts tok.next := by
  rw [Accepts, validateLoop, dif_pos h]
  rfl

theorem accepts_of_stopped {tok : Token} (h : ¬ tok.token.code < TokenType.endTok.code) :
    Accepts tok ↔ tok.token = .endTok := by
  rw [Accepts, validateLoop, dif_neg h]

theorem not_accepts_of_invalid {tok : Token} (h : tok.token = .invalid) : ¬ Accepts tok := by
  rw [accepts_of_stopped (by simp [h, TokenType.code]), h]
  decide

theorem not_accepts_invalidate (tok : Token) : ¬ Accepts tok.invalidate :=
  not_accepts_of_invalid rfl

/-- The span read last cannot be continued by the remaining input. -/
def Token.Munched (t : Token) : Prop :=
  match t.token with
  | .initialDigit | .digit | .suffixNo => Stops iscdigit t.input
  | _ => True

theorem munched_of_stops {t : Token} (h : Stops iscdigit t.input) : t.Munched := by
  unfold Token.Munched
  split <;> first | exact h | trivial

theorem mem_suffixNames (w : Str) : w ∈ suffixNames ↔
    w ∈ ["alpha", "beta", "pre", "rc", "cvs", "svn", "git", "hg", "p"].map String.toList :=
  Iff.rfl

/-- The dictionary knows exactly the suffix names. -/
theorem sufmap_eq_invalid_iff (w : Str) :
    (sufmap.lookup w).getD .invalid = .invalid ↔ w ∉ suffixNames := by
  rw [mem_suffixNames]
  simp only [sufmap, List.lookup_cons, List.lookup_nil, List.map_cons, List.map_nil,
    List.mem_cons, List.not_mem_nil, or_false]
  repeat' split
  all_goals simp_all

/-! ## One transition against the residual -/

/-- The induction hypothesis of the acceptance proof: shorter tokenizers are settled. -/
def Settled (n : Nat) : Prop :=
  ∀ t : Token, t.remaining < n → t.token.code < TokenType.endTok.code → t.Munched →
    (Accepts t ↔ t.input ∈ residual t.token)

theorem settled_apply {n : Nat} (h : Settled n) {t : Token} (hlen : t.input.length + 1 < n)
    (hlt : t.token.code < TokenType.endTok.code) (hm : t.Munched) :
    Accepts t ↔ t.input ∈ residual t.token :=
  h t (Nat.lt_of_le_of_lt (Token.remaining_le t) hlen) hlt hm

theorem length_dropWhile_lt {p : Char → Bool} {s : Str} (h : s.takeWhile p ≠ []) :
    (s.dropWhile p).length < s.length := by
  have hsplit := congrArg List.length (List.takeWhile_append_dropWhile (p := p) (l := s))
  have hpos := List.length_pos_iff.mpr h
  rw [List.length_append] at hsplit
  omega

theorem accepts_nextSuffix {tok : Token} {s : Str} (hin : tok.input = '_' :: s)
    (ih : Settled (s.length + 2)) :
    Accepts (tok.nextSuffix s) ↔ '_' :: s ∈ residual tok.token := by
  rw [underscore_mem_residual, Token.nextSuffix]
  by_cases hthr : tok.token.code > TokenType.suffixNo.code ∨ tok.input.length ≤ 1
  · rw [if_pos hthr]
    have hno : ¬ (tok.token.code ≤ TokenType.suffixNo.code ∧
        s.takeWhile isclow ∈ suffixNames ∧ s.dropWhile isclow ∈ afterSuffix) := by
      intro h
      rcases hthr with hthr | hlen
      · omega
      · have hs : s = [] := by
          rw [hin, List.length_cons] at hlen
          exact List.length_eq_zero_iff.mp (by omega)
        rw [hs] at h
        exact absurd h.2.1 (by rw [mem_suffixNames]; decide)
    simp [not_accepts_invalidate, hno]
  · rw [if_neg hthr]
    have hle : tok.token.code ≤ TokenType.suffixNo.code := by omega
    by_cases hspan : s.takeWhile isclow = []
    · have hno : s.takeWhile isclow ∉ suffixNames := by
        rw [hspan, mem_suffixNames]
        decide
      simp only [Token.extractSpan, hspan, if_true, not_accepts_invalidate, false_iff]
      intro h
      exact hno (hspan ▸ h.2.1)
    · simp only [Token.extractSpan, if_neg hspan]
      by_cases hname : s.takeWhile isclow ∈ suffixNames
      · have hval := (not_congr (sufmap_eq_invalid_iff (s.takeWhile isclow))).mpr (not_not.mpr hname)
        have hlen := length_dropWhile_lt hspan
        rw [if_neg hval, settled_apply ih]
        · simp [residual, hle, hname]
        · dsimp only
          omega
        · simp [TokenType.code]
        · trivial
      · have hval := (sufmap_eq_invalid_iff (s.takeWhile isclow)).mpr hname
        rw [if_pos hval]
        simp [not_accepts_invalidate, hname]

theorem accepts_nextHash {tok : Token} {s : Str} (hin : tok.input = '~' :: s)
    (ih : Settled (s.length + 2)) :
    Accepts (tok.nextHash s) ↔ '~' :: s ∈ residual tok.token := by
  rw [tilde_mem_residual, Token.nextHash]
  by_cases hthr : tok.token.code ≥ TokenType.commitHash.code ∨ tok.input.length ≤ 1
  · rw [if_pos hthr]
    have hno : ¬ (tok.token.code < TokenType.commitHash.code ∧
        s.takeWhile isxdigit ≠ [] ∧ s.dropWhile isxdigit ∈ afterHash) := by
      intro h
      rcases hthr with hthr | hlen
      · omega
      · have hs : s = [] := by
          rw [hin, List.length_cons] at hlen
          exact List.length_eq_zero_iff.mp (by omega)
        exact h.2.1 (by rw [hs]; rfl)
    simp only [not_accepts_invalidate, hno]
  · rw [if_neg hthr]
    have hle : tok.token.code < TokenType.commitHash.code := by omega
    by_cases hspan : s.takeWhile isxdigit = []
    · simp [Token.extractSpan, hspan, not_accepts_invalidate]
    · simp only [Token.extractSpan, if_neg hspan]
      have hlen := length_dropWhile_lt hspan
      rw [settled_apply ih]
      · simp [residual, hle, hspan]
      · dsimp only
        omega
      · simp [TokenType.code]
      · trivial

theorem accepts_nextRevision {tok : Token} {s : Str} (hin : tok.input = '-' :: s)
    (ih : Settled (s.length + 2)) :
    Accepts tok.nextRevision ↔ '-' :: s ∈ residual tok.token := by
  rw [dash_mem_residual, Token.nextRevision]
  by_cases hthr : tok.token.code ≥ TokenType.revisionNo.code ∨ ¬ "-r".toList <+: tok.input
  · rw [if_pos hthr]
    have hno : ¬ (tok.token.code < TokenType.revisionNo.code ∧
        ∃ w ∈ someOf iscdigit, s = 'r' :: w) := by
      intro h
      obtain ⟨hlt, w, _, hs⟩ := h
      rcases hthr with hthr | hpre
      · omega
      · exact hpre ⟨w, by rw [hin, hs]; rfl⟩
    simp only [not_accepts_invalidate, hno]
  · rw [if_neg hthr]
    push Not at hthr
    obtain ⟨hlt, w, hw⟩ := hthr
    have hs : s = 'r' :: w := by
      rw [hin] at hw
      exact (List.cons.inj hw).2.symm
    have hdrop : tok.input.drop 2 = w := by
      rw [hin, hs]
      rfl
    rw [hdrop]
    by_cases hspan : w.takeWhile iscdigit = []
    · have hno : ¬ ∃ v ∈ someOf iscdigit, s = 'r' :: v := by
        intro h
        obtain ⟨v, hv, he⟩ := h
        have hwv : w = v := by
          rw [hs] at he
          exact (List.cons.inj he).2
        rw [hwv, List.takeWhile_eq_self_iff.mpr hv.2] at hspan
        exact hv.1 hspan
      simp [Token.extractSpan, hspan, not_accepts_invalidate, hno]
    · simp only [Token.extractSpan, if_neg hspan]
      have hlen := length_dropWhile_lt hspan
      have hslen : s.length = w.length + 1 := by
        rw [hs]
        rfl
      have hone : w.dropWhile iscdigit ∈ residual TokenType.revisionNo ↔
          ∃ v ∈ someOf iscdigit, s = 'r' :: v := by
        rw [residual, Language.mem_one]
        constructor
        · intro hnil
          have hall := List.dropWhile_eq_nil_iff.mp hnil
          have hne : w ≠ [] := by
            intro he
            rw [he] at hspan
            exact hspan rfl
          exact ⟨w, ⟨hne, hall⟩, hs⟩
        · intro h
          obtain ⟨v, hv, he⟩ := h
          have hwv : w = v := by
            rw [hs] at he
            exact (List.cons.inj he).2
          rw [hwv]
          exact List.dropWhile_eq_nil_iff.mpr hv.2
      rw [settled_apply ih]
      · simp [hone, hlt]
      · dsimp only
        omega
      · simp [TokenType.code]
      · trivial

/-- A number read where a dotted component or a suffix number may stand. -/
theorem accepts_nextNumber_dotted {tok : Token} {s : Str} (hin : tok.input = s)
    (hle : tok.token.code ≤ TokenType.digit.code) (ih : Settled (s.length + 2)) :
    Accepts tok.nextNumber ↔ s.takeWhile iscdigit ≠ [] ∧ s.dropWhile iscdigit ∈ afterDigit := by
  have henter : tok.enterNumber = { tok with token := .digit } := by
    unfold Token.enterNumber
    cases h : tok.token <;> simp [h, TokenType.code] at hle ⊢
  rw [Token.nextNumber, henter, if_neg (by simp)]
  by_cases hspan : s.takeWhile iscdigit = []
  · simp [Token.extractSpan, hin, hspan, not_accepts_invalidate]
  · have hlen := length_dropWhile_lt hspan
    simp only [Token.extractSpan, hin, if_neg hspan]
    rw [settled_apply ih]
    · simp [residual, hspan]
    · dsimp only
      omega
    · simp [TokenType.code]
    · exact munched_of_stops (stops_dropWhile _ _)

theorem not_accepts_nextNumber {tok : Token} (hle : ¬ tok.token.code ≤ TokenType.digit.code)
    (htok : tok.token ≠ .suffix) : ¬ Accepts tok.nextNumber := by
  have henter : tok.enterNumber = tok.invalidate := by
    unfold Token.enterNumber
    cases h : tok.token <;> simp [h, TokenType.code] at hle htok ⊢
  rw [Token.nextNumber, henter, if_pos (Token.invalidate_token tok)]
  exact not_accepts_invalidate tok

theorem accepts_next_digit {tok : Token} {c : Char} {s : Str} (hin : tok.input = c :: s)
    (hc : iscdigit c = true) (hm : tok.Munched) (ih : Settled (s.length + 2)) :
    Accepts tok.nextNumber ↔ c :: s ∈ residual tok.token := by
  rw [digit_mem_residual _ hc]
  have hspan : (c :: s).takeWhile iscdigit ≠ [] := by simp [hc]
  by_cases htok : tok.token = .suffix
  · have hlen := length_dropWhile_lt hspan
    have henter : tok.enterNumber = { tok with token := .suffixNo } := by
      unfold Token.enterNumber
      rw [htok]
    rw [List.length_cons] at hlen
    rw [Token.nextNumber, henter, if_neg (by simp)]
    simp only [Token.extractSpan, hin, if_neg hspan]
    rw [settled_apply ih]
    · simp [residual, htok]
    · dsimp only
      omega
    · simp [TokenType.code]
    · exact munched_of_stops (stops_dropWhile _ _)
  · have hle : ¬ tok.token.code ≤ TokenType.digit.code := by
      -- an unread digit cannot follow a maximal digit run
      intro hle
      have hstop : Stops iscdigit tok.input := by
        unfold Token.Munched at hm
        cases h : tok.token <;> simp [h, TokenType.code] at hle hm
        all_goals exact hm
      rw [hin, stops_cons, hc] at hstop
      contradiction
    simp [not_accepts_nextNumber hle htok, htok]

/-- A tokenizer in state `t` accepts exactly the residual of `t`. -/
theorem accepts_iff_residual (n : Nat) : Settled n := by
  induction n with
  | zero =>
      intro t h
      omega
  | succ n ih =>
      intro t hrem hlt hm
      have hrem' : t.remaining = t.input.length + 1 := if_pos hlt
      rw [accepts_next hlt]
      unfold Token.next
      cases hin : t.input with
      | nil =>
          have hend : Accepts { t with token := .endTok } :=
            (accepts_of_stopped (by simp)).mpr rfl
          have hnil := nil_mem_residual hlt
          rw [hin] at hend
          exact ⟨fun _ => hnil, fun _ => hend⟩
      | cons c s =>
          have hn : s.length + 2 ≤ n := by
            rw [hrem', hin, List.length_cons] at hrem
            omega
          have ih' : Settled (s.length + 2) := fun u hu => ih u (by omega)
          dsimp only
          by_cases hlow : isclow c = true
          · rw [if_pos hlow, low_mem_residual _ hlow]
            by_cases hle : t.token.code > TokenType.digit.code
            · have hno : ¬ t.token.code ≤ TokenType.digit.code := by omega
              simp [hle, not_accepts_invalidate, hno]
            · have hyes : t.token.code ≤ TokenType.digit.code := by omega
              rw [if_neg hle, settled_apply ih']
              · simp [residual, hyes]
              · dsimp only
                omega
              · simp [TokenType.code]
              · trivial
          rw [if_neg hlow]
          by_cases hunder : c = '_'
          · subst hunder
            rw [if_pos rfl, accepts_nextSuffix hin ih']
          rw [if_neg hunder]
          by_cases htilde : c = '~'
          · subst htilde
            rw [if_pos rfl, accepts_nextHash hin ih']
          rw [if_neg htilde]
          by_cases hdash : c = '-'
          · subst hdash
            rw [if_pos rfl, accepts_nextRevision hin ih']
          rw [if_neg hdash]
          by_cases hdot : c = '.'
          · subst hdot
            rw [if_pos rfl, dot_mem_residual]
            by_cases hle : t.token.code > TokenType.digit.code
            · have hno : ¬ t.token.code ≤ TokenType.digit.code := by omega
              simp [hle, not_accepts_invalidate, hno]
            · have hyes : t.token.code ≤ TokenType.digit.code := by omega
              have hin' : ({ t with input := s } : Token).input = s := rfl
              rw [if_neg hle, accepts_nextNumber_dotted hin' hyes ih']
              simp [hyes]
          rw [if_neg hdot]
          by_cases hdig : iscdigit c = true
          · rw [if_neg (by simp [hdig]), accepts_next_digit hin hdig hm ih']
          · have hdig' : iscdigit c = false := by simpa using hdig
            have hlow' : isclow c = false := by simpa using hlow
            have hother := other_notMem_residual t.token hlow' hdig' hunder htilde hdash hdot s
            rw [if_pos (by simp [hdig])]
            simp [not_accepts_invalidate, hother]

/-! ## Validation -/

/-- The loop stops within as many calls of `next` as there are inputs left. -/
theorem validateLoop_iterate (tok : Token) :
    ∃ k ≤ tok.remaining, ¬ (Token.next^[k] tok).token.code < TokenType.endTok.code ∧
      validateLoop tok = (Token.next^[k] tok).token := by
  induction tok using validateLoop.induct with
  | case1 tok hlt ih =>
      obtain ⟨k, hk, hstop, heq⟩ := ih
      have hdec := Token.next_remaining_lt hlt
      refine ⟨k + 1, by omega, ?_, ?_⟩
      · rwa [Function.iterate_succ_apply]
      · rw [validateLoop, dif_pos hlt, Function.iterate_succ_apply]
        exact heq
  | case2 tok hstop =>
      refine ⟨0, Nat.zero_le _, hstop, ?_⟩
      rw [validateLoop, dif_neg hstop]
      rfl

theorem init_remaining_le (s : Str) : (Token.init s).remaining ≤ s.length + 1 := by
  have hlen : (Token.init s).input.length ≤ s.length := by
    unfold Token.init
    extract_lets t
    cases h : t.extractSpan iscdigit with
    | none => exact Nat.le_refl _
    | some u => exact Nat.le_of_lt (Token.extractSpan_length h).2
  have hrem := Token.remaining_le (Token.init s)
  omega

theorem versionValidate_iff_mem (s : Str) : versionValidate s = true ↔ s ∈ versionGrammar := by
  have hgrammar : s ∈ versionGrammar ↔
      s.takeWhile iscdigit ≠ [] ∧ s.dropWhile iscdigit ∈ afterDigit := by
    rw [← exists_someOf_iff fun _ => stops_afterDigit]
    rw [versionGrammar, Language.mem_mul]
    constructor
    · intro h
      obtain ⟨w, hw, y, hy, he⟩ := h
      exact ⟨w, hw, y, hy, he.symm⟩
    · intro h
      obtain ⟨w, hw, y, hy, he⟩ := h
      exact ⟨w, hw, y, hy, he.symm⟩
  rw [hgrammar, versionValidate, decide_eq_true_iff]
  by_cases hspan : s.takeWhile iscdigit = []
  · have hinit : Token.init s = (⟨.initialDigit, s, [], 0, .invalid⟩ : Token).invalidate := by
      simp [Token.init, Token.extractSpan, hspan]
    have hno := not_accepts_invalidate ⟨.initialDigit, s, [], 0, .invalid⟩
    rw [← hinit] at hno
    simp only [hspan, ne_eq, not_true_eq_false, false_and, iff_false]
    exact hno
  · have hinit : Token.init s = ⟨.initialDigit, s.dropWhile iscdigit, s.takeWhile iscdigit,
        pyInt (s.takeWhile iscdigit), .invalid⟩ := by
      simp [Token.init, Token.extractSpan, hspan]
    have hacc := accepts_iff_residual ((Token.init s).remaining + 1) (Token.init s) (by omega)
      (by simp [hinit, TokenType.code]) (by rw [hinit]; exact munched_of_stops (stops_dropWhile _ _))
    rw [hinit] at hacc ⊢
    simp only [ne_eq, hspan, not_false_eq_true, true_and]
    exact hacc

/-- `version_validate` stops after at most one call of `next` per character and one
for the end, and accepts exactly the version grammar. -/
theorem versionValidate_grammar (s : Str) :
    (∃ k ≤ s.length + 1, ¬ (Token.next^[k] (.init s)).token.code < TokenType.endTok.code ∧
      versionValidate s = decide ((Token.next^[k] (.init s)).token = .endTok)) ∧
    (versionValidate s = true ↔ s ∈ versionGrammar) := by
  obtain ⟨k, hk, hstop, heq⟩ := validateLoop_iterate (.init s)
  have hbound := init_remaining_le s
  refine ⟨⟨k, by omega, hstop, ?_⟩, versionValidate_iff_mem s⟩
  rw [versionValidate, heq]

end Cbuild.Apk
