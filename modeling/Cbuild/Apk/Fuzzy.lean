import Cbuild.Apk.Lexing

/-! # The fuzzy comparison

`name~w` asks for a version that begins with the tokens of `w`. `meetsOp` compares
strings and looks at one character behind the prefix: it knows the tokens that begin
with a dash, a dot or an underscore.
-/

namespace Cbuild.Apk

open Lib

/-! ## The tokens in front -/

variable (v w : Version)

/-- A version with the tokens of another in front goes on behind its text with a new token. -/
theorem tokens_of_prefix (h : tokenValues w.text <+: tokenValues v.text) :
    ∃ r ls, v.text = w.text ++ r ∧ Stops w.lastToken.goesOn r ∧ Lexes w.lastToken r ls [] := by
  obtain ⟨lw, hw, hlw, hlast⟩ := w.tokens
  obtain ⟨lv, hv, hlv, -⟩ := v.tokens
  rw [hw, hv, List.cons_prefix_cons] at h
  obtain ⟨hlexeme, ls, rfl⟩ := h
  have hdigits : w.text.takeWhile iscdigit = v.text.takeWhile iscdigit := congrArg Prod.snd hlexeme
  obtain ⟨r, hfirst, hrest⟩ := hlv.split
  rw [hlast]
  refine ⟨r, ls, ?_, hfirst.stops (stops_dropWhile iscdigit v.text), hrest⟩
  have hvr := hfirst.text
  have hwr := hlw.text
  rw [List.append_nil] at hwr
  calc v.text = v.text.takeWhile iscdigit ++ v.text.dropWhile iscdigit :=
        (List.takeWhile_append_dropWhile).symm
    _ = w.text.takeWhile iscdigit ++ w.text.dropWhile iscdigit ++ r := by
        rw [hvr, hwr, ← hdigits, List.append_assoc]
    _ = w.text ++ r := by rw [List.takeWhile_append_dropWhile]

theorem prefix_of_stops {r : Str} (hr : v.text = w.text ++ r) (hs : Stops w.lastToken.goesOn r) :
    tokenValues w.text <+: tokenValues v.text := by
  obtain ⟨lw, hw, hlw, hlast⟩ := w.tokens
  rw [hlast] at hs
  have hstop : Stops iscdigit (w.text.dropWhile iscdigit ++ r) := by
    cases lw with
    | nil =>
        rw [show w.text.dropWhile iscdigit = [] from hlw.text]
        exact hs
    | cons l lw =>
        cases hlw with
        | cons first _ => exact stops_append_of_ne_nil (stops_dropWhile _ _) first.ne_nil
  have hspan := takeWhile_span (w := w.text.takeWhile iscdigit)
    (fun c hc => List.mem_takeWhile_imp hc) hstop
  rw [← List.append_assoc, List.takeWhile_append_dropWhile, ← hr] at hspan
  have hlv := hlw.append (r := r) hs
  have hinit := v.init_eq
  rw [hspan.1, hspan.2] at hinit
  have hpre : _ :: lw <+: _ := lexemes_of_lexes (t := .init v.text) (s := [] ++ r)
    (by rw [hinit]; exact Nat.zero_lt_succ 6) (by rw [hinit]; exact hlv)
  rw [hw]
  rw [hinit] at hpre
  unfold tokenValues
  rw [hinit]
  exact hpre

/-! ## What the comparison sees of them -/

def isDelimiter (c : Char) : Bool := c == '-' || c == '.' || c == '_'

theorem fuzzy_meets_iff : Op.fuzzy.Meets v w ↔
    ∃ r, v.text = w.text ++ r ∧ ∀ c, r.head? = some c → isDelimiter c = true := by
  unfold Op.Meets meetsOp
  rw [if_pos (show Op.fuzzy.text = ['~'] from rfl), Bool.and_eq_true, List.isPrefixOf_iff_prefix]
  constructor
  · intro h
    obtain ⟨⟨r, hr⟩, hc⟩ := h
    rw [← hr, List.drop_left] at hc
    refine ⟨r, hr.symm, ?_⟩
    cases r with
    | nil => exact fun c hc => by cases hc
    | cons d r =>
        intro c hd
        cases hd
        exact hc
  · intro h
    obtain ⟨r, hr, hc⟩ := h
    refine ⟨⟨r, hr.symm⟩, ?_⟩
    rw [hr, List.drop_left]
    cases r with
    | nil => rfl
    | cons d r => exact hc d rfl

theorem goesOn_delimiter (k : TokenType) {c : Char} (h : isDelimiter c = true) :
    k.goesOn c = false := by
  unfold isDelimiter at h
  simp only [Bool.or_eq_true, beq_iff_eq] at h
  obtain (rfl | rfl) | rfl := h <;> cases k <;> decide

/-- The version goes on behind the other with a token that has no delimiter. -/
def Undelimited : Prop := ∃ c r, v.text = w.text ++ c :: r ∧
  (c = '~' ∨ isclow c = true ∧ (w.lastToken = .initialDigit ∨ w.lastToken = .digit) ∨
    iscdigit c = true ∧ w.lastToken = .suffix)

theorem Reads.head {k : TokenType} {c : Char} {input s : Str} {l : Lexeme}
    (h : Reads k (c :: input) l s) (hc : isDelimiter c = false) :
    c = '~' ∨ isclow c = true ∧ (k = .initialDigit ∨ k = .digit) ∨
      iscdigit c = true ∧ k = .suffix := by
  generalize hin : c :: input = text at h
  cases h with
  | letter hk hlow =>
      cases hin
      refine Or.inr (Or.inl ⟨hlow, ?_⟩)
      cases k <;> simp [TokenType.code] at hk ⊢
  | suffixNo hne hw _ =>
      refine Or.inr (Or.inr ⟨?_, rfl⟩)
      obtain ⟨d, w, rfl⟩ := List.exists_cons_of_ne_nil hne
      cases hin
      exact hw c List.mem_cons_self
  | hash =>
      cases hin
      exact Or.inl rfl
  | suffix =>
      cases hin
      exact absurd hc (by decide)
  | revision =>
      cases hin
      exact absurd hc (by decide)
  | digit =>
      cases hin
      exact absurd hc (by decide)

theorem Undelimited.stops {v w : Version} (h : Undelimited v w) : ∃ c r,
    v.text = w.text ++ c :: r ∧ Stops w.lastToken.goesOn (c :: r) ∧ isDelimiter c = false := by
  obtain ⟨c, r, hr, hc⟩ := h
  refine ⟨c, r, hr, ?_⟩
  have hlow : ∀ d, isclow d = true → isDelimiter d = false := by
    intro d hd
    cases hdel : isDelimiter d with
    | false => rfl
    | true =>
        have := goesOn_delimiter .suffix hdel
        rw [show TokenType.suffix.goesOn = isclow from rfl, hd] at this
        cases this
  have hdig : ∀ d, iscdigit d = true → isDelimiter d = false := by
    intro d hd
    cases hdel : isDelimiter d with
    | false => rfl
    | true =>
        have := goesOn_delimiter .digit hdel
        rw [show TokenType.digit.goesOn = iscdigit from rfl, hd] at this
        cases this
  rw [stops_cons]
  obtain rfl | ⟨hc, hk⟩ | ⟨hc, hk⟩ := hc
  · refine ⟨?_, by decide⟩
    cases w.lastToken <;> decide
  · refine ⟨?_, hlow c hc⟩
    obtain hk | hk := hk <;> rw [hk] <;> exact iscdigit_of_isclow hc
  · refine ⟨?_, hdig c hc⟩
    rw [hk]
    cases hl : isclow c with
    | false => exact hl
    | true => rw [iscdigit_of_isclow hl] at hc; cases hc

/-- The string comparison is the comparison of the tokens except where the version goes on
behind the prefix with a hash, a letter or a suffix number. -/
theorem fuzzyMatch_iff_prefix (n : Name) (v w : Version) :
    (pkgMatch n.text v.text (n.constrained .fuzzy w) = some true ↔
      tokenValues w.text <+: tokenValues v.text) ↔ ¬ Undelimited v w := by
  have hmatch : pkgMatch n.text v.text (n.constrained .fuzzy w) = some true ↔
      Op.fuzzy.Meets v w := by
    rw [pkgMatch_constrained, Option.some.injEq]
    rfl
  rw [hmatch, fuzzy_meets_iff]
  constructor
  · intro h hund
    obtain ⟨c, r, hr, hstop, hc⟩ := hund.stops
    obtain ⟨r', hr', hdel⟩ := h.mpr (prefix_of_stops v w hr hstop)
    rw [hr, List.append_cancel_left_eq] at hr'
    rw [hdel c (by rw [← hr']; rfl)] at hc
    cases hc
  · intro h
    constructor
    · intro hm
      obtain ⟨r, hr, hdel⟩ := hm
      exact prefix_of_stops v w hr fun c hc => goesOn_delimiter _ (hdel c hc)
    · intro hpre
      obtain ⟨r, ls, hr, -, hlex⟩ := tokens_of_prefix v w hpre
      refine ⟨r, hr, ?_⟩
      intro c hc
      cases hdel : isDelimiter c with
      | true => rfl
      | false =>
          -- the version is valid, so a token is read here
          cases r with
          | nil => cases hc
          | cons d r =>
              cases hc
              cases hlex with
              | cons first _ => exact absurd ⟨c, r, hr, first.head hdel⟩ h

theorem letter_not_fuzzy : ¬ ∀ (n : Name) (v w : Version),
    pkgMatch n.text v.text (n.constrained .fuzzy w) = some true ↔
      tokenValues w.text <+: tokenValues v.text := by
  intro h
  have := h ⟨['n'], by decide⟩ ⟨['1', '.', '2', 'a'], by decide +kernel⟩
    ⟨['1', '.', '2'], by decide +kernel⟩
  revert this
  decide +kernel

end Cbuild.Apk
