import Cbuild.Apk.Token
import Cbuild.Lib.Fueled
import Cbuild.Lib.Span

/-! # The lexer of license expressions

`SPDXParser.lex`: what it takes from the stream, and the stream that is left. The tokens are
strings, as in the source; a token that carries a `:` or a `+` is told from the others by its text.
-/

namespace Cbuild.Spdx

open Lib

/-- The classes of characters of `str`, whose tables come with the interpreter. -/
structure CharTable where
  isspace : Char → Bool
  isalnum : Char → Bool
  alnum_ascii : ∀ c : Char, c.toNat < 128 → isalnum c = c.isAlphanum

structure SPDXParser where
  chars : CharTable
  /-- The ids of the licenses that are not deprecated. -/
  ldict : List Str
  /-- Those of the exceptions. -/
  edict : List Str

/-- What the parser raises. -/
inductive Exc
  /-- `RuntimeError` -/
  | runtime (msg : Str)
  /-- `AttributeError`: an operation on `None`. -/
  | attribute
  deriving DecidableEq

namespace CharTable

/-- A character of an id. -/
def word (u : CharTable) (c : Char) : Bool := c = '-' || c = '.' || u.isalnum c

theorem word_ascii (u : CharTable) {c : Char} (h : c.toNat < 128) :
    u.word c = (c = '-' || c = '.' || c.isAlphanum) := by
  unfold word
  rw [u.alnum_ascii c h]

end CharTable

/-- `startswith` -/
def startsWith (tok pfx : Str) : Bool := pfx.isPrefixOf tok

theorem startsWith_iff {tok pfx : Str} : startsWith tok pfx = true ↔ ∃ x, tok = pfx ++ x := by
  unfold startsWith
  rw [List.isPrefixOf_iff_prefix]
  constructor
  · intro h
    obtain ⟨x, hx⟩ := h
    exact ⟨x, hx.symm⟩
  · intro h
    obtain ⟨x, hx⟩ := h
    exact ⟨x, hx.symm⟩

namespace SPDXParser

/-- `lex`, with the stream it leaves; no token at the end. -/
def lex (d : SPDXParser) (stream : Str) : Except Exc (Option Str × Str) :=
  let s := stream.dropWhile d.chars.isspace
  match s with
  | [] => .ok (none, s)
  | c :: rest =>
      if c = '(' ∨ c = ')' then .ok (some [c], rest)
      else if startsWith s "WITH".toList then .ok (some "WITH".toList, s.drop 4)
      else if startsWith s "AND".toList then .ok (some "AND".toList, s.drop 3)
      else if startsWith s "OR".toList then .ok (some "OR".toList, s.drop 2)
      else
        let tok := s.takeWhile d.chars.word
        let left := s.dropWhile d.chars.word
        if tok = [] then .error (.runtime ("unknown token: ".toList ++ [c]))
        else if tok = "custom".toList ∧ left.head? = some ':' then
          let x := left.tail.takeWhile d.chars.word
          if x = [] then .error (.runtime "unknown token: 'custom:'".toList)
          else .ok (some (tok ++ ':' :: x), left.tail.dropWhile d.chars.word)
        else if startsWith tok "LicenseRef-".toList || startsWith tok "AdditionRef-".toList then
          .ok (some tok, left)
        else if startsWith tok "DocumentRef-".toList then
          if left.head? = some ':' then .ok (some tok, left.tail)
          else .error (.runtime "DocumentRef must be followed by colon".toList)
        else if tok ∉ d.ldict ∧ tok ∉ d.edict then
          .error (.runtime ("unknown token: ".toList ++ tok))
        else if left.head? = some '+' then .ok (some (tok ++ "+".toList), left.tail)
        else .ok (some tok, left)

/-! ## Tokens -/

/-- What the lexer may return. -/
inductive IsToken (d : SPDXParser) : Str → Prop
  | sign (t : Str) (h : t ∈ ["(".toList, ")".toList, "WITH".toList, "AND".toList, "OR".toList]) :
      IsToken d t
  | custom (x : Str) (h : ∀ c ∈ x, d.chars.word c) : IsToken d ("custom:".toList ++ x)
  | ref (t : Str) (h : startsWith t "LicenseRef-".toList ∨ startsWith t "AdditionRef-".toList ∨
      startsWith t "DocumentRef-".toList) (hword : ∀ c ∈ t, d.chars.word c) : IsToken d t
  | id (t : Str) (h : t ∈ d.ldict ∨ t ∈ d.edict) : IsToken d t
  | idPlus (t : Str) (h : t ∈ d.ldict ∨ t ∈ d.edict) : IsToken d (t ++ "+".toList)

variable {d : SPDXParser} {s s' : Str} {t : Str}

theorem length_dropWhile_le (p : Char → Bool) (s : Str) : (s.dropWhile p).length ≤ s.length :=
  (List.dropWhile_suffix p).length_le

theorem mem_takeWhile_word {c : Char} (h : c ∈ s.takeWhile d.chars.word) : d.chars.word c :=
  List.mem_takeWhile_imp h

/-- An id that is cut off shortens the stream. -/
theorem length_left_lt (h : s.takeWhile d.chars.word ≠ []) :
    (s.dropWhile d.chars.word).length < s.length := by
  have hsplit := congrArg List.length (List.takeWhile_append_dropWhile (p := d.chars.word) (l := s))
  have hpos := List.length_pos_iff.mpr h
  rw [List.length_append] at hsplit
  omega

/-- A token is taken off the stream, or there is none at its end, or `RuntimeError` is raised. -/
def Taken (d : SPDXParser) (s : Str) : Except Exc (Option Str × Str) → Prop
  | .error e => ∃ msg, e = .runtime msg
  | .ok (none, _) => True
  | .ok (some t, s') => d.IsToken t ∧ s'.length < s.length

/-- `lex` when the stream begins with a character that is no space. -/
theorem taken_word (c : Char) (rest : Str) (hsp : d.chars.isspace c = false) :
    d.Taken (c :: rest) (d.lex (c :: rest)) := by
  unfold lex
  rw [List.dropWhile_cons_of_neg (by simp [hsp])]
  dsimp only
  have hdrop : ∀ n, 0 < n → ((c :: rest).drop n).length < (c :: rest).length := by
    intro n hn
    rw [List.length_drop, List.length_cons]
    omega
  by_cases hparen : c = '(' ∨ c = ')'
  · rw [if_pos hparen]
    refine ⟨.sign _ ?_, Nat.lt_succ_self _⟩
    rcases hparen with rfl | rfl
    · simp
    · simp
  rw [if_neg hparen]
  by_cases hwith : startsWith (c :: rest) "WITH".toList = true
  · rw [if_pos hwith]
    exact ⟨.sign _ (by simp), hdrop _ (by decide)⟩
  rw [if_neg hwith]
  by_cases hand : startsWith (c :: rest) "AND".toList = true
  · rw [if_pos hand]
    exact ⟨.sign _ (by simp), hdrop _ (by decide)⟩
  rw [if_neg hand]
  by_cases hor : startsWith (c :: rest) "OR".toList = true
  · rw [if_pos hor]
    exact ⟨.sign _ (by simp), hdrop _ (by decide)⟩
  rw [if_neg hor]
  by_cases htok : (c :: rest).takeWhile d.chars.word = []
  · rw [if_pos htok]
    exact ⟨_, rfl⟩
  rw [if_neg htok]
  have hlt := length_left_lt htok
  have htail : ((c :: rest).dropWhile d.chars.word).tail.length < (c :: rest).length := by
    rw [List.length_tail]
    omega
  by_cases hcustom : (c :: rest).takeWhile d.chars.word = "custom".toList ∧
      ((c :: rest).dropWhile d.chars.word).head? = some ':'
  · rw [if_pos hcustom]
    split
    · exact ⟨_, rfl⟩
    · rw [hcustom.1]
      refine ⟨.custom _ fun c hc => mem_takeWhile_word hc, ?_⟩
      exact Nat.lt_of_le_of_lt (length_dropWhile_le _ _) htail
  rw [if_neg hcustom]
  split
  next href =>
    rw [Bool.or_eq_true] at href
    refine ⟨.ref _ ?_ fun c hc => mem_takeWhile_word hc, hlt⟩
    exact href.imp_right Or.inl
  split
  next hdoc =>
    split
    · exact ⟨.ref _ (Or.inr (Or.inr hdoc)) fun c hc => mem_takeWhile_word hc, htail⟩
    · exact ⟨_, rfl⟩
  split
  next => exact ⟨_, rfl⟩
  next hknown =>
    have hknown : (c :: rest).takeWhile d.chars.word ∈ d.ldict ∨
        (c :: rest).takeWhile d.chars.word ∈ d.edict := by
      by_contra hnot
      exact hknown (not_or.mp hnot)
    split
    · exact ⟨.idPlus _ hknown, htail⟩
    · exact ⟨.id _ hknown, hlt⟩

theorem lex_dropWhile (d : SPDXParser) (s : Str) : d.lex (s.dropWhile d.chars.isspace) = d.lex s := by
  unfold lex
  rw [dropWhile_of_stops (stops_dropWhile d.chars.isspace s)]

theorem taken_lex (d : SPDXParser) (s : Str) : d.Taken (s.dropWhile d.chars.isspace) (d.lex s) := by
  rw [← lex_dropWhile]
  cases hs : s.dropWhile d.chars.isspace with
  | nil => trivial
  | cons c rest =>
      exact taken_word c rest (stops_dropWhile d.chars.isspace s c (by rw [hs]; rfl))

theorem lex_spec (h : d.lex s = .ok (some t, s')) : d.IsToken t ∧ s'.length < s.length := by
  have hout := taken_lex d s
  rw [h] at hout
  exact ⟨hout.1, Nat.lt_of_lt_of_le hout.2 (length_dropWhile_le d.chars.isspace s)⟩

/-- The lexer raises nothing but `RuntimeError`. -/
theorem lex_error {e : Exc} (h : d.lex s = .error e) : ∃ msg, e = .runtime msg := by
  have hout := taken_lex d s
  rw [h] at hout
  exact hout

/-- The tokens of a string, and whether it has been lexed to its end. -/
def lexed (d : SPDXParser) (s : Str) : List Str × Bool :=
  match h : d.lex s with
  | .error _ => ([], false)
  | .ok (none, _) => ([], true)
  | .ok (some t, s') =>
      have := (lex_spec h).2
      (t :: (d.lexed s').1, (d.lexed s').2)
termination_by s.length

theorem lexed_of_error {e : Exc} (h : d.lex s = .error e) : d.lexed s = ([], false) := by
  rw [lexed]
  split
  · rfl
  · rename_i heq
    rw [h] at heq
    cases heq
  · rename_i heq
    rw [h] at heq
    cases heq

theorem lexed_of_none (h : d.lex s = .ok (none, s')) : d.lexed s = ([], true) := by
  rw [lexed]
  split
  · rename_i heq
    rw [h] at heq
    cases heq
  · rfl
  · rename_i heq
    rw [h] at heq
    cases heq

theorem lexed_of_some (h : d.lex s = .ok (some t, s')) :
    d.lexed s = (t :: (d.lexed s').1, (d.lexed s').2) := by
  rw [lexed]
  split
  · rename_i heq
    rw [h] at heq
    cases heq
  · rename_i heq
    rw [h] at heq
    cases heq
  · rename_i heq
    rw [h] at heq
    cases heq
    rfl

/-- Every token takes a character at least. -/
theorem length_lexed_le (d : SPDXParser) (s : Str) : (d.lexed s).1.length ≤ s.length := by
  induction s using lexed.induct d with
  | case1 s e h =>
      rw [lexed_of_error h]
      exact Nat.zero_le _
  | case2 s s' h =>
      rw [lexed_of_none h]
      exact Nat.zero_le _
  | case3 s t s' h hlt ih =>
      rw [lexed_of_some h]
      exact Nat.lt_of_le_of_lt ih hlt

theorem isToken_of_mem_lexed (d : SPDXParser) (s : Str) : ∀ t ∈ (d.lexed s).1, d.IsToken t := by
  induction s using lexed.induct d with
  | case1 s e h =>
      rw [lexed_of_error h]
      intro t ht
      cases ht
  | case2 s s' h =>
      rw [lexed_of_none h]
      intro t ht
      cases ht
  | case3 s t s' h hlt ih =>
      rw [lexed_of_some h]
      exact List.forall_mem_cons.mpr ⟨(lex_spec h).1, ih⟩

end SPDXParser

end Cbuild.Spdx
