import Cbuild.Lib.Span

/-! # The version tokenizer of `cbuild/apk/util.py`

`Token` is the mutable tokenizer object of the source, passed as a value.
`Token.next` is its transition and `versionValidate`, `versionCompareOp` are the
two loops that drive it. A Python string is the list of its characters; `int()`
is total here, since it is only ever applied to a run of ASCII digits.
-/

namespace Cbuild

/-- A Python `str`, as its sequence of code points. -/
abbrev Str := List Char

instance : LawfulBEq Str := List.instLawfulBEq

instance : LawfulBEq (List Str) := List.instLawfulBEq

namespace Apk

/-! ## Character classes -/

def iscdigit (val : Char) : Bool := 0x30 ≤ val.toNat && val.toNat ≤ 0x39

def isclow (val : Char) : Bool := 0x61 ≤ val.toNat && val.toNat ≤ 0x7A

def isxdigit (val : Char) : Bool :=
  (0x30 ≤ val.toNat && val.toNat ≤ 0x39) || (0x61 ≤ val.toNat && val.toNat ≤ 0x66)

/-- Python's `int()` on a run of ASCII digits. -/
def pyInt (s : Str) : Nat := s.foldl (fun n c => 10 * n + (c.toNat - 0x30)) 0

/-! ## Token types and suffixes -/

inductive TokenType where
  | initialDigit | digit | letter | suffix | suffixNo | commitHash | revisionNo | endTok | invalid
  deriving DecidableEq, Repr

/-- The integer constants of the source; every threshold test compares these. -/
def TokenType.code : TokenType → Nat
  | .initialDigit => 0
  | .digit => 1
  | .letter => 2
  | .suffix => 3
  | .suffixNo => 4
  | .commitHash => 5
  | .revisionNo => 6
  | .endTok => 7
  | .invalid => 8

inductive Suffix where
  | invalid | alpha | beta | pre | rc | none | cvs | svn | git | hg | p
  deriving DecidableEq, Repr

def Suffix.code : Suffix → Nat
  | .invalid => 0
  | .alpha => 1
  | .beta => 2
  | .pre => 3
  | .rc => 4
  | .none => 5
  | .cvs => 6
  | .svn => 7
  | .git => 8
  | .hg => 9
  | .p => 10

/-- The dictionary mapping suffix names to suffix constants. -/
def sufmap : List (Str × Suffix) :=
  [("alpha".toList, .alpha), ("beta".toList, .beta), ("pre".toList, .pre),
    ("rc".toList, .rc), ("cvs".toList, .cvs), ("svn".toList, .svn),
    ("git".toList, .git), ("hg".toList, .hg), ("p".toList, .p)]

/-! ## The tokenizer object -/

structure Token where
  token : TokenType
  input : Str
  value : Str
  number : Nat
  suffix : Suffix
  deriving DecidableEq, Repr

namespace Token

/-- Cuts the longest nonempty prefix in the class `fn` off the input into `value`. -/
def extractSpan (fn : Char → Bool) (self : Token) : Option Token :=
  if self.input.takeWhile fn = [] then none
  else some { self with value := self.input.takeWhile fn, input := self.input.dropWhile fn }

def invalidate (self : Token) : Token := { self with token := .invalid }

/-- `Token.__init__`. The attributes the constructor leaves unset are never read
before `next` has set them; they start out empty. -/
def init (ver : Str) : Token :=
  let self : Token := ⟨.initialDigit, ver, [], 0, .invalid⟩
  match self.extractSpan iscdigit with
  | none => self.invalidate
  | some self => { self with number := pyInt self.value }

def nextSuffix (self : Token) (rest : Str) : Token :=
  if self.token.code > TokenType.suffixNo.code ∨ self.input.length ≤ 1 then self.invalidate
  else
    let self := { self with input := rest }
    match self.extractSpan isclow with
    | none => self.invalidate
    | some self =>
        let self := { self with suffix := (sufmap.lookup self.value).getD .invalid }
        if self.suffix = .invalid then self.invalidate else { self with token := .suffix }

def nextHash (self : Token) (rest : Str) : Token :=
  if self.token.code ≥ TokenType.commitHash.code ∨ self.input.length ≤ 1 then self.invalidate
  else
    let self := { self with input := rest, token := .commitHash }
    match self.extractSpan isxdigit with
    | none => self.invalidate
    | some self => self

def nextRevision (self : Token) : Token :=
  if self.token.code ≥ TokenType.revisionNo.code ∨ ¬ "-r".toList <+: self.input then
    self.invalidate
  else
    let self := { self with input := self.input.drop 2, token := .revisionNo }
    match self.extractSpan iscdigit with
    | none => self.invalidate
    | some self => { self with number := pyInt self.value }

/-- The type a number gets in the current state. -/
def enterNumber (self : Token) : Token :=
  match self.token with
  | .initialDigit | .digit => { self with token := .digit }
  | .suffix => { self with token := .suffixNo }
  | _ => self.invalidate

/-- The shared tail of `next`: a dot has been skipped, or the input is at a digit. -/
def nextNumber (self : Token) : Token :=
  if self.enterNumber.token = .invalid then self.enterNumber
  else
    match self.enterNumber.extractSpan iscdigit with
    | none => self.enterNumber.invalidate
    | some self => { self with number := pyInt self.value }

/-- `Token.next`. -/
def next (self : Token) : Token :=
  match self.input with
  | [] => { self with token := .endTok }
  | inp :: rest =>
      if isclow inp then
        if self.token.code > TokenType.digit.code then self.invalidate
        else { self with value := [inp], token := .letter, input := rest }
      else if inp = '_' then self.nextSuffix rest
      else if inp = '~' then self.nextHash rest
      else if inp = '-' then self.nextRevision
      else if inp = '.' then
        if self.token.code > TokenType.digit.code then self.invalidate
        else { self with input := rest }.nextNumber
      else if ¬ iscdigit inp then self.invalidate
      else self.nextNumber

/-! ## Comparison of two tokens of one type -/

def cmpValue (a b : Str) : Ordering := if a = b then .eq else if a < b then .lt else .gt

def cmpNumber (a b : Nat) : Ordering := if a < b then .lt else if a > b then .gt else .eq

/-- `Token.compare`; only called on tokens of equal type. -/
def compare (self otok : Token) : Ordering :=
  match self.token with
  | .digit =>
      -- string comparison for 0-prefixed numbers
      if self.value.head? = some '0' ∨ otok.value.head? = some '0' then
        cmpValue self.value otok.value
      else cmpNumber self.number otok.number
  | .initialDigit | .suffixNo | .revisionNo => cmpNumber self.number otok.number
  | .suffix => cmpNumber self.suffix.code otok.suffix.code
  | .letter => cmpNumber (self.value.headD '\x00').toNat (otok.value.headD '\x00').toNat
  | _ => cmpValue self.value otok.value

/-! ## Progress

Every transition ends the tokenizer or shortens its input, which is what makes
both driving loops terminate on every string.
-/

theorem extractSpan_length {fn : Char → Bool} {self t : Token}
    (h : self.extractSpan fn = some t) :
    t.token = self.token ∧ t.input.length < self.input.length := by
  unfold extractSpan at h
  split at h
  · contradiction
  · rename_i hne
    cases h
    refine ⟨rfl, ?_⟩
    have hsplit := congrArg List.length (List.takeWhile_append_dropWhile (p := fn) (l := self.input))
    have hpos := List.length_pos_iff.mpr hne
    rw [List.length_append] at hsplit
    dsimp only
    omega

/-- The inputs still to be read, counting the end of the input as one. -/
def remaining (self : Token) : Nat :=
  if self.token.code < TokenType.endTok.code then self.input.length + 1 else 0

theorem remaining_le (self : Token) : self.remaining ≤ self.input.length + 1 := by
  unfold remaining
  split <;> omega

@[simp] theorem invalidate_remaining (self : Token) : self.invalidate.remaining = 0 := rfl

@[simp] theorem invalidate_token (self : Token) : self.invalidate.token = .invalid := rfl

theorem nextSuffix_remaining_le (self : Token) (rest : Str) :
    (self.nextSuffix rest).remaining ≤ rest.length := by
  unfold nextSuffix
  split
  · simp
  · cases h : Token.extractSpan isclow { self with input := rest } with
    | none => simp [h]
    | some t =>
        have hlen := (extractSpan_length h).2
        simp only [h]
        split
        · simp
        · exact Nat.le_trans (remaining_le _) hlen

theorem nextHash_remaining_le (self : Token) (rest : Str) :
    (self.nextHash rest).remaining ≤ rest.length := by
  unfold nextHash
  split
  · simp
  · cases h : Token.extractSpan isxdigit { self with input := rest, token := .commitHash } with
    | none => simp [h]
    | some t =>
        have hlen := (extractSpan_length h).2
        simp only [h]
        exact Nat.le_trans (remaining_le _) hlen

theorem nextRevision_remaining_le (self : Token) :
    self.nextRevision.remaining ≤ self.input.length := by
  unfold nextRevision
  split
  · simp
  · cases h : Token.extractSpan iscdigit
        { self with input := self.input.drop 2, token := .revisionNo } with
    | none => simp [h]
    | some t =>
        have hlen := (extractSpan_length h).2
        simp only [List.length_drop] at hlen
        simp only [h]
        exact Nat.le_trans (remaining_le _) (by dsimp only; omega)

theorem enterNumber_input (self : Token) : self.enterNumber.input = self.input := by
  unfold enterNumber
  cases self.token <;> rfl

theorem nextNumber_remaining_le (self : Token) :
    self.nextNumber.remaining ≤ self.input.length := by
  unfold nextNumber
  split
  · rename_i hinv
    simp [remaining, hinv, TokenType.code]
  · cases h : self.enterNumber.extractSpan iscdigit with
    | none => simp
    | some t =>
        have hlen := (extractSpan_length h).2
        rw [enterNumber_input] at hlen
        exact Nat.le_trans (remaining_le _) hlen

theorem next_remaining_lt {self : Token} (h : self.token.code < TokenType.endTok.code) :
    self.next.remaining < self.remaining := by
  have hrem : self.remaining = self.input.length + 1 := by rw [remaining, if_pos h]
  rw [hrem]
  cases hin : self.input with
  | nil => simp [next, hin, remaining, TokenType.code]
  | cons inp rest =>
      simp only [next, hin, List.length_cons]
      split
      · split
        · simp
        · exact Nat.lt_of_le_of_lt (remaining_le _) (by dsimp only; omega)
      split
      · exact Nat.lt_of_le_of_lt (nextSuffix_remaining_le self rest) (by omega)
      split
      · exact Nat.lt_of_le_of_lt (nextHash_remaining_le self rest) (by omega)
      split
      · exact Nat.lt_of_le_of_lt (nextRevision_remaining_le self) (by simp [hin])
      split
      · split
        · simp
        · exact Nat.lt_of_le_of_lt (nextNumber_remaining_le _) (by dsimp only; omega)
      split
      · simp
      · exact Nat.lt_of_le_of_lt (nextNumber_remaining_le self) (by simp [hin])

end Token

/-! ## The driving loops -/

/-- The loop of `version_validate`: the type of the token it stops at. -/
def validateLoop (tok : Token) : TokenType :=
  if _h : tok.token.code < TokenType.endTok.code then validateLoop tok.next else tok.token
termination_by tok.remaining
decreasing_by exact Token.next_remaining_lt _h

def versionValidate (ver : Str) : Bool := validateLoop (.init ver) = .endTok

/-- The verdict on the two tokens at which the loop of `version_compare_op` stops. -/
def compareStopped (toka tokb : Token) : Ordering :=
  if toka.token = tokb.token then .eq
  else if toka.token = .suffix ∧ toka.suffix.code < Suffix.none.code then .lt
  else if tokb.token = .suffix ∧ tokb.suffix.code < Suffix.none.code then .gt
  else if toka.token.code > tokb.token.code then .lt
  else if tokb.token.code > toka.token.code then .gt
  else .eq

/-- The loop of `version_compare_op`, on the two tokenizers it runs in lockstep. -/
def compareLoop (toka tokb : Token) : Ordering :=
  if _h : toka.token = tokb.token ∧ toka.token.code < TokenType.endTok.code then
    match toka.compare tokb with
    | .eq => compareLoop toka.next tokb.next
    | ret => ret
  else compareStopped toka tokb
termination_by toka.remaining
decreasing_by exact Token.next_remaining_lt _h.2

def versionCompareOp (vera verb : Str) : Ordering := compareLoop (.init vera) (.init verb)

end Apk
end Cbuild
