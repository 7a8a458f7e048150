import Cbuild.Apk.Token
import Mathlib

/-! # The kernel command line of `myos-initrd`

`parse_cmdline` of `user/myos-initrd/files/src/main.rs`, with every field it sets
and every default. A Rust `str` is the list of its characters.
-/

namespace Cbuild.Initrd

structure BootConfig where
  root : Str
  rootType : Option Str
  rootFlags : Str
  readonly : Bool
  waitForever : Bool
  delay : Nat
  timeout : Nat
  init : Str
  shellOnError : Bool
  deriving DecidableEq

def BootConfig.default : BootConfig where
  root := []
  rootType := none
  rootFlags := []
  readonly := false
  waitForever := false
  delay := 0
  timeout := 30
  init := "/usr/bin/dinit".toList
  shellOnError := true

/-- `char::is_ascii_whitespace`: no vertical tab. -/
def isAsciiWhitespace (c : Char) : Bool :=
  c = ' ' || c = '\t' || c = '\n' || c = '\x0c' || c = '\r'

def splitAsciiWhitespace (line : Str) : List Str :=
  (line.splitOnP isAsciiWhitespace).filter (· ≠ [])

/-- `str::parse::<u64>`: a sign `+` may come first, and the value must fit. -/
def parseU64 (value : Str) : Option Nat :=
  let digits := if value.head? = some '+' then value.tail else value
  if digits ≠ [] ∧ digits.all Apk.iscdigit ∧ Apk.pyInt digits < 2 ^ 64 then
    some (Apk.pyInt digits)
  else none

def stripPrefix (p token : Str) : Option Str := p.isPrefixOf? token

/-- One token of the command line. -/
def applyToken (cfg : BootConfig) (token : Str) : BootConfig :=
  if token = "ro".toList then { cfg with readonly := true }
  else if token = "rw".toList then { cfg with readonly := false }
  else if token = "rootwait".toList then { cfg with waitForever := true }
  else if token = "rd.shell=0".toList then { cfg with shellOnError := false }
  else if let some value := stripPrefix "root=".toList token then { cfg with root := value }
  else if let some value := stripPrefix "rootfstype=".toList token then
    { cfg with rootType := some value }
  else if let some value := stripPrefix "rootflags=".toList token then
    { cfg with rootFlags := value }
  else if let some value := stripPrefix "rootdelay=".toList token then
    { cfg with delay := (parseU64 value).getD 0 }
  else if let some value := stripPrefix "rd.timeout=".toList token then
    { cfg with timeout := (parseU64 value).getD 30 }
  else if let some value := stripPrefix "init=".toList token then
    if value.head? = some '/' then { cfg with init := value } else cfg
  else cfg

def parseCmdline (line : Str) : BootConfig :=
  (splitAsciiWhitespace line).foldl applyToken .default

/-- The line feed that procfs puts after the command line makes no token. -/
theorem parseCmdline_lineFeed (line : Str) :
    parseCmdline (line ++ ['\n']) = parseCmdline line := by
  have h : (line ++ ['\n']).splitOnP isAsciiWhitespace =
      line.splitOnP isAsciiWhitespace ++ [[]] := by
    induction line with
    | nil => rfl
    | cons c line ih =>
        rw [List.cons_append, List.splitOnP_cons_eq_if_modifyHead,
          List.splitOnP_cons_eq_if_modifyHead, ih]
        by_cases hc : isAsciiWhitespace c = true
        · simp [hc]
        · simp only [hc]
          cases hs : line.splitOnP isAsciiWhitespace with
          | nil => exact absurd hs (List.splitOnP_ne_nil _ _)
          | cons w ws => rfl
  unfold parseCmdline splitAsciiWhitespace
  rw [h, List.filter_append]
  simp

/-- Whatever the tokens are, the program to start is an absolute path. -/
theorem applyToken_init {cfg : BootConfig} (h : cfg.init.head? = some '/') (token : Str) :
    (applyToken cfg token).init.head? = some '/' := by
  unfold applyToken
  repeat' split
  all_goals first | exact h | assumption

theorem parseCmdline_init (line : Str) : (parseCmdline line).init.head? = some '/' := by
  have h : ∀ (tokens : List Str) (cfg : BootConfig), cfg.init.head? = some '/' →
      (tokens.foldl applyToken cfg).init.head? = some '/' := by
    intro tokens
    induction tokens with
    | nil => exact fun cfg h => h
    | cons t tokens ih => exact fun cfg h => ih _ (applyToken_init h t)
  exact h _ _ rfl

theorem applyToken_shellOnError (cfg : BootConfig) (token : Str) :
    (applyToken cfg token).shellOnError =
      (cfg.shellOnError && token ≠ "rd.shell=0".toList) := by
  by_cases ht : token = "rd.shell=0".toList
  · subst ht
    show false = _
    simp
  · rw [decide_eq_true ht, Bool.and_true]
    unfold applyToken
    rw [if_neg ht]
    repeat' split
    all_goals rfl

/-- The shell is off exactly when `rd.shell=0` is a token of the line. -/
theorem parseCmdline_shellOnError (line : Str) :
    (parseCmdline line).shellOnError = false ↔ "rd.shell=0".toList ∈ splitAsciiWhitespace line := by
  have h : ∀ (tokens : List Str) (cfg : BootConfig),
      (tokens.foldl applyToken cfg).shellOnError = false ↔
        cfg.shellOnError = false ∨ "rd.shell=0".toList ∈ tokens := by
    intro tokens
    induction tokens with
    | nil => simp
    | cons t tokens ih =>
        intro cfg
        rw [List.foldl_cons, ih, applyToken_shellOnError, List.mem_cons, Bool.and_eq_false_iff,
          decide_eq_false_iff_not, not_not, or_assoc, eq_comm (a := t)]
  rw [parseCmdline, h]
  exact or_iff_right (fun hd => nomatch hd)

end Cbuild.Initrd
