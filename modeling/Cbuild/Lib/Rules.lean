import Cbuild.Lib.LastWins
import Cbuild.Lib.Traverse
import Mathlib.Data.List.Dedup

/-! # The rules of a makefile

A makefile with one rule for each of some words, and a goal that has all of these words as its
prerequisites. `make` gives many characters in a word a meaning of their own, runs the last
recipe there is for a name, and makes a name once.
-/

namespace Cbuild.Lib

/-- No character of the word has a meaning of its own; `n` backslashes stand before it. -/
def readsPlain : Nat → List Char → Bool
  | n, [] => n % 2 = 0
  | n, c :: s =>
      if c = '\\' then readsPlain (n + 1) s
      else if c = '#' ∨ c = ':' then n % 2 = 1 && readsPlain 0 s
      -- a semicolon is looked for twice, and each time the backslashes are halved
      else if c = ';' then n % 4 = 3 && readsPlain 0 s
      else !(['=', '|', '%', '$', '*', '?', '['].contains c) && readsPlain 0 s

/-- The word is a name, whatever variables, files, users and implicit rules there are. -/
def PlainWord (w : List Char) : Prop :=
  w ≠ [] ∧ w.head? ≠ some '~' ∧ w.getLast? ≠ some '&' ∧ readsPlain 0 w = true

instance (w : List Char) : Decidable (PlainWord w) := inferInstanceAs (Decidable (_ ∧ _))

/-! ## Lists of words -/

/-- The prerequisites are a variable that is defined for the target. -/
def definesVariable (ws : List (List Char)) : Bool :=
  match (ws.dropWhile (["export".toList, "override".toList, "private".toList].contains ·)).head? with
  | some w => ["define".toList, "undefine".toList].contains w
  | none => false

/-- An archive and the first of its members. -/
def opensGroup (w : List Char) : Bool :=
  w.contains '(' && w.head? ≠ some '(' && w.getLast? ≠ some ')'

def hasGroup : List (List Char) → Bool
  | [] => false
  | w :: ws => opensGroup w && (ws.any fun v => v.getLast? = some ')') || hasGroup ws

/-- The words are not one prerequisite each; backslashes are not halved at the end of a line. -/
def misread (ws : List (List Char)) : Bool :=
  definesVariable ws || hasGroup ws || (ws.getLast?.bind List.getLast?) = some '\\'

structure RuleReader where
  /-- What a word names; without a result `make` stops, or the rule is not one for the word. -/
  names : List Char → Option (List (List Char))
  plain : ∀ w, PlainWord w → ∃ n, names w = some [n]
  distinct : ∀ w w' n, PlainWord w → PlainWord w' → names w = some [n] → names w' = some [n] → w = w'

section

variable {R : Type}

/-- The recipe of the last rule for a name. -/
def lastRule (rules : List (List (List Char) × R)) : List Char → Option R :=
  lastOf (fun rule n => rule.1.contains n) (fun rule => some rule.2) rules fun _ => none

/-- The recipes that the goal runs. -/
def RuleReader.runs (mk : RuleReader) (rules : List (List Char × R)) : Option (List R) :=
  if misread (rules.map Prod.fst) then none
  else do
    let read ← rules.mapM fun rule => (mk.names rule.1).map fun names => (names, rule.2)
    some ((read.flatMap Prod.fst).dedup.filterMap (lastRule read))

variable {mk : RuleReader} {rules : List (List Char × R)}

end

end Cbuild.Lib
