import Cbuild.Apk.Generate

/-! # Flags for compilers and linkers

`_flags_ret` of `cbuild/core/profile.py` gives flags as a list, or as one line that is quoted for
a shell. In a flag with a value only the value is quoted, if the name needs no quotes.
-/

namespace Cbuild.Profile

open Lib Apk

/-- `_quote` -/
def quote (s : Str) : Str :=
  if '=' ∉ s then shellQuote s
  else
    let nm := s.takeWhile (· ≠ '=')
    if shellQuote nm ≠ nm then shellQuote s
    else nm ++ '=' :: shellQuote ((s.dropWhile (· ≠ '=')).drop 1)

inductive Flags
  | line (s : Str)
  | list (it : List Str)
  deriving DecidableEq

/-- `_flags_ret` -/
def flagsRet (it : List Str) (shell : Bool) : Flags :=
  if shell then .line (pyJoin [' '] (it.map quote)) else .list it

/-- The words a shell makes of flags that come as a line. -/
def Flags.words : Flags → Option (List Str)
  | .line s => shellWords s
  | .list it => some it

/-- What the functions for the flags of a tool put together: those for hardening, of the profile,
and of the template. -/
structure Given where
  hflags : List Str
  flags : List Str
  extraFlags : List Str
  bldroot : Str
  /-- There is no triplet. -/
  bootstrap : Bool
  debug : Int

/-- `_get_gencflags` -/
def getGencflags (g : Given) (shell : Bool) : Flags :=
  let bflags := if g.bootstrap then ["-isystem".toList, pathDiv g.bldroot "usr/include".toList] else []
  let ret := g.hflags ++ g.flags ++ bflags ++ g.extraFlags
  flagsRet (if 0 ≤ g.debug then ret ++ ["-g".toList ++ pyInt10 g.debug] else ret) shell

/-- `_get_ldflags` -/
def getLdflags (g : Given) (shell : Bool) : Flags :=
  let bflags :=
    if g.bootstrap then
      ["-L".toList ++ pathDiv g.bldroot "usr/lib".toList,
        "-Wl,-rpath-link=".toList ++ pathDiv g.bldroot "usr/lib".toList]
    else []
  flagsRet (g.hflags ++ g.flags ++ bflags ++ g.extraFlags) shell

/-! ## Quoting a flag -/

variable {s nm : Str}

theorem length_le_escaped (s : Str) : s.length ≤ (s.flatMap escapeQuote).length := by
  induction s with
  | nil => exact Nat.le_refl _
  | cons c s ih =>
      have hone : 1 ≤ (escapeQuote c).length := by
        unfold escapeQuote
        split
        · decide
        · exact Nat.le_refl _
      rw [List.flatMap_cons, List.length_append, List.length_cons]
      omega

theorem allSafe_of_unquoted (h : shellQuote nm = nm) : nm ≠ [] ∧ nm.all isShellSafe = true := by
  unfold shellQuote at h
  split at h
  · rename_i hnil
    rw [hnil] at h
    cases h
  split at h
  · rename_i hne hsafe
    exact ⟨hne, hsafe⟩
  · -- with quotes it is longer
    have hlen := congrArg List.length h
    have hle := length_le_escaped nm
    rw [List.length_cons, List.length_append, List.length_singleton] at hlen
    omega

theorem splitWords_nameValue (hne : nm ≠ []) (hsafe : nm.all isShellSafe = true) (v : Str) :
    ReadsAs (nm ++ '=' :: shellQuote v) (nm ++ '=' :: v) := by
  intro line
  cases nm with
  | nil => contradiction
  | cons c nm =>
      rw [List.all_cons, Bool.and_eq_true] at hsafe
      rw [List.append_assoc, List.cons_append, splitWords_safe hsafe.1, splitWords_allSafe hsafe.2,
        List.cons_append, splitWords_safe (by decide), splitWords_quoted]
      simp

theorem readsAs_flag (s : Str) : ReadsAs (quote s) s := by
  unfold quote
  split
  · exact readsAs_quote s
  · rename_i hmem
    dsimp only
    split
    · exact readsAs_quote s
    · rename_i hquote
      have hname := allSafe_of_unquoted (not_not.mp hquote)
      have hsplit : s.takeWhile (· ≠ '=') ++ '=' :: (s.dropWhile (· ≠ '=')).drop 1 = s := by
        obtain ⟨nm, v, rfl, hnm⟩ := List.eq_append_cons_of_mem (not_not.mp hmem)
        have hall : ∀ c ∈ nm, decide (c ≠ '=') = true := by
          intro c hc
          rw [decide_eq_true_eq]
          rintro rfl
          exact hnm hc
        rw [List.takeWhile_append_of_pos hall, List.dropWhile_append_of_pos hall]
        simp
      have hread := splitWords_nameValue hname.1 hname.2 ((s.dropWhile (· ≠ '=')).drop 1)
      rw [hsplit] at hread
      exact hread

theorem words_of_line (it : List Str) : (flagsRet it true).words = some it :=
  shellWords_intercalate (fun s _ => readsAs_flag s)

theorem getGencflags_words (g : Given) :
    (getGencflags g true).words = (getGencflags g false).words :=
  words_of_line _

theorem getLdflags_words (g : Given) : (getLdflags g true).words = (getLdflags g false).words :=
  words_of_line _

end Cbuild.Profile
