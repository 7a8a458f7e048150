import Cbuild.Apk.Lexing
import Cbuild.Apk.Pattern

/-! # The constraint that stands for any version

`setup_depends` writes `n>=0` for a dependency on `n` without a version. Zero is
below every version but those that are a zero with a pre-release suffix behind it.
-/

namespace Cbuild.Apk

open Lib

def preReleases : List Str := ["alpha".toList, "beta".toList, "pre".toList, "rc".toList]

def beginsPreRelease : Str → Bool
  | '_' :: rest => preReleases.contains (rest.takeWhile isclow)
  | _ => false

/-- Zero with a pre-release suffix right behind it. -/
def zeroPreRelease (ver : Str) : Bool :=
  (ver.takeWhile iscdigit).all (· == '0') && beginsPreRelease (ver.dropWhile iscdigit)

theorem beginsPreRelease_of_ne {c : Char} (h : c ≠ '_') (s : Str) :
    beginsPreRelease (c :: s) = false := by
  unfold beginsPreRelease
  split
  · rename_i heq
    cases heq
    exact absurd rfl h
  · rfl

theorem pyInt_eq_zero_iff {w : Str} (hw : ∀ c ∈ w, iscdigit c = true) :
    pyInt w = 0 ↔ w.all (· == '0') = true := by
  induction w with
  | nil => exact ⟨fun _ => rfl, fun _ => rfl⟩
  | cons c w ih =>
      have ih := ih fun d hd => hw d (List.mem_cons_of_mem _ hd)
      rw [List.all_cons, Bool.and_eq_true, beq_iff_eq]
      by_cases hc : c = '0'
      · subst hc
        exact ih.trans ⟨fun h => ⟨rfl, h⟩, fun h => h.2⟩
      · have hpos := pyInt_pos (List.cons_ne_nil c w) hw (by simpa using hc)
        constructor
        · intro h
          omega
        · intro h
          exact absurd h.1 hc

/-- Among the suffixes, those before the delimiter are the pre-releases. -/
theorem preRelease_iff {w : Str} (hw : w ∈ suffixNames) :
    ((sufmap.lookup w).getD .invalid).code < Suffix.none.code ↔ preReleases.contains w = true := by
  have hall : (["alpha", "beta", "pre", "rc", "cvs", "svn", "git", "hg", "p"].map
      String.toList).all (fun w => decide (((sufmap.lookup w).getD .invalid).code <
        Suffix.none.code) == preReleases.contains w) = true := by decide
  have := List.all_eq_true.mp hall w hw
  rw [beq_iff_eq] at this
  rw [← this, decide_eq_true_iff]

theorem reads_preRelease {t : Token} {l : Lexeme} {s : Str} (h : Reads t.token t.input l s) :
    (t.next.token = .suffix ∧ t.next.suffix.code < Suffix.none.code) ↔
      beginsPreRelease t.input = true := by
  obtain ⟨htok, -, -, hsuffix⟩ := next_of_reads h
  generalize t.token = k at h
  generalize t.input = input at h
  rw [htok]
  cases h with
  | suffix _ hw hs =>
      rw [hsuffix rfl, preRelease_iff hw, beginsPreRelease,
        takeWhile_append_of_stops (suffixNames_isclow hw) hs]
      exact ⟨fun h => h.2, fun h => ⟨rfl, h⟩⟩
  | letter _ hc =>
      rw [beginsPreRelease_of_ne (by rintro rfl; revert hc; decide)]
      simp
  | suffixNo hne hw _ =>
      obtain ⟨d, w, rfl⟩ := List.exists_cons_of_ne_nil hne
      have hd : d ≠ '_' := by
        rintro rfl
        exact absurd (hw '_' List.mem_cons_self) (by decide)
      rw [List.cons_append, beginsPreRelease_of_ne hd]
      simp
  | hash =>
      rw [beginsPreRelease_of_ne (by decide)]
      simp
  | revision =>
      rw [beginsPreRelease_of_ne (by decide)]
      simp
  | digit =>
      rw [beginsPreRelease_of_ne (by decide)]
      simp

/-! ## Zero -/

def zero : Version := ⟨['0'], by decide +kernel⟩

theorem init_zero : Token.init zero.text = ⟨.initialDigit, [], ['0'], 0, .invalid⟩ := by decide

/-- Behind equal numbers only a pre-release comes before the end. -/
theorem compareLoop_end {t u : Token} (hu : u.token = .endTok) (ht : t.token ≠ .invalid) :
    compareLoop t u = .lt ↔ t.token = .suffix ∧ t.suffix.code < Suffix.none.code := by
  have hstop : ¬ (t.token = u.token ∧ t.token.code < TokenType.endTok.code) := by
    intro h
    rw [h.1, hu] at h
    exact absurd h.2 (Nat.lt_irrefl _)
  rw [compareLoop, dif_neg hstop, compareStopped, hu]
  cases hk : t.token with
  | endTok => simp
  | invalid => exact absurd hk ht
  | suffix =>
      by_cases hpre : t.suffix.code < Suffix.none.code
      · simp [hpre]
      · simp [hpre, TokenType.code]
  | _ => simp [TokenType.code]

theorem cmp_zero (v : Version) : v.cmp zero = .lt ↔ zeroPreRelease v.text = true := by
  have hinit := v.init_eq
  have hval : pyInt (v.text.takeWhile iscdigit) = 0 ↔ _ :=
    pyInt_eq_zero_iff fun c hc => List.mem_takeWhile_imp hc
  have hloop : (Token.init v.text).token = (Token.init zero.text).token ∧
      (Token.init v.text).token.code < TokenType.endTok.code := by
    rw [hinit, init_zero]
    exact ⟨rfl, Nat.zero_lt_succ 6⟩
  have hcmp : (Token.init v.text).compare (Token.init zero.text) =
      Token.cmpNumber (pyInt (v.text.takeWhile iscdigit)) 0 := by
    rw [hinit, init_zero]
    rfl
  have hne : (Token.init v.text).next.token ≠ .invalid := fun h =>
    not_accepts_of_invalid h ((accepts_next v.init_lt).mp v.init_accepts)
  unfold Version.cmp versionCompareOp zeroPreRelease
  rw [compareLoop, dif_pos hloop, hcmp, Bool.and_eq_true, ← hval]
  by_cases hz : pyInt (v.text.takeWhile iscdigit) = 0
  · have hnext := compareLoop_end (u := (Token.init zero.text).next) (by rw [init_zero]; rfl) hne
    rw [hz]
    show compareLoop (Token.init v.text).next (Token.init zero.text).next = .lt ↔ _
    rw [hnext]
    have hin : (Token.init v.text).input = v.text.dropWhile iscdigit := by rw [hinit]
    obtain ⟨hnil, hend⟩ | hreads := next_cases v.init_munched hne
    · rw [hend, ← hin, hnil]
      simp [beginsPreRelease]
    · rw [reads_preRelease hreads, hin]
      simp
  · have hgt : Token.cmpNumber (pyInt (v.text.takeWhile iscdigit)) 0 = .gt := by
      rw [cmpNumber_eq_compare, Nat.compare_eq_gt]
      omega
    rw [hgt]
    simp [hz]

/-- Any version that is available meets the constraint, the pre-releases of zero excepted. -/
theorem pkgMatch_anyVersion_iff (n : Name) (v : Version) :
    pkgMatch n.text v.text (n.text ++ ['>', '=', '0']) = some true ↔
      zeroPreRelease v.text = false := by
  have htext : n.text ++ ['>', '=', '0'] = n.text ++ (Op.ge.text ++ zero.text) := rfl
  have hholds : Op.ge.Holds (v.cmp zero) ↔ v.cmp zero ≠ .lt := Iff.rfl
  rw [htext, pkgMatch_one n (zero.ends .ge), v.compare_eq zero, Option.map_some,
    meetsOp_eq_holds (by decide), Option.some.injEq, decide_eq_true_iff, hholds, Ne, cmp_zero,
    Bool.not_eq_true]

theorem zeroAlpha_not_anyVersion : ¬ ∀ (n : Name) (v : Version),
    pkgMatch n.text v.text (n.text ++ ['>', '=', '0']) = some true := by
  intro h
  have := h ⟨['n'], by decide⟩ ⟨"0_alpha".toList, by decide +kernel⟩
  revert this
  decide +kernel

end Cbuild.Apk
