import Cbuild.Apk.Generate
import Cbuild.Apk.VersionGrammar
import Cbuild.Template.Lint

/-! # Bumping versions and releases

`do_bump_pkgver` and `do_bump_pkgrel` of `runner.py` rewrite the lines of a template that begin
with `pkgver =` and `pkgrel =`. A run of such commands is a run of a machine that knows but the
version and the release of every template.
-/

namespace Cbuild.Bump

open Lib Apk Upgrade Lint
open Bulk (isSpace)

/-- `ln.startswith("pkgver =")` -/
def isPkgver (ln : Str) : Bool := "pkgver =".toList.isPrefixOf ln

def pkgverLine (pkgv : Str) : Str := "pkgver = ".toList ++ quoted pkgv

def pkgrelLine (pr : Int) : Str := "pkgrel = ".toList ++ pyInt10 pr

/-- A line as `do_bump_pkgver` writes it. -/
def newVersion (pkgv ln : Str) : Str :=
  if isPkgver ln then pkgverLine pkgv else if isPkgrel ln then "pkgrel = 0".toList else ln

/-- A line as `do_bump_pkgrel` writes it. -/
def newRelease (pr : Int) (ln : Str) : Str := if isPkgrel ln then pkgrelLine (pr + 1) else ln

/-- Each line with its end. -/
def unlines (lns : List Str) : Str := lns.flatMap (· ++ ['\n'])

/-- The texts of the templates. -/
abbrev Files : Type := Str → Option Str

/-- What is not decided by the commands. -/
structure World where
  /-- `full_pkgname` for an argument, which may be that of a subpackage. -/
  fullPkgname : Str → Option Str
  /-- `pkgrel` of a template that is loaded from a text, if that can be. -/
  load : Str → Str → Option Int

/-- A template is loaded and its lines are written anew; if it does not load there is a warning. -/
def World.rewriteTemplate (w : World) (f : Int → Str → Str) (files : Files) (pkgn : Str) : Files :=
  match w.fullPkgname pkgn with
  | none => files
  | some n =>
      match files n with
      | none => files
      | some text =>
          match w.load n text with
          | none => files
          | some pr => Function.update files n (some (unlines ((splitlines text).map (f pr))))

/-- `do_bump_pkgver` -/
def World.doBumpPkgver (w : World) (files : Files) (command : List Str) : Except Str Files :=
  match command with
  | [_, pkgn, pkgv] =>
      if versionValidate pkgv then
        .ok (w.rewriteTemplate (fun _ => newVersion pkgv) files pkgn)
      else .error ("version '".toList ++ pkgv ++ "' is invalid".toList)
  | _ => .error "bump-pkgver needs a name and a version".toList

/-- `do_bump_pkgrel` -/
def World.doBumpPkgrel (w : World) (files : Files) (command : List Str) : Except Str Files :=
  if command.length < 2 then .error "bump-pkgrel needs at least one name".toList
  else .ok (command.tail.foldl (w.rewriteTemplate newRelease) files)

inductive Command
  | bumpPkgver (command : List Str)
  | bumpPkgrel (command : List Str)

def World.call (w : World) (files : Files) : Command → Except Str Files
  | .bumpPkgver command => w.doBumpPkgver files command
  | .bumpPkgrel command => w.doBumpPkgrel files command

/-- One command after the other; one that fails leaves the templates as they are. -/
def World.calls (w : World) (files : Files) (commands : List Command) : Files :=
  commands.foldl (fun files c => (w.call files c).toOption.getD files) files

/-! ## Lines -/

variable {lns : List Str} {ln s : Str} {v : Str}

theorem splitlinesFrom_cons {cur : Str} {c : Char} (hc : isLineBreak c = false) :
    splitlinesFrom cur (c :: s) = splitlinesFrom (cur ++ [c]) s := by
  rw [splitlinesFrom, hc, if_neg Bool.false_ne_true]
  rintro _ rfl _
  cases hc

theorem splitlinesFrom_line {cur : Str} (h : ∀ c ∈ ln, isLineBreak c = false) :
    splitlinesFrom cur (ln ++ '\n' :: s) = (cur ++ ln) :: splitlinesFrom [] s := by
  induction ln generalizing cur with
  | nil =>
      rw [List.nil_append, List.append_nil]
      rfl
  | cons c ln ih =>
      rw [List.cons_append, splitlinesFrom_cons (h c List.mem_cons_self),
        ih fun c' hc' => h c' (List.mem_cons_of_mem _ hc'), List.append_assoc,
        List.singleton_append]

theorem splitlines_unlines (h : ∀ ln ∈ lns, ∀ c ∈ ln, isLineBreak c = false) :
    splitlines (unlines lns) = lns := by
  induction lns with
  | nil => rfl
  | cons ln lns ih =>
      rw [splitlines, unlines, List.flatMap_cons, List.append_assoc]
      rw [List.singleton_append, splitlinesFrom_line (h ln List.mem_cons_self), List.nil_append]
      exact congrArg (ln :: ·) (ih fun ln' hln' => h ln' (List.mem_cons_of_mem _ hln'))

/-! ## Versions are on one line -/

open scoped Computability

def onLine (c : Char) : Bool := !isLineBreak c

theorem onLine_of_le {c : Char} (h : 0x21 ≤ c.toNat ∧ c.toNat ≤ 0x7e) : onLine c = true := by
  have hne : isLineBreak c = false := by
    simp only [isLineBreak, Bool.or_eq_false_iff, Bool.and_eq_false_iff, decide_eq_false_iff_not,
      beq_eq_false_iff_ne]
    omega
  rw [onLine, hne]
  rfl

theorem mul_onLine {l m : Language Char} (hl : l ≤ manyOf onLine) (hm : m ≤ manyOf onLine) :
    l * m ≤ manyOf onLine := by
  rintro _ ⟨x, hx, y, hy, rfl⟩ c hc
  obtain hc | hc := List.mem_append.mp hc
  · exact hl hx c hc
  · exact hm hy c hc

theorem kstar_onLine {l : Language Char} (hl : l ≤ manyOf onLine) : l∗ ≤ manyOf onLine := by
  rintro _ ⟨L, rfl, hL⟩ c hc
  obtain ⟨x, hx, hc⟩ := List.mem_flatten.mp hc
  exact hl (hL x hx) c hc

theorem optional_onLine {l : Language Char} (hl : l ≤ manyOf onLine) : 1 + l ≤ manyOf onLine := by
  rintro x (rfl | hx)
  · intro c hc
    cases hc
  · exact hl hx

theorem digits_onLine : someOf iscdigit ≤ manyOf onLine := by
  rintro w ⟨-, hw⟩ c hc
  have hdigit := hw c hc
  simp only [iscdigit, Bool.and_eq_true, decide_eq_true_eq] at hdigit
  exact onLine_of_le (by omega)

theorem hexDigits_onLine : someOf isxdigit ≤ manyOf onLine := by
  rintro w ⟨-, hw⟩ c hc
  have hdigit := hw c hc
  simp only [isxdigit, Bool.or_eq_true, Bool.and_eq_true, decide_eq_true_eq] at hdigit
  exact onLine_of_le (by omega)

theorem onLine_of_isclow {c : Char} (h : isclow c = true) : onLine c = true := by
  simp only [isclow, Bool.and_eq_true, decide_eq_true_eq] at h
  exact onLine_of_le (by omega)

theorem literal_onLine {s : Str} (h : s.all onLine = true) : literal s ≤ manyOf onLine := by
  rintro _ rfl
  exact List.all_eq_true.mp h

theorem versionGrammar_onLine : versionGrammar ≤ manyOf onLine := by
  have hdotted : dottedPart ≤ manyOf onLine := mul_onLine (literal_onLine rfl) digits_onLine
  have hletter : oneOf isclow ≤ manyOf onLine := by
    rintro _ ⟨c, rfl, hc⟩ c' hc'
    rw [List.mem_singleton.mp hc']
    exact onLine_of_isclow hc
  have hnames : suffixNames ≤ manyOf onLine := fun w hw c hc =>
    onLine_of_isclow (suffixNames_isclow hw c hc)
  have hmany : manyOf iscdigit ≤ manyOf onLine := by
    intro w hw c hc
    exact digits_onLine ⟨List.ne_nil_of_mem hc, hw⟩ c hc
  have hsuffix : suffixPart ≤ manyOf onLine :=
    mul_onLine (literal_onLine rfl) (mul_onLine hnames hmany)
  have hhash : hashPart ≤ manyOf onLine :=
    optional_onLine (mul_onLine (literal_onLine rfl) hexDigits_onLine)
  have hrevision : revisionPart ≤ manyOf onLine :=
    optional_onLine (mul_onLine (literal_onLine rfl) digits_onLine)
  exact mul_onLine digits_onLine (mul_onLine (kstar_onLine hdotted)
    (mul_onLine (optional_onLine hletter) (mul_onLine (kstar_onLine hsuffix)
      (mul_onLine hhash hrevision))))

theorem oneLine_of_valid (h : versionValidate v = true) : ∀ c ∈ v, isLineBreak c = false := by
  intro c hc
  have hline := versionGrammar_onLine ((versionValidate_iff_mem v).mp h) c hc
  rw [onLine, Bool.not_eq_true'] at hline
  exact hline

/-! ## Versions and releases alone -/

/-- What a template says that is written on one line. -/
structure Release where
  pkgver : Str
  pkgrel : Int
  oneLine : ∀ c ∈ pkgver, isLineBreak c = false

/-- The other lines of the templates, and which of them load. -/
structure Ports where
  lines : Str → List Str
  oneLine : ∀ n, ∀ ln ∈ lines n, ∀ c ∈ ln, isLineBreak c = false

/-- The lines of a template that says a version and a release. -/
def place (r : Release) (ln : Str) : Str :=
  if isPkgver ln then pkgverLine r.pkgver else if isPkgrel ln then pkgrelLine r.pkgrel else ln

def Ports.text (p : Ports) (n : Str) (r : Release) : Str := unlines ((p.lines n).map (place r))

def Ports.render (p : Ports) (a : Str → Option Release) : Files := fun n => (a n).map (p.text n)

variable (w : World) (p : Ports) (a : Str → Option Release)

/-- Does the template load when it says the version and the release? -/
def World.loads (n : Str) (r : Release) : Bool := (w.load n (p.text n r)).isSome

/-- The template of a name gets another version and release, if it loads. -/
def World.release (f : Release → Release) (a : Str → Option Release) (pkgn : Str) :
    Str → Option Release :=
  match w.fullPkgname pkgn with
  | none => a
  | some n =>
      match a n with
      | none => a
      | some r => if w.loads p n r then Function.update a n (some (f r)) else a

/-- What a command does to the versions and releases. -/
def World.track (a : Str → Option Release) : Command → Str → Option Release
  | .bumpPkgver [_, pkgn, pkgv] =>
      if h : versionValidate pkgv = true then
        w.release p (fun _ => ⟨pkgv, 0, oneLine_of_valid h⟩) a pkgn
      else a
  | .bumpPkgver _ => a
  | .bumpPkgrel command =>
      if command.length < 2 then a
      else command.tail.foldl (w.release p fun r => { r with pkgrel := r.pkgrel + 1 }) a

variable {w p a} {r r' : Release} {n : Str} {u : Unicode} {check : Bool}

theorem oneLine_of_onLine {s : Str} (h : s.all onLine = true) : ∀ c ∈ s, isLineBreak c = false := by
  intro c hc
  have hline := List.all_eq_true.mp h c hc
  rw [onLine, Bool.not_eq_true'] at hline
  exact hline

theorem oneLine_append {s s' : Str} (h : ∀ c ∈ s, isLineBreak c = false)
    (h' : ∀ c ∈ s', isLineBreak c = false) : ∀ c ∈ s ++ s', isLineBreak c = false := by
  intro c hc
  obtain hc | hc := List.mem_append.mp hc
  · exact h c hc
  · exact h' c hc

theorem repr_oneLine (m : Nat) : ∀ c ∈ m.repr.toList, isLineBreak c = false := by
  intro c hc
  rw [Nat.toList_repr] at hc
  have hdigit := Nat.isDigit_of_mem_toDigits (by decide) (by decide) hc
  rw [Char.isDigit_iff_toNat] at hdigit
  change 0x30 ≤ c.toNat ∧ c.toNat ≤ 0x39 at hdigit
  have hline := onLine_of_le (c := c) (by omega)
  rw [onLine, Bool.not_eq_true'] at hline
  exact hline

theorem pyInt10_oneLine (n : Int) : ∀ c ∈ pyInt10 n, isLineBreak c = false := by
  cases n with
  | ofNat m => exact repr_oneLine m
  | negSucc m =>
      have hneg : pyInt10 (Int.negSucc m) = "-".toList ++ (m + 1).repr.toList := by
        change (String.append "-" (m + 1).repr).toList = _
        exact String.toList_append
      rw [hneg]
      exact oneLine_append (oneLine_of_onLine rfl) (repr_oneLine _)

theorem place_oneLine (r : Release) (hln : ∀ c ∈ ln, isLineBreak c = false) :
    ∀ c ∈ place r ln, isLineBreak c = false := by
  unfold place
  split
  · have hend : ∀ c ∈ r.pkgver ++ ['"'], isLineBreak c = false :=
      oneLine_append r.oneLine (oneLine_of_onLine rfl)
    exact oneLine_append (s := "pkgver = \"".toList) (oneLine_of_onLine rfl) hend
  · split
    · exact oneLine_append (oneLine_of_onLine rfl) (pyInt10_oneLine _)
    · exact hln

theorem splitlines_text (p : Ports) (n : Str) (r : Release) :
    splitlines (p.text n r) = (p.lines n).map (place r) := by
  apply splitlines_unlines
  intro ln hln
  obtain ⟨ln, hmem, rfl⟩ := List.mem_map.mp hln
  exact place_oneLine r (p.oneLine n ln hmem)

theorem pkgrelLine_zero : pkgrelLine 0 = "pkgrel = 0".toList := by decide

theorem newVersion_place (hv : ∀ c ∈ v, isLineBreak c = false) (r : Release) (ln : Str) :
    newVersion v (place r ln) = place ⟨v, 0, hv⟩ ln := by
  unfold place
  split
  · rfl
  · rename_i hver
    split
    · exact pkgrelLine_zero.symm
    · rename_i hrel
      rw [newVersion, if_neg hver, if_neg hrel]

theorem newRelease_place (r : Release) (ln : Str) :
    newRelease r.pkgrel (place r ln) = place { r with pkgrel := r.pkgrel + 1 } ln := by
  unfold place
  split
  · rfl
  · split
    · rfl
    · rename_i hrel
      rw [newRelease, if_neg hrel]

/-- Lines that are written anew are those of another version and release. -/
theorem rewriteTemplate_render {f : Int → Str → Str} {g : Release → Release}
    (hload : ∀ n r pr, w.load n (p.text n r) = some pr → pr = r.pkgrel)
    (hfg : ∀ r ln, f r.pkgrel (place r ln) = place (g r) ln) (a : Str → Option Release)
    (pkgn : Str) :
    w.rewriteTemplate f (p.render a) pkgn = p.render (w.release p g a pkgn) := by
  unfold World.rewriteTemplate World.release
  cases w.fullPkgname pkgn with
  | none => rfl
  | some n =>
      cases hn : a n with
      | none =>
          dsimp only
          rw [Ports.render, hn]
          rfl
      | some r =>
          have htext : p.render a n = some (p.text n r) := by
            rw [Ports.render, hn]
            rfl
          cases hl : w.load n (p.text n r) with
          | none =>
              have hloads : ¬ w.loads p n r = true := by
                rw [World.loads, hl]
                exact Bool.false_ne_true
              simp only [htext, hl, hn, if_neg hloads]
          | some pr =>
              have hloads : w.loads p n r = true := by
                rw [World.loads, hl]
                rfl
              simp only [htext, hl, hn, if_pos hloads]
              rw [hload n r pr hl]
              funext m
              by_cases hm : m = n
              · subst hm
                have hlines : ((p.lines m).map (place r)).map (f r.pkgrel) =
                    (p.lines m).map (place (g r)) := by
                  rw [List.map_map]
                  exact List.map_congr_left fun ln _ => hfg r ln
                simp only [splitlines_text, hlines, Ports.render, Function.update_self]
                rfl
              · simp only [Ports.render, Function.update_of_ne hm]

theorem bumpPkgver_render (hload : ∀ n r pr, w.load n (p.text n r) = some pr → pr = r.pkgrel)
    (a : Str → Option Release) (x pkgn pkgv : Str) :
    (w.call (p.render a) (.bumpPkgver [x, pkgn, pkgv])).toOption.getD (p.render a) =
      p.render (w.track p a (.bumpPkgver [x, pkgn, pkgv])) := by
  by_cases hv : versionValidate pkgv = true
  · have hcall : w.call (p.render a) (.bumpPkgver [x, pkgn, pkgv]) =
        .ok (w.rewriteTemplate (fun _ => newVersion pkgv) (p.render a) pkgn) := if_pos hv
    have htrack : w.track p a (.bumpPkgver [x, pkgn, pkgv]) =
        w.release p (fun _ => ⟨pkgv, 0, oneLine_of_valid hv⟩) a pkgn := dif_pos hv
    rw [hcall, htrack]
    exact rewriteTemplate_render hload (newVersion_place _) a pkgn
  · have hcall : w.call (p.render a) (.bumpPkgver [x, pkgn, pkgv]) =
        .error ("version '".toList ++ pkgv ++ "' is invalid".toList) := if_neg hv
    have htrack : w.track p a (.bumpPkgver [x, pkgn, pkgv]) = a := dif_neg hv
    rw [hcall, htrack]
    rfl

theorem bumpPkgrel_render (hload : ∀ n r pr, w.load n (p.text n r) = some pr → pr = r.pkgrel)
    (a : Str → Option Release) (names : List Str) :
    names.foldl (w.rewriteTemplate newRelease) (p.render a) =
      p.render (names.foldl (w.release p fun r => { r with pkgrel := r.pkgrel + 1 }) a) := by
  induction names generalizing a with
  | nil => rfl
  | cons pkgn names ih =>
      rw [List.foldl_cons, List.foldl_cons, rewriteTemplate_render hload newRelease_place, ih]

theorem call_render (hload : ∀ n r pr, w.load n (p.text n r) = some pr → pr = r.pkgrel)
    (a : Str → Option Release) (c : Command) :
    (w.call (p.render a) c).toOption.getD (p.render a) = p.render (w.track p a c) := by
  cases c with
  | bumpPkgver command =>
      obtain _ | ⟨x, _ | ⟨pkgn, _ | ⟨pkgv, _ | ⟨y, rest⟩⟩⟩⟩ := command
      · rfl
      · rfl
      · rfl
      · exact bumpPkgver_render hload a x pkgn pkgv
      · rfl
  | bumpPkgrel command =>
      have htrack : w.track p a (.bumpPkgrel command) = if command.length < 2 then a else
        command.tail.foldl (w.release p fun r => { r with pkgrel := r.pkgrel + 1 }) a := rfl
      have hcall : w.call (p.render a) (.bumpPkgrel command) = if command.length < 2 then
          .error "bump-pkgrel needs at least one name".toList else
        .ok (command.tail.foldl (w.rewriteTemplate newRelease) (p.render a)) := rfl
      rw [htrack, hcall]
      by_cases hlen : command.length < 2
      · rw [if_pos hlen, if_pos hlen]
        rfl
      · rw [if_neg hlen, if_neg hlen]
        exact bumpPkgrel_render hload a command.tail

theorem calls_render (hload : ∀ n r pr, w.load n (p.text n r) = some pr → pr = r.pkgrel)
    (a : Str → Option Release) (commands : List Command) :
    w.calls (p.render a) commands = p.render (commands.foldl (w.track p) a) := by
  induction commands generalizing a with
  | nil => rfl
  | cons c commands ih =>
      rw [World.calls, List.foldl_cons, List.foldl_cons, call_render hload]
      exact ih _

/-! ## The check of the order -/

/-- What begins and ends with other characters than blanks is kept in front. -/
theorem strip_append {s : Str} (t : Str) (hhead : s.dropWhile isSpace = s)
    (hlast : s.reverse.dropWhile isSpace = s.reverse) (hne : s ≠ []) :
    ∃ t', strip (s ++ t) = s ++ t' := by
  have hfront : (s ++ t).dropWhile isSpace = s ++ t := by
    rw [List.dropWhile_append, hhead, if_neg]
    rw [List.isEmpty_iff]
    exact hne
  rw [strip, hfront, List.reverse_append, List.dropWhile_append, hlast]
  split
  · exact ⟨[], by rw [List.reverse_reverse, List.append_nil]⟩
  · exact ⟨_, by rw [List.reverse_append, List.reverse_reverse]⟩

/-- A line that begins so assigns to the name before the `=`, whatever the value is. -/
theorem lineKind_assigned {s nm : Str} (t : Str) (hhead : s.dropWhile isSpace = s)
    (hlast : s.reverse.dropWhile isSpace = s.reverse) (hcomment : s.head? ≠ some '#')
    (heq : '=' ∈ s) (hself : ∀ t', ¬ "self.".toList.isPrefixOf (s ++ t') = true)
    (hnm : strip (s.takeWhile (· ≠ '=')) = nm)
    (hident : ¬ (!u.isidentifier nm || decide (nm.head? = some '_')) = true) :
    lineKind u (s ++ t) = .assigned nm := by
  have hne : s ≠ [] := List.ne_nil_of_mem heq
  obtain ⟨t', ht⟩ := strip_append t hhead hlast hne
  have htake : (s ++ t).takeWhile (· ≠ '=') = s.takeWhile (· ≠ '=') := by
    rw [List.takeWhile_append, if_neg]
    intro hall
    have hmem : '=' ∈ s.takeWhile (· ≠ '=') := by
      rwa [(List.takeWhile_prefix _).eq_of_length hall]
    have hdiffers := List.mem_takeWhile_imp hmem
    simp at hdiffers
  have hhash : (s ++ t').head? ≠ some '#' := by
    rwa [List.head?_append_of_ne_nil _ hne]
  unfold lineKind
  dsimp only
  rw [ht, if_neg (List.append_ne_nil_of_left_ne_nil hne t'), if_neg hhash,
    if_neg (not_not.mpr (List.mem_append_left t heq)), if_neg (hself t'), htake, hnm, if_neg hident]

theorem lineKind_pkgver (t : Str) :
    lineKind u ("pkgver =".toList ++ t) = .assigned "pkgver".toList :=
  lineKind_assigned t (by decide) (by decide) (by decide) (by decide) (fun _ h => by cases h)
    (by decide) (fun h => by cases h)

theorem lineKind_pkgrel (t : Str) :
    lineKind u ("pkgrel =".toList ++ t) = .assigned "pkgrel".toList :=
  lineKind_assigned t (by decide) (by decide) (by decide) (by decide) (fun _ h => by cases h)
    (by decide) (fun h => by cases h)

theorem ioLines_line (h : '\n' ∉ ln) (s : Str) :
    ioLines (ln ++ '\n' :: s) = (ln ++ ['\n']) :: ioLines s := by
  induction ln with
  | nil => rfl
  | cons c ln ih =>
      rw [List.mem_cons, not_or] at h
      have hrest := ih h.2
      rw [List.cons_append]
      rw [ioLines]
      · rw [hrest]
        rfl
      · exact fun heq => h.1 heq.symm

theorem ioLines_unlines (h : ∀ ln ∈ lns, '\n' ∉ ln) :
    ioLines (unlines lns) = lns.map (· ++ ['\n']) := by
  induction lns with
  | nil => rfl
  | cons ln lns ih =>
      rw [unlines, List.flatMap_cons, List.append_assoc, List.singleton_append,
        ioLines_line (h ln List.mem_cons_self)]
      exact congrArg (_ :: ·) (ih fun ln' hln' => h ln' (List.mem_cons_of_mem _ hln'))

theorem lineKind_place (r r' : Release) (ln : Str) :
    lineKind u (place r ln ++ ['\n']) = lineKind u (place r' ln ++ ['\n']) := by
  unfold place
  split
  · exact (lineKind_pkgver _).trans (lineKind_pkgver _).symm
  · split
    · exact (lineKind_pkgrel _).trans (lineKind_pkgrel _).symm
    · rfl

theorem place_eq_nil (r r' : Release) (ln : Str) :
    place r ln ++ ['\n'] = ['\n'] ↔ place r' ln ++ ['\n'] = ['\n'] := by
  unfold place
  split
  · exact iff_of_false (fun h => by cases h) (fun h => by cases h)
  · split
    · exact iff_of_false (fun h => by cases h) (fun h => by cases h)
    · exact Iff.rfl

theorem kinds_text (p : Ports) (n : Str) (r : Release) : (block (p.text n r)).map (lineKind u) =
    ((p.lines n).takeWhile fun ln => place r ln ++ ['\n'] ≠ ['\n']).map
      fun ln => lineKind u (place r ln ++ ['\n']) := by
  have hlines : ∀ ln ∈ (p.lines n).map (place r), '\n' ∉ ln := by
    intro ln hln hmem
    obtain ⟨ln, hmem', rfl⟩ := List.mem_map.mp hln
    have hbreak := place_oneLine r (p.oneLine n ln hmem') _ hmem
    revert hbreak
    decide
  rw [block, Ports.text, ioLines_unlines hlines, List.map_map, List.takeWhile_map, List.map_map]
  rfl

theorem validates_text (p : Ports) (n : Str) (r r' : Release) :
    (∃ t, validateOrder u check (p.text n r) = .ok t) ↔
      ∃ t, validateOrder u check (p.text n r') = .ok t := by
  have hkinds : (block (p.text n r)).map (lineKind u) = (block (p.text n r')).map (lineKind u) := by
    simp only [kinds_text, lineKind_place r r', place_eq_nil r r', ne_eq]
  simp only [validateOrder_iff_passes, hkinds, exists_eq_left]

/-- Commands that bump versions and releases do to the texts of the templates what they do to the
versions and releases, and nothing else: each other line is kept, and a template is in its order
if it has been. -/
theorem calls_refine (hload : ∀ n r pr, w.load n (p.text n r) = some pr → pr = r.pkgrel)
    (a : Str → Option Release) (commands : List Command) :
    w.calls (p.render a) commands = p.render (commands.foldl (w.track p) a) ∧
      ∀ u check n text text', p.render a n = some text →
        w.calls (p.render a) commands n = some text' →
        ((∃ t, validateOrder u check text' = .ok t) ↔ ∃ t, validateOrder u check text = .ok t) := by
  refine ⟨calls_render hload a commands, ?_⟩
  intro u check n text text' htext htext'
  rw [calls_render hload] at htext'
  obtain ⟨r, -, rfl⟩ := Option.map_eq_some_iff.mp htext
  obtain ⟨r', -, rfl⟩ := Option.map_eq_some_iff.mp htext'
  exact validates_text p n r' r

/-- A template and a subpackage of it; the release is read where it is written. -/
def fooWorld : World where
  fullPkgname pkgn :=
    if pkgn = "main/foo".toList ∨ pkgn = "main/foo-devel".toList then some "main/foo".toList else none
  load _ text :=
    ((splitlines text).find? isPkgrel).bind fun ln => (String.ofList (ln.drop 9)).toInt?

def fooLines : List Str :=
  ["pkgname = \"foo\"".toList, "pkgver = \"0\"".toList, "pkgrel = 0".toList,
    "hostmakedepends = []".toList, [], "def install(self):".toList, "    pass".toList]

theorem fooLines_onLine : fooLines.all (fun ln => ln.all onLine) = true := rfl

def fooPorts : Ports where
  lines _ := fooLines
  oneLine _ ln hln := oneLine_of_onLine (List.all_eq_true.mp fooLines_onLine ln hln)

theorem toInt_pyInt10 (n : Int) : (String.ofList (pyInt10 n)).toInt? = some n := by
  rw [pyInt10, String.ofList_toList, String.toInt?_eq_some_iff]
  cases n with
  | ofNat m => exact Or.inl ⟨m, Nat.toNat?_repr m, rfl⟩
  | negSucc m => exact Or.inr ⟨(m + 1).repr, rfl, m + 1, Nat.toNat?_repr _, rfl⟩

theorem fooWorld_load (n : Str) (r : Release) (pr : Int)
    (h : fooWorld.load n (fooPorts.text n r) = some pr) : pr = r.pkgrel := by
  have hfind : ((fooPorts.lines n).map (place r)).find? isPkgrel = some (pkgrelLine r.pkgrel) := rfl
  have hread : fooWorld.load n (fooPorts.text n r) = some r.pkgrel := by
    change ((splitlines (fooPorts.text n r)).find? isPkgrel).bind _ = _
    rw [splitlines_text, hfind]
    exact toInt_pyInt10 r.pkgrel
  exact Option.some.inj (h.symm.trans hread)

def fooReleases (n : Str) : Option Release :=
  if n = "main/foo".toList then some ⟨"1.0".toList, 3, oneLine_of_onLine rfl⟩ else none

/-- A release, a version that is not one, and a version. -/
def fooCommands : List Command :=
  [.bumpPkgrel ["bump-pkgrel".toList, "main/foo-devel".toList],
    .bumpPkgver ["bump-pkgver".toList, "main/foo".toList, "next".toList],
    .bumpPkgver ["bump-pkgver".toList, "main/foo".toList, "1.1".toList]]

theorem fooCommands_refine :
    fooWorld.calls (fooPorts.render fooReleases) fooCommands =
      fooPorts.render (fooCommands.foldl (fooWorld.track fooPorts) fooReleases) ∧
      ∀ u check n text text', fooPorts.render fooReleases n = some text →
        fooWorld.calls (fooPorts.render fooReleases) fooCommands n = some text' →
        ((∃ t, validateOrder u check text' = .ok t) ↔ ∃ t, validateOrder u check text = .ok t) :=
  calls_refine fooWorld_load fooReleases fooCommands

end Cbuild.Bump
