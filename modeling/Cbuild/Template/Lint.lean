import Cbuild.Lib.Dict
import Cbuild.Lib.Fueled
import Cbuild.Template.Upgrade

/-! # The order of the variables of a template

`validate_order` of `cbuild/core/template.py` reads a template line by line up to the first empty
one, and wants the variables that are assigned in the order of `core_fields_priority`. It goes
along with the greatest place so far, and reports what is behind it.
-/

namespace Cbuild.Lint

open Lib Upgrade

/-- The letters beyond ASCII that identifiers are made of. -/
structure Unicode where
  idStart : Char → Bool
  idContinue : Char → Bool

/-- `str.isidentifier` -/
def Unicode.isidentifier (u : Unicode) : Str → Bool
  | [] => false
  | c :: s => (c.isAlpha || c = '_' || (127 < c.toNat && u.idStart c)) &&
      s.all fun c => c.isAlphanum || c = '_' || (127 < c.toNat && u.idContinue c)

/-- The lines of `io.StringIO`, with their ends. -/
def ioLines : Str → List Str
  | [] => []
  | '\n' :: s => ['\n'] :: ioLines s
  | c :: s =>
      match ioLines s with
      | [] => [[c]]
      | ln :: lns => (c :: ln) :: lns

/-- `core_fields_priority`: a name, and whether it has a place of its own. -/
def corePriority : List (String × Bool) :=
  [("pkgname", true), ("pkgver", true), ("pkgrel", true), ("archs", true),
    ("build_wrksrc", true), ("build_style", true), ("prepare_after_patch", true),
    ("configure_script", true), ("configure_args", true), ("configure_env", true),
    ("configure_gen", true), ("make_cmd", true), ("make_dir", true), ("make_env", true),
    ("make_wrapper", true), ("make_build_target", true), ("make_build_args", true),
    ("make_build_env", true), ("make_build_wrapper", true), ("make_install_target", true),
    ("make_install_args", true), ("make_install_env", true), ("make_install_wrapper", true),
    ("make_check_target", true), ("make_check_args", true), ("make_check_env", true),
    ("make_check_wrapper", true), ("make_use_env", true), ("cmake_dir", false),
    ("meson_dir", false), ("hostmakedepends", true), ("makedepends", true),
    ("checkdepends", true), ("depends", false), ("go_mod_dl", true), ("go_build_tags", false),
    ("go_check_tags", false), ("provides", true), ("provider_priority", true),
    ("renames", true), ("replaces", true), ("replaces_priority", true), ("install_if", true),
    ("ignore_shlibs", true), ("triggers", true), ("origin", true), ("pkgdesc", true),
    ("subdesc", true), ("license", true), ("url", true), ("source", true),
    ("source_headers", true), ("source_paths", true), ("sha256", true), ("debug_level", true),
    ("tools", true), ("tool_flags", true), ("env", true), ("protected_paths", true),
    ("nostrip_files", true), ("nopie_files", true), ("file_modes", true),
    ("file_xattrs", true), ("broken_symlinks", true), ("skip_dependencies", true),
    ("skip_providers", true), ("compression", true), ("hardening", true), ("options", true),
    ("exec_wrappers", true), ("restricted", true), ("broken", true)]

/-- `_get_fieldmap`, from the last place on. -/
def fieldmapFrom (idx : Nat) : List (String × Bool) → Dict Str Nat
  | [] => []
  | (n, pinc) :: rest =>
      let idx := if pinc then idx + 1 else idx
      (n.toList, idx) :: fieldmapFrom idx rest

/-- `fmap.get(vnm, len(core_fields_priority))` -/
def fieldIndex (vnm : Str) : Nat :=
  ((fieldmapFrom 0 corePriority).get vnm).getD corePriority.length

/-- What a line is to the check. -/
inductive LineKind
  | comment
  | selfAssigned
  | assigned (vnm : Str)
  | other
  deriving DecidableEq

def lineKind (u : Unicode) (ln : Str) : LineKind :=
  let sln := strip ln
  if sln = [] then .other
  else if sln.head? = some '#' then .comment
  else if '=' ∉ ln then .other
  else if "self.".toList.isPrefixOf sln then .selfAssigned
  else
    let vnm := strip (ln.takeWhile (· ≠ '='))
    if !u.isidentifier vnm || vnm.head? = some '_' then .other else .assigned vnm

/-- What `pkg.error` is called with. -/
structure Problem where
  msg : Str
  hint : Option Str
  deriving DecidableEq

def selfProblem : Problem :=
  ⟨"lint failed: change to self object at top level".toList,
    some "remove the 'self.' and assign a variable".toList⟩

def reasonProblem : Problem :=
  ⟨"lint failed: check disabled but no reason given".toList,
    some "put a comment above the 'options' field".toList⟩

def orderProblem : Problem := ⟨"lint failed: incorrect variable order".toList, none⟩

/-- The variables of the loop; `log` is what is logged in red. -/
structure Scan where
  succ : Bool
  precomment : Bool
  midx : Nat
  midxLine : Str
  msg : Option Str
  log : List Str

def Scan.start : Scan := ⟨true, false, 0, "None".toList, none, []⟩

/-- The tests are turned off without a reason. -/
abbrev Unreasoned (check : Bool) (s : Scan) (vnm : Str) : Prop :=
  vnm = "options".toList ∧ check = false ∧ s.precomment = false

/-- A variable is assigned; `check` is that option. -/
def Scan.assign (s : Scan) (check : Bool) (vnm : Str) : Except Problem Scan :=
  if Unreasoned check s vnm then .error reasonProblem
  else
    let cidx := fieldIndex vnm
    let s := { s with precomment := false }
    if cidx < s.midx then
      .ok { s with msg := some (['\''] ++ s.midxLine ++ "' should go after '".toList ++ vnm ++ ['\'']) }
    else if s.midx < cidx then
      .ok { s with midx := cidx, midxLine := vnm, succ := s.succ && s.msg.isNone,
                   log := s.log ++ s.msg.toList, msg := none }
    else .ok s

def Scan.line (check : Bool) (s : Scan) : LineKind → Except Problem Scan
  | .other => .ok s
  | .comment => .ok { s with precomment := true }
  | .selfAssigned => .error selfProblem
  | .assigned vnm => s.assign check vnm

/-- The lines that are looked at. -/
def block (contents : Str) : List Str := (ioLines contents).takeWhile (· ≠ ['\n'])

/-- `validate_order`; it gives the text that has been looked at. -/
def validateOrder (u : Unicode) (check : Bool) (contents : Str) : Except Problem Str := do
  let lns := block contents
  let s ← (lns.map (lineKind u)).foldlM (Scan.line check) Scan.start
  if s.succ && s.msg.isNone then return contents.take (lns.map List.length).sum
  else throw orderProblem

/-! ## What gets through -/

variable {u : Unicode} {check pc : Bool} {k : LineKind} {kinds pre post : List LineKind} {s s' : Scan}
  {vnm : Str} {contents : Str}

/-- The places of the variables in the order of their lines. -/
def places : List LineKind → List Nat :=
  List.filterMap fun
    | .assigned vnm => some (fieldIndex vnm)
    | _ => none

/-- Is there a comment since the last variable? `pc` says what was before the lines. -/
def noted (pc : Bool) (pre : List LineKind) : Bool :=
  (pre.filter (· ≠ .other)).getLast?.getD (if pc then .comment else .other) = .comment

/-- The tests are not turned off without a comment. -/
def Reasoned (check pc : Bool) (kinds : List LineKind) : Prop :=
  check = true ∨ ∀ pre post, kinds = pre ++ .assigned "options".toList :: post → noted pc pre = true

/-- Nothing is behind so far. -/
def Scan.Fine (s : Scan) : Prop := (s.succ && s.msg.isNone) = true

/-- The comment that is kept in mind after a line. -/
def nextNoted (pc : Bool) : LineKind → Bool
  | .comment => true
  | .assigned _ => false
  | .selfAssigned => false
  | .other => pc

theorem noted_nil : noted pc [] = pc := by
  cases pc <;> rfl

theorem noted_cons : noted pc (k :: pre) = noted (nextNoted pc k) pre := by
  unfold noted
  cases k with
  | other => rfl
  | comment =>
      rw [List.filter_cons_of_pos (by decide), List.getLast?_cons]
      rfl
  | selfAssigned =>
      rw [List.filter_cons_of_pos (by decide), List.getLast?_cons]
      cases (pre.filter (· ≠ .other)).getLast? <;> rfl
  | assigned vnm =>
      rw [List.filter_cons_of_pos (by simp), List.getLast?_cons]
      cases (pre.filter (· ≠ .other)).getLast? with
      | none => simp [nextNoted]
      | some k => rfl

theorem reasoned_cons : Reasoned check pc (k :: kinds) ↔
    (k = .assigned "options".toList → check = true ∨ pc = true) ∧
      Reasoned check (nextNoted pc k) kinds := by
  unfold Reasoned
  cases check with
  | true => simp
  | false =>
      simp only [Bool.false_eq_true, false_or]
      constructor
      · intro h
        constructor
        · rintro rfl
          have hnone : noted pc [] = pc := noted_nil
          rw [← hnone]
          exact h [] kinds rfl
        · rintro pre post rfl
          rw [← noted_cons]
          exact h (k :: pre) post rfl
      · rintro ⟨hk, h⟩ pre post hpre
        cases pre with
        | nil =>
            injection hpre with hk' _
            rw [noted_nil]
            exact hk hk'
        | cons k' pre =>
            injection hpre with hk' hrest
            subst hk'
            rw [noted_cons]
            exact h pre post hrest

theorem assign_ok (h : ¬ Unreasoned check s vnm) : ∃ s', s.assign check vnm = .ok s' ∧
    s'.precomment = false ∧ (s'.Fine ↔ s.Fine ∧ s.midx ≤ fieldIndex vnm) ∧
    (s.midx ≤ fieldIndex vnm → s'.midx = fieldIndex vnm) := by
  unfold Scan.assign
  rw [if_neg h]
  dsimp only
  split
  · rename_i hlt
    refine ⟨_, rfl, rfl, ?_, fun hle => absurd hlt (Nat.not_lt.mpr hle)⟩
    constructor
    · intro hfine
      simp [Scan.Fine] at hfine
    · rintro ⟨-, hle⟩
      exact absurd hlt (Nat.not_lt.mpr hle)
  · rename_i hle
    split
    · refine ⟨_, rfl, rfl, ?_, fun _ => rfl⟩
      rw [Scan.Fine, Scan.Fine, Option.isNone_none, Bool.and_true]
      exact (and_iff_left (Nat.not_lt.mp hle)).symm
    · rename_i hge
      have heq : s.midx = fieldIndex vnm := by omega
      exact ⟨_, rfl, rfl, (and_iff_left (Nat.not_lt.mp hle)).symm, fun _ => heq⟩

theorem assign_error (h : Unreasoned check s vnm) : s.assign check vnm = .error reasonProblem :=
  if_pos h

/-- The lines get through, with nothing behind, from where the check is. -/
def Passes (check : Bool) (s : Scan) (kinds : List LineKind) : Prop :=
  ∃ s', kinds.foldlM (Scan.line check) s = .ok s' ∧ s'.Fine

theorem passes_cons (h : Scan.line check s k = .ok s') :
    Passes check s (k :: kinds) ↔ Passes check s' kinds := by
  unfold Passes
  rw [List.foldlM_cons, h]
  rfl

theorem not_passes_cons {e : Problem} (h : Scan.line check s k = .error e) :
    ¬ Passes check s (k :: kinds) := by
  rintro ⟨s', hrun, -⟩
  rw [List.foldlM_cons, h] at hrun
  cases hrun

theorem passes_iff : Passes check s kinds ↔
    .selfAssigned ∉ kinds ∧ Reasoned check s.precomment kinds ∧ s.Fine ∧
      (s.midx :: places kinds).IsChain (· ≤ ·) := by
  induction kinds generalizing s with
  | nil =>
      constructor
      · rintro ⟨s', hrun, hfine⟩
        cases hrun
        exact ⟨List.not_mem_nil, Or.inr fun pre post h => by simp at h, hfine, .singleton _⟩
      · exact fun h => ⟨s, rfl, h.2.2.1⟩
  | cons k kinds ih =>
      rw [reasoned_cons, List.mem_cons, not_or]
      cases k with
      | other =>
          rw [passes_cons rfl, ih]
          simp [places, nextNoted]
      | comment =>
          rw [passes_cons rfl, ih]
          simp [places, nextNoted, Scan.Fine]
      | selfAssigned =>
          refine iff_of_false (not_passes_cons rfl) fun h => h.1.1 rfl
      | assigned vnm =>
          by_cases hbad : Unreasoned check s vnm
          · refine iff_of_false (not_passes_cons (assign_error hbad)) fun h => ?_
            obtain ⟨hopt, hcheck, hpre⟩ := hbad
            have hreason := h.2.1.1 (congrArg _ hopt)
            rw [hcheck, hpre] at hreason
            simp at hreason
          · obtain ⟨s', hassign, hpre, hfine, hmidx⟩ := assign_ok hbad
            have hline : Scan.line check s (.assigned vnm) = .ok s' := hassign
            have hreason : LineKind.assigned vnm = .assigned "options".toList →
                check = true ∨ s.precomment = true := by
              intro hopt
              by_contra hnot
              rw [not_or, Bool.not_eq_true, Bool.not_eq_true] at hnot
              exact hbad ⟨LineKind.assigned.inj hopt, hnot⟩
            have hplaces : places (.assigned vnm :: kinds) = fieldIndex vnm :: places kinds := rfl
            rw [passes_cons hline, ih, hfine, hpre, hplaces, List.isChain_cons_cons]
            constructor
            · rintro ⟨hself, hrest, ⟨hs, hle⟩, hchain⟩
              rw [hmidx hle] at hchain
              exact ⟨⟨LineKind.noConfusion, hself⟩, ⟨hreason, hrest⟩, hs, hle, hchain⟩
            · rintro ⟨⟨-, hself⟩, ⟨-, hrest⟩, hs, hle, hchain⟩
              rw [← hmidx hle] at hchain
              exact ⟨hself, hrest, ⟨hs, hle⟩, hchain⟩

theorem flatten_ioLines (contents : Str) : (ioLines contents).flatten = contents := by
  fun_induction ioLines contents with
  | case1 => rfl
  | case2 s ih => rw [List.flatten_cons, ih, List.singleton_append]
  | case3 c s _ heq ih =>
      rw [heq] at ih
      rw [← ih]
      rfl
  | case4 c s _ ln lns heq ih =>
      rw [heq] at ih
      rw [List.flatten_cons, List.cons_append, ← List.flatten_cons, ih]

theorem take_block (contents : Str) :
    contents.take ((block contents).map List.length).sum = (block contents).flatten := by
  have hsplit : (block contents).flatten ++
      ((ioLines contents).dropWhile (· ≠ ['\n'])).flatten = contents := by
    rw [← List.flatten_append, block, List.takeWhile_append_dropWhile, flatten_ioLines]
  rw [← List.length_flatten]
  exact (List.prefix_iff_eq_take.mp ⟨_, hsplit⟩).symm

theorem validateOrder_iff_passes {text : Str} : validateOrder u check contents = .ok text ↔
    text = (block contents).flatten ∧ Passes check .start ((block contents).map (lineKind u)) := by
  unfold validateOrder
  dsimp only
  rw [except_bind_eq_ok]
  constructor
  · rintro ⟨s, hrun, hret⟩
    split at hret
    · rename_i hfine
      cases hret
      exact ⟨take_block contents, s, hrun, hfine⟩
    · cases hret
  · rintro ⟨rfl, s, hrun, hfine⟩
    have hok : (s.succ && s.msg.isNone) = true := hfine
    refine ⟨s, hrun, ?_⟩
    rw [if_pos hok, take_block]
    rfl

/-- A template gets through when, in what is before the first empty line, nothing is assigned to
`self`, the tests are not turned off without a comment, and the variables are in their order. -/
theorem validateOrder_ok_iff (u : Unicode) (check : Bool) (contents text : Str) :
    validateOrder u check contents = .ok text ↔
      text = (block contents).flatten ∧
        .selfAssigned ∉ (block contents).map (lineKind u) ∧
        Reasoned check false ((block contents).map (lineKind u)) ∧
        (places ((block contents).map (lineKind u))).Pairwise (· ≤ ·) := by
  have hchain : (Scan.start.midx :: places ((block contents).map (lineKind u))).IsChain (· ≤ ·) ↔
      (places ((block contents).map (lineKind u))).Pairwise (· ≤ ·) := by
    rw [List.isChain_iff_pairwise, List.pairwise_cons]
    exact and_iff_right fun _ _ => Nat.zero_le _
  have hfine : Scan.start.Fine := rfl
  rw [validateOrder_iff_passes, passes_iff, hchain, and_iff_right hfine]
  rfl

end Cbuild.Lint
