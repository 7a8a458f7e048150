import Cbuild.Lib.Fueled
import Cbuild.Lib.LastWins
import Cbuild.Profile.Flags
import Mathlib

/-! # Hardening

`get_hardening` of `cbuild/core/profile.py` reads the options of a template, and the functions
for the flags of the tools turn them into flags for the compilers and the linker.
-/

namespace Cbuild.Profile

open Lib Apk

/-- `hardening_fields` -/
inductive Field
  | vis | cfi | bti | pac | cet | sst | pie | ssp | scp | int | format | varInit
  deriving DecidableEq

def Field.all : List Field :=
  [.vis, .cfi, .bti, .pac, .cet, .sst, .pie, .ssp, .scp, .int, .format, .varInit]

def Field.text : Field → Str
  | .vis => "vis".toList
  | .cfi => "cfi".toList
  | .bti => "bti".toList
  | .pac => "pac".toList
  | .cet => "cet".toList
  | .sst => "sst".toList
  | .pie => "pie".toList
  | .ssp => "ssp".toList
  | .scp => "scp".toList
  | .int => "int".toList
  | .format => "format".toList
  | .varInit => "var-init".toList

abbrev Hardening : Type := Field → Bool

def Field.default : Hardening
  | .vis | .cfi | .bti | .pac | .cet | .sst => false
  | .pie | .ssp | .scp | .int | .format | .varInit => true

/-- `supported_fields`; what is not listed is for all architectures. -/
def Field.archs : Field → Option (List Str)
  | .int => some ["x86_64".toList, "ppc64le".toList, "ppc64".toList, "riscv64".toList,
      "aarch64".toList, "loongarch64".toList]
  | .scp => some ["x86_64".toList, "ppc64le".toList, "ppc64".toList]
  | .sst => some ["x86_64".toList, "aarch64".toList]
  | .cfi => some ["x86_64".toList, "aarch64".toList]
  | .cet => some ["x86_64".toList]
  | .pac => some ["aarch64".toList]
  | .bti => some ["aarch64".toList]
  | _ => none

def Field.supported (k : Field) (arch : Str) : Bool := k.archs.all fun archs => arch ∈ archs

/-- `_flag_types` -/
inductive Tool
  | cflags | cxxflags | fflags | ldflags | goflags | rustflags
  deriving DecidableEq

structure Prof where
  arch : Str
  wordsize : Nat
  triplet : Option Str
  cross : Bool
  flags : Tool → List Str
  bldroot : Str
  /-- What is in `usr/lib/clang` of the build root. -/
  clang : List Str

/-- What is taken from a template; the options carry their names. -/
structure Tmpl where
  hardening : List Str
  stage : Nat
  chrootSrcdir : Str
  toolFlags : Tool → List Str
  buildDbg : Bool
  debugLevel : Int
  lto : Bool
  ltofull : Bool
  sanruntime : Bool
  framepointer : Bool
  relr : Bool
  fullrustflags : Bool
  debug : Bool

/-- One option: the field it is about, and what it says. -/
def readOption (fl : Str) : Except Str (Field × Bool) :=
  let neg := "!".toList.isPrefixOf fl
  let fl := if neg then fl.drop 1 else fl
  match Field.all.find? fun k => k.text = fl with
  | some k => .ok (k, !neg)
  | none => .error ("unknown hardening option ".toList ++ fl)

/-- `hdict[fl] = not neg` -/
def setOption (hdict : Hardening) (fl : Str) : Except Str Hardening := do
  let o ← readOption fl
  return applyOne (fun o k => o.1 = k) Prod.snd hdict o

/-- `get_hardening` -/
def getHardening (prof : Prof) (tmpl : Tmpl) (hlist : List Str) : Except Str Hardening := do
  let hdict ← (tmpl.hardening ++ hlist).foldlM setOption Field.default
  -- the dependencies are checked before anything is disabled
  if hdict .cfi && !tmpl.lto then throw "CFI requires LTO".toList
  if hdict .cfi && !hdict .vis then throw "CFI requires hidden visibility".toList
  return fun k => k.supported prof.arch && hdict k

/-- `_has_lto` -/
def Prof.hasLto (prof : Prof) (stage : Nat) : Bool :=
  if prof.arch = "riscv64".toList ∨ prof.arch = "loongarch64".toList then false
  else if prof.wordsize = 32 then false
  else 2 ≤ stage

/-- `_has_relr` -/
def Prof.hasRelr (_ : Prof) (stage : Nat) : Bool := 0 < stage

def flagIf (cond : Bool) (flags : List String) : List Str :=
  if cond then flags.map String.toList else []

/-- `_get_archflags` -/
def getArchflags (prof : Prof) (tmpl : Tmpl) (hard : Hardening) (name : Tool) : List Str :=
  let lto := tmpl.lto && prof.hasLto tmpl.stage
  let ubsan := hard .int && name != .fflags
  flagIf (hard .vis) ["-fvisibility=hidden"] ++
    flagIf (!hard .ssp) ["-fno-stack-protector"] ++
    flagIf tmpl.framepointer ["-fno-omit-frame-pointer"] ++
    flagIf (hard .sst) ["-fsanitize=safe-stack"] ++
    flagIf (lto && hard .cfi && name != .fflags) ["-fsanitize=cfi"] ++
    flagIf (lto && hard .cfi && name != .fflags && tmpl.sanruntime) ["-fno-sanitize-trap=cfi"] ++
    flagIf ubsan ["-fsanitize=signed-integer-overflow,integer-divide-by-zero"] ++
    flagIf (ubsan && !tmpl.sanruntime)
      ["-fsanitize-trap=signed-integer-overflow,integer-divide-by-zero"] ++
    flagIf ubsan ["-fno-sanitize-recover"] ++
    flagIf (lto && tmpl.ltofull) ["-flto"] ++
    flagIf (lto && !tmpl.ltofull) ["-flto=thin"]

/-- The flags of `_get_hcflags` for the compiler alone. -/
def plainFlags (tmpl : Tmpl) (hard : Hardening) (name : Tool) : List Str :=
  (if 0 < tmpl.stage ∧ name ≠ .fflags then
      ["-ffile-prefix-map=".toList ++ (tmpl.chrootSrcdir ++ "=.".toList)] else []) ++
    flagIf (hard .format && name != .fflags) ["-Wformat", "-Werror=format-security"] ++
    flagIf (0 < tmpl.stage && hard .varInit && name != .fflags) ["-ftrivial-auto-var-init=zero"] ++
    flagIf (!hard .pie) ["-fno-PIE"] ++
    flagIf (hard .scp && name != .fflags) ["-fstack-clash-protection"] ++
    flagIf (hard .cet) ["-fcf-protection=full"] ++
    flagIf (hard .pac && hard .bti) ["-mbranch-protection=standard"] ++
    flagIf (hard .pac && !hard .bti) ["-mbranch-protection=pac-ret"] ++
    flagIf (!hard .pac && hard .bti) ["-mbranch-protection=bti"]

/-- `_get_hcflags` -/
def getHcflags (prof : Prof) (tmpl : Tmpl) (tharden : List Str) (name : Tool) :
    Except Str (List Str) := do
  let hard ← getHardening prof tmpl tharden
  return plainFlags tmpl hard name ++ getArchflags prof tmpl hard name

/-- The runtime library of the sanitizers. -/
def ubsanRuntime (prof : Prof) : Except Str Str :=
  match prof.clang, prof.triplet with
  | v :: _, some triplet => .ok ("/usr/lib/clang/".toList ++ v ++ "/lib/".toList ++ triplet ++
      "/libclang_rt.ubsan_standalone.a".toList)
  | _, _ => .error "no runtime".toList

/-- CFI uses the runtime for UBSan to print its errors. -/
def runtimeFlags (prof : Prof) (tmpl : Tmpl) (hard : Hardening) : Except Str (List Str) :=
  if tmpl.sanruntime && (hard .int || hard .cfi) then (ubsanRuntime prof).map fun r => [r]
  else .ok []

/-- `_get_hldflags` -/
def getHldflags (prof : Prof) (tmpl : Tmpl) (tharden : List Str) : Except Str (List Str) := do
  let hard ← getHardening prof tmpl tharden
  let runtime ← runtimeFlags prof tmpl hard
  return flagIf (!hard .pie) ["-no-pie"] ++
    flagIf (tmpl.relr && prof.hasRelr tmpl.stage) ["-Wl,-z,pack-relative-relocs"] ++ runtime ++
    flagIf true ["-Wl,-O2"] ++ getArchflags prof tmpl hard .ldflags

/-- `_get_rustflags` -/
def getRustflags (prof : Prof) (tmpl : Tmpl) (extraFlags : List Str) (debug : Int) (shell : Bool) :
    Flags :=
  let bflags := ["--remap-path-prefix=".toList ++ tmpl.chrootSrcdir ++ "=.".toList] ++
    (if prof.cross then
      ["--sysroot".toList, "/usr/".toList ++ prof.triplet.getD [] ++ "/usr".toList] else []) ++
    flagIf tmpl.framepointer ["-Cforce-frame-pointers=true"] ++
    flagIf (tmpl.relr && prof.hasRelr tmpl.stage) ["-Clink-arg=-Wl,-z,pack-relative-relocs"] ++
    flagIf tmpl.fullrustflags ["-Copt-level=3", "-Ccodegen-units=1", "-Cpanic=abort"] ++
    (if tmpl.fullrustflags = true ∧ 0 < debug then ["-Cdebuginfo=".toList ++ pyInt10 debug] else [])
  flagsRet (prof.flags .rustflags ++ bflags ++ extraFlags) shell

/-- `_get_goflags` -/
def getGoflags (prof : Prof) (tmpl : Tmpl) (extraFlags tharden : List Str) (shell : Bool) :
    Except Str Flags := do
  let hard ← getHardening prof tmpl tharden
  return flagsRet (prof.flags .goflags ++ (flagIf true ["-modcacherw"] ++
    flagIf (hard .pie) ["-buildmode=pie"]) ++ extraFlags) shell

/-- The debug level of `_get_tool_flags`. -/
def debugLevel (prof : Prof) (tmpl : Tmpl) : Int :=
  if tmpl.buildDbg && tmpl.debug then
    if tmpl.debugLevel < 0 then if prof.wordsize = 32 then 1 else 2 else tmpl.debugLevel
  else -1

/-- `_get_tool_flags` -/
def getToolFlags (prof : Prof) (tmpl : Tmpl) (name : Tool) (extraFlags hardening : List Str)
    (shell : Bool) : Except Str Flags := do
  let extra := tmpl.toolFlags name ++ extraFlags
  let given (hflags : List Str) (name : Tool) : Given :=
    ⟨hflags, prof.flags name, extra, prof.bldroot, prof.triplet.isNone, debugLevel prof tmpl⟩
  match name with
  | .cflags | .cxxflags | .fflags =>
      let hflags ← getHcflags prof tmpl hardening name
      return getGencflags (given hflags name) shell
  | .ldflags =>
      let hflags ← getHldflags prof tmpl hardening
      return getLdflags (given hflags .ldflags) shell
  | .goflags => getGoflags prof tmpl extra hardening shell
  | .rustflags => return getRustflags prof tmpl extra (debugLevel prof tmpl) shell

/-! ## What the options say -/

variable {prof : Prof} {tmpl : Tmpl} {hlist opts : List Str} {hdict hard : Hardening} {k : Field}
  {fl : Str} {o : Field × Bool}

/-- An option as it is written. -/
def optionText (o : Field × Bool) : Str := if o.2 then o.1.text else '!' :: o.1.text

/-- Is the option about the field? -/
def isAbout (o : Field × Bool) (k : Field) : Bool := o.1 = k

/-- What the last option about a field says; the default if there is none. -/
def askedFor (os : List (Field × Bool)) : Hardening := lastOf isAbout Prod.snd os Field.default

theorem readOption_text (o : Field × Bool) : readOption (optionText o) = .ok o := by
  obtain ⟨k, b⟩ := o
  cases k <;> cases b <;> rfl

theorem readOption_iff : readOption fl = .ok o ↔ fl = optionText o := by
  constructor
  · intro h
    dsimp only [readOption] at h
    split at h
    case h_2 => cases h
    case h_1 k hfind =>
      have htext := List.find?_some hfind
      rw [decide_eq_true_eq] at htext
      cases h
      cases fl with
      | nil => exact absurd htext (by cases k <;> decide)
      | cons c fl =>
          by_cases hc : c = '!'
          · subst hc
            exact congrArg ('!' :: ·) htext.symm
          · have hneg : "!".toList.isPrefixOf (c :: fl) = false := by
              change ('!' == c && _) = false
              rw [beq_false_of_ne (Ne.symm hc), Bool.false_and]
            rw [hneg] at htext ⊢
            exact htext.symm
  · rintro rfl
    exact readOption_text o

theorem foldlM_setOption :
    opts.foldlM setOption hdict = .ok hard ↔
      ∃ os : List (Field × Bool), opts = os.map optionText ∧ hard = os.foldl (applyOne isAbout Prod.snd) hdict := by
  induction opts generalizing hdict with
  | nil =>
      constructor
      · intro h
        cases h
        exact ⟨[], rfl, rfl⟩
      · rintro ⟨os, hos, rfl⟩
        rw [List.map_eq_nil_iff.mp hos.symm]
        rfl
  | cons fl opts ih =>
      rw [List.foldlM_cons, except_bind_eq_ok]
      constructor
      · rintro ⟨hdict', hone, hrest⟩
        obtain ⟨o, ho, hone⟩ := except_bind_eq_ok.mp hone
        obtain ⟨os, rfl, rfl⟩ := ih.mp hrest
        cases hone
        exact ⟨o :: os, by rw [List.map_cons, readOption_iff.mp ho], rfl⟩
      · rintro ⟨os, hos, rfl⟩
        obtain ⟨o, os, rfl, rfl, rfl⟩ := List.map_eq_cons_iff.mp hos.symm
        refine ⟨applyOne isAbout Prod.snd hdict o, ?_, ih.mpr ⟨os, rfl, rfl⟩⟩
        exact except_bind_eq_ok.mpr ⟨o, readOption_iff.mpr rfl, rfl⟩

/-- A field is on when the last option about it says so, or the default, and the architecture has
it. -/
theorem getHardening_said (h : getHardening prof tmpl hlist = .ok hard) :
    ∃ os : List (Field × Bool), tmpl.hardening ++ hlist = os.map optionText ∧
      (askedFor os .cfi = true → tmpl.lto = true ∧ askedFor os .vis = true) ∧
      hard = fun k => k.supported prof.arch && askedFor os k := by
  obtain ⟨hdict, hread, hrest⟩ := except_bind_eq_ok.mp h
  obtain ⟨os, hos, rfl⟩ := foldlM_setOption.mp hread
  rw [foldl_applyOne] at hrest
  dsimp only at hrest
  split at hrest
  · cases hrest
  rename_i hlto
  split at hrest
  · cases hrest
  rename_i hvis
  cases hrest
  refine ⟨os, hos, fun hcfi => ?_, rfl⟩
  change lastOf isAbout Prod.snd os Field.default .cfi = true at hcfi
  rw [hcfi, Bool.true_and, Bool.not_eq_true', Bool.not_eq_false] at hlto hvis
  exact ⟨hlto, hvis⟩

/-- The options of a template are taken when each one is a field, or a field with a `!`, and
control flow integrity is not asked for alone. -/
theorem getHardening_exact (prof : Prof) (tmpl : Tmpl) (hlist : List Str) (hard : Hardening) :
    getHardening prof tmpl hlist = .ok hard ↔
      ∃ os : List (Field × Bool), tmpl.hardening ++ hlist = os.map optionText ∧
        (askedFor os .cfi = true → tmpl.lto = true ∧ askedFor os .vis = true) ∧
        hard = fun k => k.supported prof.arch && askedFor os k := by
  constructor
  · exact getHardening_said
  · rintro ⟨os, hos, hcfi, rfl⟩
    have hread : (tmpl.hardening ++ hlist).foldlM setOption Field.default = .ok (askedFor os) :=
      foldlM_setOption.mpr ⟨os, hos, (foldl_applyOne ..).symm⟩
    refine except_bind_eq_ok.mpr ⟨askedFor os, hread, ?_⟩
    cases hask : askedFor os .cfi with
    | false =>
        simp only [Bool.false_and, Bool.false_eq_true, if_false]
        rfl
    | true =>
        obtain ⟨hlto, hvis⟩ := hcfi hask
        simp only [hlto, hvis, Bool.not_true, Bool.and_false, Bool.false_eq_true, if_false]
        rfl

theorem vis_of_cfi (h : getHardening prof tmpl hlist = .ok hard) (hcfi : hard .cfi = true) :
    Field.cfi.supported prof.arch = true ∧ hard .vis = true := by
  obtain ⟨os, -, hdeps, rfl⟩ := getHardening_said h
  obtain ⟨hsupp, hasked⟩ := Bool.and_eq_true_iff.mp hcfi
  exact ⟨hsupp, Bool.and_eq_true_iff.mpr ⟨rfl, (hdeps hasked).2⟩⟩

/-! ## Compiling and linking agree -/

/-- Flags that turn on, or off, the checks of a sanitizer. -/
def isSanitizer (f : Str) : Bool :=
  "-fsanitize".toList.isPrefixOf f || "-fno-sanitize".toList.isPrefixOf f

def isLto (f : Str) : Bool := "-flto".toList.isPrefixOf f

/-- Checks that report what they find, for which a runtime library is needed. -/
def Reports (fs : List Str) : Prop :=
  "-fno-sanitize-trap=cfi".toList ∈ fs ∨
    "-fsanitize=signed-integer-overflow,integer-divide-by-zero".toList ∈ fs ∧
      "-fsanitize-trap=signed-integer-overflow,integer-divide-by-zero".toList ∉ fs

/-- The flags for a compiler, and those for the linker. -/
structure Agree (prof : Prof) (cs ls : List Str) : Prop where
  checks : cs.filter (fun f => isSanitizer f || isLto f) =
    ls.filter (fun f => isSanitizer f || isLto f)
  runtime : Reports cs → ∃ r ∈ ls, ubsanRuntime prof = .ok r
  cfi : "-fsanitize=cfi".toList ∈ cs → Field.cfi.supported prof.arch = true ∧
    "-fvisibility=hidden".toList ∈ cs ∧ ∃ f ∈ cs, isLto f = true

variable {name : Tool} {cond : Bool} {flags : List String} {f : String} {r : Str}

theorem mem_flagIf : f.toList ∈ flagIf cond flags ↔ cond = true ∧ f ∈ flags := by
  cases cond with
  | false => simp [flagIf]
  | true => simp [flagIf, String.toList_inj]

theorem filter_flagIf_nil {p : Str → Bool} (h : ∀ f ∈ flags, ¬ p f.toList = true) :
    (flagIf cond flags).filter p = [] := by
  cases cond with
  | false => rfl
  | true =>
      refine List.filter_eq_nil_iff.mpr (fun g hg => ?_)
      obtain ⟨f, hf, rfl⟩ := List.mem_map.mp hg
      exact h f hf

theorem filter_plainFlags :
    (plainFlags tmpl hard name).filter (fun f => isSanitizer f || isLto f) = [] := by
  simp only [plainFlags, List.filter_append]
  simp (disch := decide) only [filter_flagIf_nil, List.append_nil]
  split
  · rfl
  · rfl

theorem getArchflags_eq (hname : name ≠ .fflags) :
    getArchflags prof tmpl hard name = getArchflags prof tmpl hard .ldflags := by
  have hn : (name != .fflags) = true := bne_iff_ne.mpr hname
  unfold getArchflags
  rw [hn]
  rfl

theorem mem_hcflags {f : String} (hf : isSanitizer f.toList = true ∨ isLto f.toList = true) :
    f.toList ∈ plainFlags tmpl hard name ++ getArchflags prof tmpl hard name ↔
      f.toList ∈ getArchflags prof tmpl hard name := by
  rw [List.mem_append, or_iff_right]
  intro hmem
  exact List.filter_eq_nil_iff.mp filter_plainFlags _ hmem (Bool.or_eq_true_iff.mpr hf)

theorem mem_archflags_cfi : "-fsanitize=cfi".toList ∈ getArchflags prof tmpl hard name ↔
    (tmpl.lto && prof.hasLto tmpl.stage) = true ∧ hard .cfi = true ∧ name ≠ .fflags := by
  simp only [getArchflags, List.mem_append, mem_flagIf]
  simp [and_assoc]

theorem mem_archflags_lto (h : (tmpl.lto && prof.hasLto tmpl.stage) = true) :
    ∃ f ∈ getArchflags prof tmpl hard name, isLto f = true := by
  cases hfull : tmpl.ltofull with
  | true =>
      refine ⟨"-flto".toList, ?_, rfl⟩
      simp only [getArchflags, List.mem_append, mem_flagIf]
      simp [h, hfull]
  | false =>
      refine ⟨"-flto=thin".toList, ?_, rfl⟩
      simp only [getArchflags, List.mem_append, mem_flagIf]
      simp [h, hfull]

/-- The compiler makes code that reports only where the runtime library is asked for. -/
theorem sanruntime_of_reports
    (h : Reports (plainFlags tmpl hard name ++ getArchflags prof tmpl hard name)) :
    (tmpl.sanruntime && (hard .int || hard .cfi)) = true := by
  obtain hcfi | ⟨hint, htrap⟩ := h
  · rw [mem_hcflags (Or.inl (by decide))] at hcfi
    simp only [getArchflags, List.mem_append, mem_flagIf] at hcfi
    simp at hcfi
    simp [hcfi]
  · rw [mem_hcflags (Or.inl (by decide))] at hint htrap
    simp only [getArchflags, List.mem_append, mem_flagIf] at hint htrap
    simp at hint htrap
    simp [hint, htrap hint.1 hint.2]

theorem filter_runtime {rs : List Str} (h : runtimeFlags prof tmpl hard = .ok rs) :
    rs.filter (fun f => isSanitizer f || isLto f) = [] := by
  unfold runtimeFlags ubsanRuntime at h
  split at h
  · split at h
    · cases h
      rfl
    · cases h
  · cases h
    rfl

/-- The compilers for C and C++, and the linker, are told to check the same; what is checked with
a report is linked to the runtime library; control flow integrity comes with hidden visibility
and optimization at link time. -/
theorem hardening_agrees {cs ls : List Str} (hname : name ≠ .fflags)
    (hc : getHcflags prof tmpl hlist name = .ok cs) (hl : getHldflags prof tmpl hlist = .ok ls) :
    Agree prof cs ls := by
  obtain ⟨hard, hhard, hc⟩ := except_bind_eq_ok.mp hc
  obtain ⟨hard', hhard', hl⟩ := except_bind_eq_ok.mp hl
  obtain rfl : hard' = hard := Except.ok.inj (hhard'.symm.trans hhard)
  obtain ⟨runtime, hrun, hl⟩ := except_bind_eq_ok.mp hl
  cases hc
  cases hl
  constructor
  case checks =>
    simp only [List.filter_append, filter_plainFlags, filter_runtime hrun,
      getArchflags_eq hname]
    simp (disch := decide) only [filter_flagIf_nil, List.append_nil, List.nil_append]
  case runtime =>
    intro hreports
    rw [runtimeFlags, if_pos (sanruntime_of_reports hreports)] at hrun
    cases hr : ubsanRuntime prof with
    | error e =>
        rw [hr] at hrun
        cases hrun
    | ok r =>
        rw [hr] at hrun
        cases hrun
        exact ⟨r, by simp, rfl⟩
  case cfi =>
    intro hcfi
    obtain ⟨hlto, hon, -⟩ := mem_archflags_cfi.mp ((mem_hcflags (Or.inl (by decide))).mp hcfi)
    obtain ⟨hsupp, hvis⟩ := vis_of_cfi hhard hon
    have harch : ∃ f ∈ getArchflags prof tmpl hard' name, isLto f = true := mem_archflags_lto hlto
    obtain ⟨f, hf, hflto⟩ := harch
    refine ⟨hsupp, List.mem_append_right _ ?_, f, List.mem_append_right _ hf, hflto⟩
    simp only [getArchflags, List.mem_append, mem_flagIf]
    simp [hvis]


theorem words_flagsRet (it : List Str) (shell : Bool) : (flagsRet it shell).words = some it := by
  cases shell with
  | false => rfl
  | true => exact words_of_line it

theorem getGencflags_begins (g : Given) (shell : Bool) :
    ∃ rest, (getGencflags g shell).words = some (g.hflags ++ rest) := by
  simp only [getGencflags, words_flagsRet]
  split
  · simp only [List.append_assoc]
    exact ⟨_, rfl⟩
  · simp only [List.append_assoc]
    exact ⟨_, rfl⟩

theorem getLdflags_begins (g : Given) (shell : Bool) :
    ∃ rest, (getLdflags g shell).words = some (g.hflags ++ rest) := by
  simp only [getLdflags, words_flagsRet, List.append_assoc]
  exact ⟨_, rfl⟩

theorem cflags_begin {c : Flags} {extra : List Str} {shell : Bool}
    (hname : name = .cflags ∨ name = .cxxflags)
    (hc : getToolFlags prof tmpl name extra hlist shell = .ok c) :
    ∃ cs rest, getHcflags prof tmpl hlist name = .ok cs ∧ c.words = some (cs ++ rest) := by
  obtain rfl | rfl := hname
  · obtain ⟨cs, hcs, hret⟩ := except_bind_eq_ok.mp hc
    cases hret
    exact ⟨cs, (getGencflags_begins _ shell).imp fun rest h => ⟨hcs, h⟩⟩
  · obtain ⟨cs, hcs, hret⟩ := except_bind_eq_ok.mp hc
    cases hret
    exact ⟨cs, (getGencflags_begins _ shell).imp fun rest h => ⟨hcs, h⟩⟩

theorem ldflags_begin {l : Flags} {extra : List Str} {shell : Bool}
    (hl : getToolFlags prof tmpl .ldflags extra hlist shell = .ok l) :
    ∃ ls rest, getHldflags prof tmpl hlist = .ok ls ∧ l.words = some (ls ++ rest) := by
  obtain ⟨ls, hls, hret⟩ := except_bind_eq_ok.mp hl
  cases hret
  exact ⟨ls, (getLdflags_begins _ shell).imp fun rest h => ⟨hls, h⟩⟩

/-- The flags of C or C++, and those of the linker, begin with flags for hardening that agree, also
when they come as a line for a shell. -/
theorem toolFlags_agree {c l : Flags} {extra extra' : List Str} {shell : Bool}
    (hname : name = .cflags ∨ name = .cxxflags)
    (hc : getToolFlags prof tmpl name extra hlist shell = .ok c)
    (hl : getToolFlags prof tmpl .ldflags extra' hlist shell = .ok l) :
    ∃ cs ls cs' ls', getHcflags prof tmpl hlist name = .ok cs ∧
      getHldflags prof tmpl hlist = .ok ls ∧ c.words = some (cs ++ cs') ∧
      l.words = some (ls ++ ls') ∧ Agree prof cs ls := by
  obtain ⟨cs, cs', hcs, hcw⟩ := cflags_begin hname hc
  obtain ⟨ls, ls', hls, hlw⟩ := ldflags_begin hl
  have hne : name ≠ .fflags := by
    rintro rfl
    obtain h | h := hname
    · cases h
    · cases h
  exact ⟨cs, ls, cs', ls', hcs, hls, hcw, hlw, hardening_agrees hne hcs hls⟩

/-- A template with control flow integrity, built in the last stage. -/
def hardened : Tmpl where
  hardening := ["vis".toList, "cfi".toList, "!int".toList]
  stage := 3
  chrootSrcdir := "/builddir/b".toList
  toolFlags _ := []
  buildDbg := true
  debugLevel := -1
  lto := true
  ltofull := false
  sanruntime := true
  framepointer := false
  relr := true
  fullrustflags := false
  debug := true

def amd64 : Prof where
  arch := "x86_64".toList
  wordsize := 64
  triplet := some "x86_64-chimera-linux-musl".toList
  cross := false
  flags _ := ["-O2".toList]
  bldroot := "/bldroot".toList
  clang := ["19".toList]

def okLine : Except Str Flags → Flags
  | .ok fs => fs
  | .error e => .line e

theorem toolFlags_of_hardened : ∃ cs ls cs' ls', getHcflags amd64 hardened [] .cflags = .ok cs ∧
    getHldflags amd64 hardened [] = .ok ls ∧
    (okLine (getToolFlags amd64 hardened .cflags [] [] true)).words = some (cs ++ cs') ∧
    (okLine (getToolFlags amd64 hardened .ldflags [] [] true)).words = some (ls ++ ls') ∧
    Agree amd64 cs ls :=
  toolFlags_agree (Or.inl rfl) (by rfl) (by rfl)

end Cbuild.Profile
