import Cbuild.Hooks.Provides

/-! # Provides of one name

The list for apk has every virtual name at most once exactly when the unscanned
provides do, no library or module is found twice, and every scanner knows what it
finds under an explicit name to be explicit. The service scanner keeps the explicit
names without their prefix and looks for them with it.
-/

namespace Cbuild.Provides

open Lib

/-- The kinds of provides that are scanned. -/
inductive Kind
  | so
  | pc
  | cmd
  | svc
  | usvc
  deriving DecidableEq

def Kind.pfx : Kind → Str
  | .so => "so:".toList
  | .pc => "pc:".toList
  | .cmd => "cmd:".toList
  | .svc => "svc:".toList
  | .usvc => "usvc:".toList

/-- An entry of one of the scanned kinds. -/
def isVirtual (e : Str) : Bool := [Kind.so, .pc, .cmd, .svc, .usvc].any (·.pfx.isPrefixOf e)

/-- The name an entry provides. -/
def virtualName (e : Str) : Str := cutVersion e

/-- The virtual names in a list of provides. -/
def virtualNames (l : List Str) : List Str := (l.filter isVirtual).map virtualName

/-! ## Names -/

theorem cutVersion_append (name v : Str) : cutVersion (name ++ '=' :: v) = cutVersion name := by
  unfold cutVersion
  induction name with
  | nil => simp
  | cons c name ih =>
      by_cases hc : c = '='
      · simp [hc]
      · simpa [hc] using ih

theorem cutVersion_eq_self {name : Str} (h : '=' ∉ name) : cutVersion name = name := by
  refine List.takeWhile_eq_self_iff.mpr (fun c hc => ?_)
  rw [decide_eq_true_iff]
  intro heq
  exact h (heq ▸ hc)

/-- The name of a found entry of a kind. -/
def label (k : Kind) (n : Str) : Str := k.pfx ++ cutVersion n

theorem Kind.notMem_pfx (k : Kind) : '=' ∉ k.pfx := by
  cases k <;> decide

theorem virtualName_pfx (k : Kind) (n : Str) : virtualName (k.pfx ++ n) = label k n := by
  have hpos : ∀ c ∈ k.pfx, decide (c ≠ '=') = true := by
    intro c hc
    rw [decide_eq_true_iff]
    intro heq
    exact k.notMem_pfx (heq ▸ hc)
  exact List.takeWhile_append_of_pos hpos

theorem isVirtual_pfx (k : Kind) (n : Str) : isVirtual (k.pfx ++ n) = true := by
  refine List.any_eq_true.mpr ⟨k, by cases k <;> simp, ?_⟩
  exact List.isPrefixOf_iff_prefix.mpr (List.prefix_append k.pfx n)

/-- What stands before the colon tells the kinds apart. -/
theorem label_eq_iff (k k' : Kind) (n n' : Str) :
    label k n = label k' n' ↔ k = k' ∧ cutVersion n = cutVersion n' := by
  constructor
  · intro h
    have hword := congrArg (List.takeWhile (· ≠ ':')) h
    have hk : k = k' := by
      revert hword
      unfold label
      cases k <;> cases k' <;> simp [Kind.pfx]
    subst hk
    exact ⟨rfl, List.append_cancel_left h⟩
  · intro h
    obtain ⟨rfl, hn⟩ := h
    rw [label, hn, label]

/-! ## What is found and what is known -/

/-- The module in a line of `pkg-config`. -/
def moduleOf (ln : Str) : Option Str :=
  match splitEq [] ln with
  | [pname, _] => some pname
  | _ => none

/-- The modules of a file. -/
def Tools.modulesOf (tools : Tools) (f : List Str × Str) : List Str :=
  ((tools.printProvides f.1 (pcStem f.2)).getD []).filterMap moduleOf

/-- What the scanners find, whether it is explicit or not. -/
def Pkg.found (pkg : Pkg) (tools : Tools) : Kind → List Str
  | .so => (pkg.foundLibs tools).map Prod.fst
  | .pc => (pkg.pcFiles.flatMap tools.modulesOf).dedup
  | .cmd => pkg.foundCmds
  | .svc => pkg.foundSvcs
  | .usvc => pkg.foundUsvcs

/-- What a scanner takes to be explicit. -/
def Pkg.known (pkg : Pkg) : Kind → Str → Bool
  | .so, n => n ∈ (explicit "so:".toList pkg.provides).map cutVersion
  | .pc, n => n ∈ (explicit "pc:".toList pkg.provides).map cutVersion
  | .cmd, n => n ∈ pkg.cmdset
  | .svc, n => "svc:".toList ++ n ∈ pkg.svcset
  | .usvc, n => "usvc:".toList ++ n ∈ pkg.svcset

/-- The names a scanner adds. -/
def Pkg.added (pkg : Pkg) (tools : Tools) (k : Kind) : List Str :=
  ((pkg.found tools k).filter fun n => !pkg.known k n).map (label k)

theorem versioned_eq_some {names s : List Str} (h : versioned names = some s) :
    s = names.map cutVersion := by
  have hmap := mapM_eq_some_iff.mp h
  have hcut : names.map (fun name => if '=' ∈ name then some (cutVersion name) else none) =
      (names.map cutVersion).map some := by
    rw [List.map_map]
    refine List.map_congr_left (fun name hname => ?_)
    obtain ⟨b, _, hb⟩ := exists_of_mapM_mem h hname
    split at hb
    · rename_i heq
      rw [if_pos heq]
      rfl
    · contradiction
  rw [hcut] at hmap
  exact (List.map_injective_iff.mpr (Option.some_injective _) hmap).symm

/-! ### Modules -/

/-- The modules that have been recorded after those of `found`. -/
structure Recorded (pcset found : List Str) (pcs : Dict Str Str) : Prop where
  nodup : pcs.keys.Nodup
  mem_keys : ∀ n, n ∈ pcs.keys ↔ n ∈ found ∧ n ∉ pcset
  value : ∀ e ∈ pcs, ∃ v, e.2 = e.1 ++ '=' :: v

theorem Recorded.set {pcset found : List Str} {pcs : Dict Str Str}
    (h : Recorded pcset found pcs) {n : Str} (hn : n ∉ pcset) (v : Str) :
    Recorded pcset (found ++ [n]) (pcs.set n (n ++ '=' :: v)) := by
  refine ⟨Dict.nodup_set h.nodup, fun m => ?_, fun e he => ?_⟩
  · rw [Dict.mem_keys_set, h.mem_keys, List.mem_append, List.mem_singleton]
    constructor
    · intro hm
      rcases hm with rfl | hm
      · exact ⟨.inr rfl, hn⟩
      · exact ⟨.inl hm.1, hm.2⟩
    · intro hm
      obtain ⟨hm | rfl, hne⟩ := hm
      · exact .inr ⟨hm, hne⟩
      · exact .inl rfl
  · rcases Dict.mem_set he with rfl | hmem
    · exact ⟨v, rfl⟩
    · exact h.value e hmem

theorem Recorded.pass {pcset found : List Str} {pcs : Dict Str Str}
    (h : Recorded pcset found pcs) {n : Str} (hn : n ∈ pcset) :
    Recorded pcset (found ++ [n]) pcs := by
  refine ⟨h.nodup, fun m => ?_, h.value⟩
  rw [h.mem_keys, List.mem_append, List.mem_singleton]
  constructor
  · intro hm
    exact ⟨.inl hm.1, hm.2⟩
  · intro hm
    obtain ⟨hm | rfl, hne⟩ := hm
    · exact ⟨hm, hne⟩
    · exact absurd hn hne

/-- One line. -/
theorem Recorded.line {pkg : Pkg} {pcset found : List Str} {pcs pcs' : Dict Str Str} {ln : Str}
    (h : Recorded pcset found pcs) (hrun : scanLine pkg pcset pcs ln = some pcs') :
    Recorded pcset (found ++ (moduleOf ln).toList) pcs' := by
  unfold scanLine at hrun
  split at hrun
  · rename_i pname mver hsplit
    obtain ⟨v, _, rfl⟩ := Option.map_eq_some_iff.mp hrun
    unfold moduleOf
    rw [hsplit]
    by_cases hn : pname ∈ pcset
    · rw [if_pos hn]
      exact h.pass hn
    · rw [if_neg hn]
      exact h.set hn v
  · contradiction

theorem Recorded.lines {pkg : Pkg} {pcset found lns : List Str} {pcs pcs' : Dict Str Str}
    (h : Recorded pcset found pcs) (hrun : lns.foldlM (scanLine pkg pcset) pcs = some pcs') :
    Recorded pcset (found ++ lns.filterMap moduleOf) pcs' := by
  induction lns generalizing found pcs with
  | nil =>
      cases hrun
      simpa using h
  | cons ln lns ih =>
      rw [List.foldlM_cons] at hrun
      obtain ⟨pcs₁, hln, hrest⟩ := Option.bind_eq_some_iff.mp hrun
      have hlines := ih (h.line hln) hrest
      rw [List.append_assoc] at hlines
      cases hmod : moduleOf ln with
      | none => simpa [hmod] using hlines
      | some n => simpa [hmod] using hlines

theorem Recorded.files {tools : Tools} {pkg : Pkg} {pcset found : List Str}
    {fs : List (List Str × Str)} {pcs pcs' : Dict Str Str} (h : Recorded pcset found pcs)
    (hrun : fs.foldlM (scanPc tools pkg pcset) pcs = some pcs') :
    Recorded pcset (found ++ fs.flatMap tools.modulesOf) pcs' := by
  induction fs generalizing found pcs with
  | nil =>
      cases hrun
      simpa using h
  | cons f fs ih =>
      rw [List.foldlM_cons] at hrun
      obtain ⟨pcs₁, hf, hrest⟩ := Option.bind_eq_some_iff.mp hrun
      unfold scanPc at hf
      split at hf
      · contradiction
      · obtain ⟨lns, hlns, hfold⟩ := Option.bind_eq_some_iff.mp hf
        have hfiles := ih (h.lines hfold) hrest
        rw [List.append_assoc] at hfiles
        simpa [Tools.modulesOf, hlns] using hfiles

theorem invokePc_names {tools : Tools} {pkg : Pkg} {pcs : List Str}
    (h : invokePc tools pkg = some pcs) :
    (pcs.map fun x => virtualName (Kind.pc.pfx ++ x)).Perm (pkg.added tools .pc) := by
  unfold invokePc at h
  split at h
  · rename_i hoff
    cases h
    simp [Pkg.added, Pkg.found, Pkg.pcFiles, hoff]
  · obtain ⟨pcset, hset, hrun⟩ := Option.bind_eq_some_iff.mp h
    obtain ⟨d, hd, rfl⟩ := Option.map_eq_some_iff.mp hrun
    have hnil : Recorded pcset [] [] := ⟨List.nodup_nil, by simp [Dict.keys], by simp⟩
    have hrec := hnil.files hd
    have hnames : (Dict.values d).map (fun x => virtualName (Kind.pc.pfx ++ x)) =
        d.keys.map (label .pc) := by
      unfold Dict.values Dict.keys
      rw [List.map_map, List.map_map]
      refine List.map_congr_left (fun e he => ?_)
      obtain ⟨v, hv⟩ := hrec.value e he
      show virtualName (Kind.pc.pfx ++ e.2) = label .pc e.1
      rw [virtualName_pfx, hv, label, cutVersion_append, label]
    rw [hnames]
    refine List.Perm.map _ ((List.perm_ext_iff_of_nodup hrec.nodup
      ((List.nodup_dedup _).filter _)).mpr (fun n => ?_))
    rw [hrec.mem_keys, versioned_eq_some hset, List.nil_append]
    simp [Pkg.known]

/-! ### The other scanners -/

theorem invokeSo_names {tools : Tools} {pkg : Pkg} {aso : List (Str × Str)}
    (h : invokeSo tools pkg = some aso) :
    aso.map (fun x => virtualName (Kind.so.pfx ++ x.1 ++ '=' :: x.2)) = pkg.added tools .so := by
  unfold invokeSo at h
  split at h
  · rename_i hoff
    cases h
    simp [Pkg.added, Pkg.found, Pkg.foundLibs, hoff]
  · obtain ⟨soset, hset, hrun⟩ := Option.bind_eq_some_iff.mp h
    split at hrun
    · cases hrun
      rw [versioned_eq_some hset, Pkg.added, Pkg.found, List.filter_map, List.map_map,
        List.map_map]
      have hname : ∀ x : Str × Str, virtualName (Kind.so.pfx ++ x.1 ++ '=' :: x.2) =
          label .so x.1 := by
        intro x
        rw [List.append_assoc, virtualName_pfx, label, cutVersion_append, label]
      simp only [Function.comp_def, hname, Pkg.known, decide_not]
    · contradiction

theorem version_eq (pkg : Pkg) : ∃ v, pkg.version = '=' :: v := by
  unfold Pkg.version
  split
  · exact ⟨['0'], by decide⟩
  · exact ⟨_, rfl⟩

theorem virtualName_version (pkg : Pkg) (k : Kind) (n : Str) :
    virtualName (k.pfx ++ (n ++ pkg.version)) = label k n := by
  obtain ⟨v, hv⟩ := version_eq pkg
  rw [virtualName_pfx, hv, label, cutVersion_append, label]

theorem sorted_perm (l : List Str) : (sorted l).Perm l := List.mergeSort_perm l _

theorem invokeCmd_names (tools : Tools) (pkg : Pkg) :
    ((invokeCmd pkg).map fun x => virtualName (Kind.cmd.pfx ++ x)).Perm (pkg.added tools .cmd) := by
  refine ((sorted_perm _).map _).trans ?_
  rw [List.map_map]
  simp only [Function.comp_def, virtualName_version]
  simp [Pkg.added, Pkg.found, Pkg.known]

theorem scanSvc_names (pkg : Pkg) (k : Kind) (found : List Str) :
    (scanSvc pkg k.pfx found).map virtualName =
      (found.filter fun f => !decide (k.pfx ++ f ∈ pkg.svcset)).map (label k) := by
  unfold scanSvc
  rw [List.map_map, List.filter_congr (q := fun f => !decide (k.pfx ++ f ∈ pkg.svcset))
    (fun f _ => by simp)]
  refine List.map_congr_left (fun f _ => ?_)
  show virtualName (k.pfx ++ f ++ pkg.version) = label k f
  rw [List.append_assoc, virtualName_version]

theorem invokeSvc_names (tools : Tools) (pkg : Pkg) :
    ((invokeSvc pkg).map virtualName).Perm (pkg.added tools .svc ++ pkg.added tools .usvc) := by
  refine ((sorted_perm _).map _).trans ?_
  have hsvc := scanSvc_names pkg .svc pkg.foundSvcs
  have husvc := scanSvc_names pkg .usvc pkg.foundUsvcs
  simp only [Kind.pfx] at hsvc husvc
  rw [List.map_append, hsvc, husvc]
  simp only [Pkg.added, Pkg.found, Pkg.known]
  exact List.Perm.refl _

/-- Services carry the prefix already. -/
theorem isVirtual_invokeSvc (pkg : Pkg) : ∀ e ∈ invokeSvc pkg, isVirtual e = true := by
  intro e he
  have hscan : ∀ (k : Kind) (found : List Str), ∀ e ∈ scanSvc pkg k.pfx found,
      isVirtual e = true := by
    intro k found e he
    obtain ⟨f, _, rfl⟩ := List.mem_map.mp he
    rw [List.append_assoc]
    exact isVirtual_pfx k _
  rcases List.mem_append.mp ((sorted_perm _).mem_iff.mp he) with h | h
  · exact hscan .svc pkg.foundSvcs e h
  · exact hscan .usvc pkg.foundUsvcs e h

/-! ## The names in the list -/

theorem virtualNames_append (l l' : List Str) :
    virtualNames (l ++ l') = virtualNames l ++ virtualNames l' := by
  rw [virtualNames, List.filter_append, List.map_append, virtualNames, virtualNames]

theorem virtualNames_eq_map {l : List Str} (h : ∀ e ∈ l, isVirtual e = true) :
    virtualNames l = l.map virtualName := by
  rw [virtualNames, List.filter_eq_self.mpr h]

theorem virtualNames_map_pfx {α : Type} (k : Kind) (f : α → Str) (l : List α) :
    virtualNames (l.map fun x => k.pfx ++ f x) = l.map fun x => virtualName (k.pfx ++ f x) := by
  rw [virtualNames_eq_map, List.map_map]
  · rfl
  · intro e he
    obtain ⟨x, _, rfl⟩ := List.mem_map.mp he
    exact isVirtual_pfx k (f x)

theorem virtualNames_perm {l l' : List Str} (h : l.Perm l') :
    (virtualNames l).Perm (virtualNames l') := (h.filter _).map _

def kinds : List Kind := [.so, .pc, .cmd, .svc, .usvc]

/-- The names in the list for apk: those of the unscanned provides and what every scanner
adds. -/
theorem passed_names {tools : Tools} {pkg : Pkg} {origin : Str} {l : List Str}
    (h : passed tools pkg origin = some l) :
    (virtualNames l).Perm
      (virtualNames (pkg.unscanned origin) ++ kinds.flatMap (pkg.added tools)) := by
  obtain ⟨s, hinvoke, rfl⟩ := Option.map_eq_some_iff.mp h
  obtain ⟨pcs, hpc, hso⟩ := Option.bind_eq_some_iff.mp hinvoke
  obtain ⟨aso, haso, rfl⟩ := Option.map_eq_some_iff.mp hso
  have hsoNames : (virtualNames ((aso.mergeSort fun a b => decide (a.1 ≤ b.1)).map fun x =>
      "so:".toList ++ x.1 ++ '=' :: x.2)).Perm (pkg.added tools .so) := by
    refine (virtualNames_perm ((List.mergeSort_perm aso _).map _)).trans ?_
    have hmap := virtualNames_map_pfx .so (fun x : Str × Str => x.1 ++ '=' :: x.2) aso
    rw [← invokeSo_names haso]
    simp only [← List.append_assoc, Kind.pfx] at hmap ⊢
    rw [hmap]
  have hpcNames : (virtualNames ((sorted pcs).map ("pc:".toList ++ ·))).Perm
      (pkg.added tools .pc) := by
    refine (virtualNames_perm ((sorted_perm pcs).map _)).trans ?_
    have hmap := virtualNames_map_pfx .pc id pcs
    simp only [Kind.pfx, id] at hmap
    rw [hmap]
    exact invokePc_names hpc
  have hcmdNames : (virtualNames ((sorted (invokeCmd pkg)).map ("cmd:".toList ++ ·))).Perm
      (pkg.added tools .cmd) := by
    refine (virtualNames_perm ((sorted_perm _).map _)).trans ?_
    have hmap := virtualNames_map_pfx .cmd id (invokeCmd pkg)
    simp only [Kind.pfx, id] at hmap
    rw [hmap]
    exact invokeCmd_names tools pkg
  have hsvcNames : (virtualNames (invokeSvc pkg)).Perm
      (pkg.added tools .svc ++ pkg.added tools .usvc) := by
    rw [virtualNames_eq_map (isVirtual_invokeSvc pkg)]
    exact invokeSvc_names tools pkg
  refine (virtualNames_perm (sorted_perm _)).trans ?_
  rw [virtualNames_append, virtualNames_append, virtualNames_append, virtualNames_append]
  simp only [kinds, List.flatMap_cons, List.flatMap_nil, List.append_nil]
  rw [List.append_assoc, List.append_assoc, List.append_assoc]
  exact (hsoNames.append (hpcNames.append (hcmdNames.append hsvcNames))).append_left _

theorem mem_of_passed {tools : Tools} {pkg : Pkg} {origin : Str} {l : List Str}
    (h : passed tools pkg origin = some l) {e : Str} (he : e ∈ pkg.unscanned origin) : e ∈ l := by
  obtain ⟨s, _, rfl⟩ := Option.map_eq_some_iff.mp h
  refine (sorted_perm _).mem_iff.mpr ?_
  simp only [List.append_assoc]
  exact List.mem_append_left _ he

/-! ## Every name once -/

/-- Every virtual name is in the list once, and where it is explicit, the entry is the explicit
one. -/
structure ProvidedOnce (pkg : Pkg) (l : List Str) : Prop where
  once : (virtualNames l).Nodup
  explicit : ∀ p ∈ pkg.provides, isVirtual p = true →
    p ∈ l ∧ ∀ e ∈ l, isVirtual e = true → virtualName e = virtualName p → e = p

/-- When that is so. -/
structure Distinct (tools : Tools) (pkg : Pkg) (origin : Str) : Prop where
  /-- What is provided without a scan has no name twice. -/
  unscanned : (virtualNames (pkg.unscanned origin)).Nodup
  /-- Explicit ones apart, no soname is found twice. -/
  sonames : (((pkg.found tools .so).filter fun n => !pkg.known .so n).map cutVersion).Nodup
  /-- Nor is the name of a module. -/
  modules : (((pkg.found tools .pc).filter fun n => !pkg.known .pc n).map cutVersion).Nodup
  /-- What is found under the name of such a provide is known to its scanner. -/
  known : ∀ k, ∀ n ∈ pkg.found tools k, label k n ∈ virtualNames (pkg.unscanned origin) →
    pkg.known k n = true

theorem mem_added {tools : Tools} {pkg : Pkg} {k : Kind} {e : Str} : e ∈ pkg.added tools k ↔
    ∃ n ∈ pkg.found tools k, pkg.known k n = false ∧ label k n = e := by
  simp [Pkg.added, and_assoc]

theorem label_injOn (k : Kind) {l : List Str} :
    (l.map (label k)).Nodup ↔ (l.map cutVersion).Nodup := by
  have hmap : l.map (label k) = (l.map cutVersion).map (k.pfx ++ ·) := by
    rw [List.map_map]
    rfl
  rw [hmap, List.nodup_map_iff (fun a b h => List.append_cancel_left h)]

theorem not_forbidden_eq {n : Str} (h : forbidden n = false) : '=' ∉ n := by
  intro hmem
  have htrue : forbidden n = true := List.any_eq_true.mpr ⟨'=', hmem, by decide⟩
  rw [h] at htrue
  contradiction

/-- Files of one directory have names of their own. -/
theorem added_nodup_of_files {tools : Tools} {pkg : Pkg} {k : Kind}
    (hnodup : (pkg.found tools k).Nodup) (heq : ∀ n ∈ pkg.found tools k, '=' ∉ n) :
    (pkg.added tools k).Nodup := by
  refine (label_injOn k).mpr ?_
  have hcut : ((pkg.found tools k).filter fun n => !pkg.known k n).map cutVersion =
      (pkg.found tools k).filter fun n => !pkg.known k n := by
    refine (List.map_congr_left (fun n hn => ?_)).trans (List.map_id _)
    exact cutVersion_eq_self (heq n (List.mem_of_mem_filter hn))
  rw [hcut]
  exact hnodup.filter _

theorem foundCmds_spec (pkg : Pkg) : pkg.foundCmds.Nodup ∧ ∀ n ∈ pkg.foundCmds, '=' ∉ n := by
  unfold Pkg.foundCmds
  split
  · simp
  · refine ⟨pkg.bin_nodup.filter _, fun n hn => ?_⟩
    have hkept := List.of_mem_filter hn
    rw [Bool.and_eq_true, Bool.not_eq_true', Bool.not_eq_true'] at hkept
    exact not_forbidden_eq hkept.2

theorem services_spec (pkg : Pkg) (dir : List Str) {entries : List (Str × Bool)}
    (h : (entries.map Prod.fst).Nodup) :
    (pkg.services dir entries).Nodup ∧ ∀ n ∈ pkg.services dir entries, '=' ∉ n := by
  unfold Pkg.services
  split
  · simp
  · refine ⟨h.sublist (List.filter_sublist.map _), fun n hn => ?_⟩
    obtain ⟨f, hf, rfl⟩ := List.mem_map.mp hn
    have hkept := List.of_mem_filter hf
    rw [Bool.and_eq_true, Bool.not_eq_true'] at hkept
    exact not_forbidden_eq hkept.2

/-- What a scanner adds has every name once, but for what may be found in two places. -/
theorem added_nodup_iff (tools : Tools) (pkg : Pkg) : (∀ k ∈ kinds, (pkg.added tools k).Nodup) ↔
    (((pkg.found tools .so).filter fun n => !pkg.known .so n).map cutVersion).Nodup ∧
      (((pkg.found tools .pc).filter fun n => !pkg.known .pc n).map cutVersion).Nodup := by
  constructor
  · intro h
    exact ⟨(label_injOn .so).mp (h .so (by decide)), (label_injOn .pc).mp (h .pc (by decide))⟩
  · intro h k _
    cases k with
    | so => exact (label_injOn .so).mpr h.1
    | pc => exact (label_injOn .pc).mpr h.2
    | cmd => exact added_nodup_of_files (foundCmds_spec pkg).1 (foundCmds_spec pkg).2
    | svc =>
        have hspec := services_spec pkg usrLibDinit
          (pkg.dinit_nodup.sublist ((List.filter_sublist (p := fun f =>
            pkg.rpkgname ≠ "dinit-chimera".toList || ".target".toList.isSuffixOf f.1)).map _))
        exact added_nodup_of_files hspec.1 hspec.2
    | usvc =>
        have hspec := services_spec pkg usrLibDinitUser pkg.dinitUser_nodup
        exact added_nodup_of_files hspec.1 hspec.2

theorem nodup_iff (tools : Tools) (pkg : Pkg) (origin : Str) :
    (virtualNames (pkg.unscanned origin) ++ kinds.flatMap (pkg.added tools)).Nodup ↔
      Distinct tools pkg origin := by
  rw [List.nodup_append', List.nodup_flatMap, added_nodup_iff]
  have hkinds : kinds.Pairwise fun k k' => List.Disjoint (pkg.added tools k) (pkg.added tools k') := by
    refine List.Pairwise.imp (fun {k k'} hne => ?_) (show kinds.Pairwise (· ≠ ·) by decide)
    intro e he he'
    obtain ⟨n, _, _, rfl⟩ := mem_added.mp he
    obtain ⟨n', _, _, heq⟩ := mem_added.mp he'
    exact hne ((label_eq_iff k' k n' n).mp heq).1.symm
  constructor
  · intro h
    obtain ⟨hun, ⟨hadded, _⟩, hdisj⟩ := h
    refine ⟨hun, hadded.1, hadded.2, fun k n hn hlabel => ?_⟩
    by_contra hno
    rw [Bool.not_eq_true] at hno
    have hk : k ∈ kinds := by cases k <;> decide
    exact hdisj hlabel (List.mem_flatMap.mpr ⟨k, hk, mem_added.mpr ⟨n, hn, hno, rfl⟩⟩)
  · intro h
    refine ⟨h.unscanned, ⟨⟨h.sonames, h.modules⟩, hkinds⟩, fun e he hadd => ?_⟩
    obtain ⟨k, _, hk⟩ := List.mem_flatMap.mp hadd
    obtain ⟨n, hn, hno, rfl⟩ := mem_added.mp hk
    rw [h.known k n hn he] at hno
    contradiction

/-- With every name once, an explicit entry is the only one of its name. -/
theorem providedOnce_iff_nodup {tools : Tools} {pkg : Pkg} {origin : Str} {l : List Str}
    (h : passed tools pkg origin = some l) : ProvidedOnce pkg l ↔ (virtualNames l).Nodup := by
  refine ⟨fun hp => hp.once, fun hnodup => ⟨hnodup, fun p hp hvirtual => ?_⟩⟩
  have hmem : p ∈ l := mem_of_passed h (List.mem_append_left _ (List.mem_append_right _ hp))
  refine ⟨hmem, fun e he hev heq => ?_⟩
  exact List.inj_on_of_nodup_map hnodup (List.mem_filter.mpr ⟨he, hev⟩)
    (List.mem_filter.mpr ⟨hmem, hvirtual⟩) heq

/-- The list for apk has every virtual name once, the explicit entries coming first, exactly
when the names are distinct to begin with and the scanners know the explicit ones. -/
theorem providedOnce_iff {tools : Tools} {pkg : Pkg} {origin : Str} {l : List Str}
    (h : passed tools pkg origin = some l) :
    ProvidedOnce pkg l ↔ Distinct tools pkg origin := by
  rw [providedOnce_iff_nodup h, (passed_names h).nodup_iff, nodup_iff]

/-! ## Plain names -/

theorem mem_explicit {pfx n : Str} {provides : List Str} :
    n ∈ explicit pfx provides ↔ pfx ++ n ∈ provides := by
  unfold explicit
  rw [List.mem_filterMap]
  constructor
  · intro h
    obtain ⟨p, hp, hpn⟩ := h
    rw [List.isPrefixOf?_eq_some_iff_append_eq.mp hpn]
    exact hp
  · intro h
    exact ⟨_, h, List.isPrefixOf?_eq_some_iff_append_eq.mpr rfl⟩

/-- The explicit entry of a plain name: the name, and a version or nothing. -/
theorem explicit_of_label {k : Kind} {n : Str} {provides : List Str} (heq : '=' ∉ n)
    (h : label k n ∈ virtualNames provides) :
    ∃ m ∈ explicit k.pfx provides, ∃ rest, m = n ++ rest ∧ (rest = [] ∨ rest.head? = some '=') := by
  obtain ⟨p, hp, hname⟩ := List.mem_map.mp h
  rw [label, cutVersion_eq_self heq] at hname
  have hsplit : p = k.pfx ++ n ++ p.dropWhile (· ≠ '=') := by
    rw [← hname]
    exact List.takeWhile_append_dropWhile.symm
  have hhead : p.dropWhile (· ≠ '=') = [] ∨ (p.dropWhile (· ≠ '=')).head? = some '=' := by
    cases hdrop : p.dropWhile (· ≠ '=') with
    | nil => exact .inl rfl
    | cons c s =>
        have hc := List.head?_dropWhile_not (fun c : Char => decide (c ≠ '=')) p
        rw [hdrop] at hc
        simp only [List.head?_cons, decide_eq_false_iff_not, not_not] at hc
        rw [hc]
        exact .inr rfl
  refine ⟨n ++ p.dropWhile (· ≠ '='), mem_explicit.mpr ?_, _, rfl, hhead⟩
  rw [← List.append_assoc, ← hsplit]
  exact (List.mem_filter.mp hp).1

theorem cutVersion_rest {n rest : Str} (heq : '=' ∉ n)
    (hrest : rest = [] ∨ rest.head? = some '=') : cutVersion (n ++ rest) = n := by
  rcases hrest with rfl | hhead
  · rw [List.append_nil, cutVersion_eq_self heq]
  · obtain ⟨s, rfl⟩ := List.head?_eq_some_iff.mp hhead
    rw [cutVersion_append, cutVersion_eq_self heq]

/-- The scanners for libraries, modules and commands know an explicit name. -/
theorem known_of_label {pkg : Pkg} {k : Kind} (hk : k = .so ∨ k = .pc ∨ k = .cmd) {n : Str}
    (hn : n ≠ []) (heq : '=' ∉ n) (h : label k n ∈ virtualNames pkg.provides) :
    pkg.known k n = true := by
  obtain ⟨m, hm, rest, rfl, hrest⟩ := explicit_of_label heq h
  have hcut := cutVersion_rest heq hrest
  have hun : unversioned (n ++ rest) = n := by
    have hhead : (n ++ rest).head? ≠ some '=' := by
      obtain ⟨c, s, rfl⟩ := List.exists_cons_of_ne_nil hn
      intro h
      rw [List.cons_append, List.head?_cons, Option.some.injEq] at h
      exact heq (h ▸ List.mem_cons_self ..)
    rw [unversioned, if_neg hhead, hcut]
  rcases hk with rfl | rfl | rfl
  · exact decide_eq_true (List.mem_map.mpr ⟨_, hm, hcut⟩)
  · exact decide_eq_true (List.mem_map.mpr ⟨_, hm, hcut⟩)
  · exact decide_eq_true (List.mem_map.mpr ⟨_, hm, hun⟩)

/-- The scanner for services knows none, unless a name has a colon of its own. -/
theorem not_known_service {pkg : Pkg} {k : Kind} (hk : k = .svc ∨ k = .usvc)
    (hcolon : ∀ m ∈ pkg.svcset, ':' ∉ m) (n : Str) : pkg.known k n = false := by
  rcases hk with rfl | rfl
  · exact decide_eq_false (fun h => hcolon _ h (by simp))
  · exact decide_eq_false (fun h => hcolon _ h (by simp))

/-- With plain names all is well when no explicit name comes twice, no soname is found twice and
no service is explicit that is found. -/
theorem distinct_iff_of_plain {tools : Tools} {pkg : Pkg} {origin : Str}
    (hrenames : virtualNames (pkg.unscanned origin) = virtualNames pkg.provides)
    (hplain : ∀ k, ∀ n ∈ pkg.found tools k, n ≠ [] ∧ '=' ∉ n)
    (hcolon : ∀ m ∈ pkg.svcset, ':' ∉ m) :
    Distinct tools pkg origin ↔ (virtualNames pkg.provides).Nodup ∧
      ((pkg.found tools .so).filter fun n => !pkg.known .so n).Nodup ∧
      ∀ k, k = .svc ∨ k = .usvc → ∀ n ∈ pkg.found tools k, label k n ∉ virtualNames pkg.provides := by
  have hcut : ∀ k, ((pkg.found tools k).filter fun n => !pkg.known k n).map cutVersion =
      (pkg.found tools k).filter fun n => !pkg.known k n := by
    intro k
    refine (List.map_congr_left (fun n hn => ?_)).trans (List.map_id _)
    exact cutVersion_eq_self (hplain k n (List.mem_of_mem_filter hn)).2
  constructor
  · intro h
    have hsonames := h.sonames
    rw [hcut] at hsonames
    refine ⟨hrenames ▸ h.unscanned, hsonames, fun k hk n hn hlabel => ?_⟩
    have hknown := h.known k n hn (hrenames ▸ hlabel)
    rw [not_known_service hk hcolon] at hknown
    contradiction
  · intro h
    obtain ⟨hexplicit, hsonames, hservices⟩ := h
    refine ⟨hrenames ▸ hexplicit, (hcut .so).symm ▸ hsonames, ?_, fun k n hn hlabel => ?_⟩
    · rw [hcut]
      exact (List.nodup_dedup _).filter _
    · rw [hrenames] at hlabel
      have hname := hplain k n hn
      cases k with
      | so => exact known_of_label (.inl rfl) hname.1 hname.2 hlabel
      | pc => exact known_of_label (.inr (.inl rfl)) hname.1 hname.2 hlabel
      | cmd => exact known_of_label (.inr (.inr rfl)) hname.1 hname.2 hlabel
      | svc => exact absurd hlabel (hservices .svc (.inl rfl) n hn)
      | usvc => exact absurd hlabel (hservices .usvc (.inr rfl) n hn)

/-- No regular expression matters to commands and services, and there are no modules. -/
def noModules : Tools := ⟨Char.isAlphanum, Char.isDigit, fun _ _ => none⟩

/-- A package with a command, a library and a service, explicit entries aside. -/
def plainPkg (provides : List Str) : Pkg where
  pkgname := "foo".toList
  rpkgname := "foo".toList
  pkgver := "1".toList
  pkgrel := "0".toList
  alternative := false
  autopkg := false
  stage := 3
  scancmd := true
  scanpkgconf := true
  scanshlibs := true
  scanservices := true
  provides := provides
  renames := []
  skipProviders := []
  bin := ["foo".toList]
  bin_nodup := List.nodup_singleton _
  pcLib := []
  pcShare := []
  elfs := [⟨usrLib ++ ["libfoo.so.1.2".toList], some "libfoo.so.1".toList, "foo".toList, false⟩]
  dinit := [("foo".toList, true)]
  dinit_nodup := List.nodup_singleton _
  dinitUser := []
  dinitUser_nodup := List.nodup_nil

theorem explicitCmd_providedOnce : ∃ l,
    passed noModules (plainPkg ["cmd:foo=2".toList, "so:libfoo.so.1=0".toList]) "foo".toList = some l ∧
      ProvidedOnce (plainPkg ["cmd:foo=2".toList, "so:libfoo.so.1=0".toList]) l := by
  obtain ⟨l, hl⟩ := Option.isSome_iff_exists.mp (show (passed noModules
    (plainPkg ["cmd:foo=2".toList, "so:libfoo.so.1=0".toList]) "foo".toList).isSome = true by
      decide +kernel)
  refine ⟨l, hl, (providedOnce_iff hl).mpr ⟨by decide +kernel, by decide +kernel,
    by decide +kernel, fun k => ?_⟩⟩
  cases k <;> decide +kernel

/-- The explicit service is kept as `foo` and looked for as `svc:foo`. -/
theorem explicitSvc_not_providedOnce : ¬ ∀ tools pkg origin l,
    passed tools pkg origin = some l → ProvidedOnce pkg l := by
  intro h
  obtain ⟨l, hl⟩ := Option.isSome_iff_exists.mp (show (passed noModules
    (plainPkg ["svc:foo=2".toList]) "foo".toList).isSome = true by decide +kernel)
  have hnodup := (passed_names hl).nodup_iff.mp (h _ _ _ l hl).once
  have hknown := ((nodup_iff _ _ _).mp hnodup).known .svc "foo".toList (by decide +kernel)
    (by decide +kernel)
  exact absurd hknown (by decide +kernel)

end Cbuild.Provides
