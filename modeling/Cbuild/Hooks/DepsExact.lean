import Cbuild.Hooks.DepsMet

/-! # The dependencies of a package are no more than it takes

A declared dependency stays, as what it has been resolved to; the rest of the list for apk is
there for something in the package. A development package is installed with the package it has
its libraries from.
-/

namespace Cbuild.RuntimeDeps

open Lib Apk Relation
open Services (Kind label)

variable {w : World} {main : Main} {pkg : Pkg} {d d' : Deps} {c c' e p : Str} {ds : List Str}

/-! ## Resolution -/

/-- A dependency with its library looked up. -/
def resolve (w : World) (dv : Str) : Str :=
  match "soname:".toList.isPrefixOf? dv with
  | none => dv
  | some dsv =>
      match w.probe (parseSoname w.isdigit dsv).1 with
      | .lib soname => "so:".toList ++ pyStr soname ++ (parseSoname w.isdigit dsv).2
      | _ => dv

/-- What is in the cache would be found again. -/
def CacheOk (w : World) (socache : Dict Str (Option Str)) : Prop :=
  ∀ path soname, socache.get path = some soname → w.probe path = .lib soname

/-- The cache changes nothing. -/
theorem resolveLoop_fst {socache : Dict Str (Option Str)} (h : CacheOk w socache) :
    (resolveLoop w socache ds).1 = ds.map (resolve w) := by
  induction ds generalizing socache with
  | nil => rfl
  | cons dv ds ih =>
      rw [List.map_cons]
      cases hdsv : "soname:".toList.isPrefixOf? dv with
      | none => simp only [resolveLoop, resolve, hdsv, ih h]
      | some dsv =>
          cases hget : socache.get (parseSoname w.isdigit dsv).1 with
          | some soname => simp only [resolveLoop, resolve, hdsv, hget, h _ _ hget, ih h]
          | none =>
              cases hprobe : w.probe (parseSoname w.isdigit dsv).1 with
              | missing => simp only [resolveLoop, resolve, hdsv, hget, hprobe, ih h]
              | invalid => simp only [resolveLoop, resolve, hdsv, hget, hprobe, ih h]
              | lib soname =>
                  have hset : CacheOk w (socache.set (parseSoname w.isdigit dsv).1 soname) := by
                    intro path soname' hpath
                    rw [Dict.get_set] at hpath
                    split at hpath
                    · rename_i heq
                      cases hpath
                      rw [← heq, hprobe]
                    · exact h path soname' hpath
                  simp only [resolveLoop, resolve, hdsv, hget, hprobe, ih hset]

theorem not_prefix_so {s : Str} : ¬ "soname:".toList <+: "so:".toList ++ s := by
  intro ⟨rest, h⟩
  cases h

/-- What does not resolve breaks the scan. -/
theorem resolveLoop_snd {socache : Dict Str (Option Str)} (h : (resolveLoop w socache ds).2 = false) :
    ∀ dv ∈ (resolveLoop w socache ds).1, ¬ "soname:".toList <+: dv := by
  induction ds generalizing socache with
  | nil => exact fun dv hdv => absurd hdv List.not_mem_nil
  | cons dv ds ih =>
      cases hdsv : "soname:".toList.isPrefixOf? dv with
      | none =>
          simp only [resolveLoop, hdsv] at h ⊢
          refine List.forall_mem_cons.mpr ⟨?_, ih h⟩
          intro ⟨dsv, heq⟩
          rw [← heq] at hdsv
          cases hdsv
      | some dsv =>
          cases hget : socache.get (parseSoname w.isdigit dsv).1 with
          | some soname =>
              simp only [resolveLoop, hdsv, hget] at h ⊢
              exact List.forall_mem_cons.mpr ⟨not_prefix_so, ih h⟩
          | none =>
              cases hprobe : w.probe (parseSoname w.isdigit dsv).1 with
              | missing => simp only [resolveLoop, hdsv, hget, hprobe, Bool.true_eq_false] at h
              | invalid => simp only [resolveLoop, hdsv, hget, hprobe, Bool.true_eq_false] at h
              | lib soname =>
                  simp only [resolveLoop, hdsv, hget, hprobe] at h ⊢
                  exact List.forall_mem_cons.mpr ⟨not_prefix_so, ih h⟩

/-! ## What is rewritten and what is added -/

/-- What the hooks make of a dependency. -/
inductive Rewrites (w : World) (main : Main) (pkg : Pkg) : Str → Str → Prop
  | resolved {dv : Str} (h : resolve w dv ≠ dv) : Rewrites w main pkg dv (resolve w dv)
  | pinned {p : Str} (hp : p ∈ main.packages) (hne : p ≠ pkg.pkgname) :
      Rewrites w main pkg p (main.pin p)
  | python {pyver : Str} (h : pkg.pythons = [pyver]) : Rewrites w main pkg python (python ++ pyver)

/-- A package that has what a file needs. -/
def Pkg.FoundIn (w : World) (main : Main) (n : Need) (p : Str) : Prop :=
  match n with
  | .lib s => ∃ elf ∈ main.elfs, elf.libName = some s ∧ elf.pname = p
  | .link link => main.Has w p (linkDest link)
  | _ => False

/-- A pin on another package, for something a file needs. -/
def Sibling (w : World) (main : Main) (pkg : Pkg) (e : Str) : Prop :=
  ∃ p ∈ main.packages, p ≠ pkg.pkgname ∧ e = main.pin p ∧
    ∃ n, pkg.Scans w main n ∧ Pkg.FoundIn w main n p

theorem pinAll_rewritten {found : Dict Str Unit}
    (h : ∀ p ∈ found.keys, p ∈ main.packages ∧ p ≠ pkg.pkgname ∧
      ∃ n, pkg.Scans w main n ∧ Pkg.FoundIn w main n p) :
    Rewritten (Rewrites w main pkg) (Sibling w main pkg) ds (main.pinAll ds found) := by
  apply Rewritten.foldl
  intro l p hp
  obtain ⟨hin, hne, hneed⟩ := h p hp
  unfold Main.pinOne
  split
  · exact .replace (.pinned hin hne)
  · split
    · exact .refl l
    · apply Rewritten.append
      intro e he
      rw [List.mem_singleton.mp he]
      exact ⟨p, hin, hne, rfl, hneed⟩

theorem scans_of_mem_verifyDeps (hauto : pkg.autopkg = false) {dep : Str}
    (h : dep ∈ (pkg.verifyDeps main).keys) : pkg.Scans w main (.lib dep) := by
  obtain ⟨elf, helf, hneeded⟩ := mem_verifyDeps.mp h
  obtain ⟨hmem, hown, hskip, hforeign⟩ := mem_scannedElfs.mp helf
  exact ⟨hauto, elf, hmem, hown, hskip, hforeign, hneeded⟩

theorem SoScan.Earned.rewritten {s : SoScan} (hauto : pkg.autopkg = false)
    (h : s.Earned w main pkg) :
    Rewritten (Rewrites w main pkg) (Sibling w main pkg) ds (main.pinAll ds s.subpkgDeps) := by
  apply pinAll_rewritten
  intro p hp
  obtain ⟨hne, dep, hdep, hget⟩ := h.sub p hp
  obtain ⟨elf, helf, hlib, rfl⟩ := curso_get hget
  exact ⟨List.mem_append_right _ (List.mem_map_of_mem helf), hne, .lib dep,
    scans_of_mem_verifyDeps hauto hdep, elf, helf, hlib, rfl⟩

theorem resolveLoop_rewritten : Rewritten (Rewrites w main pkg) (Sibling w main pkg) ds
    (resolveLoop w [] ds).1 := by
  rw [resolveLoop_fst fun path soname hget => absurd hget (by simp)]
  apply Rewritten.map
  intro dv _
  by_cases hsame : resolve w dv = dv
  · rw [hsame]
  · exact .single (.resolved hsame)

theorem scanSymlinks_rewritten (hauto : pkg.autopkg = false) (h : scanSymlinks w main pkg d = .ok d') :
    Rewritten (Rewrites w main pkg) (Sibling w main pkg) d.depends d'.depends := by
  obtain ⟨found, hothers, _, rfl⟩ := scanSymlinks_ok h
  apply pinAll_rewritten
  intro p hp
  obtain ⟨hin, hne, link, hlink, hskip, hhas⟩ := hothers p hp
  exact ⟨List.mem_append_left _ hin, hne, .link link, ⟨hauto, hlink, hskip⟩, hhas⟩

/-- The lines that are required were printed for a file of the package. -/
def Printed (w : World) (pkg : Pkg) (pcreq : Dict Str Str) : Prop :=
  ∀ ln ∈ pcreq.keys, ∃ stem ∈ pkg.pcFiles, ∃ outs, w.printRequires stem = some outs ∧
    ∃ out ∈ outs, tighten w.isspace false [] out = ln

theorem scanPcLine_keys {pcreq pcreq' : Dict Str Str} {out k : Str}
    (h : scanPcLine w main pkg pcreq out = .ok pcreq') (hk : k ∈ pcreq'.keys) :
    k ∈ pcreq.keys ∨ k = tighten w.isspace false [] out := by
  obtain ⟨_, _, h⟩ := except_bind_eq_ok.mp h
  split at h
  · cases h
    exact .inl hk
  · cases h
    exact (Dict.mem_keys_set.mp hk).symm

theorem scanPcFile_printed {pcreq pcreq' : Dict Str Str} {stem : Str} (hstem : stem ∈ pkg.pcFiles)
    (hp : Printed w pkg pcreq) (h : scanPcFile w main pkg pcreq stem = .ok pcreq') :
    Printed w pkg pcreq' := by
  obtain ⟨outs, houts, hloop⟩ := scanPcFile_ok h
  refine foldlM_invariant (I := Printed w pkg) (fun req req' out hout hp h => ?_) hp hloop
  intro ln hln
  rcases scanPcLine_keys h hln with hln | rfl
  · exact hp ln hln
  · exact ⟨stem, hstem, outs, houts, out, hout, rfl⟩

theorem scanPc_scans (hauto : pkg.autopkg = false) (hnone : d.pcRequires = [])
    (h : scanPc w main pkg d = .ok d') : ∀ ln ∈ d'.pcRequires, pkg.Scans w main (.module ln) := by
  unfold scanPc at h
  split at h
  · cases h
    rw [hnone]
    exact fun ln hln => absurd hln List.not_mem_nil
  · rename_i hpkgconf
    obtain ⟨pcreq, hloop, h⟩ := except_bind_eq_ok.mp h
    obtain ⟨reqs, hreqs, h⟩ := except_bind_eq_ok.mp h
    cases h
    obtain ⟨rfl, _⟩ := requireAll_ok (fun k l h => by cases h) hreqs
    have hprinted : Printed w pkg pcreq := foldlM_invariant (I := Printed w pkg)
      (fun _ _ _ hstem hp h => scanPcFile_printed hstem hp h)
      (fun ln hln => absurd hln List.not_mem_nil) hloop
    exact fun ln hln => ⟨hauto, Bool.eq_false_iff.mpr hpkgconf, hprinted ln hln⟩

theorem scanSvc_scans (h : scanSvc w main pkg d = .ok d') :
    ∀ e ∈ d'.svcRequires, ∃ k sv, e = label k sv ∧ pkg.Scans w main (.service k sv) := by
  unfold scanSvc at h
  split at h
  · rename_i hscan
    cases h
    intro e he
    obtain ⟨k, sv, rfl, hkept, _⟩ := ((Services.scanSvc_eq_ok hscan).1 e).mp he
    exact ⟨k, sv, rfl, hkept⟩
  · cases h

/-- What the first hook leaves, the rest of the lists starting out empty. -/
structure Scanned (w : World) (main : Main) (pkg : Pkg) (d : Deps) : Prop where
  depends : Rewritten (Rewrites w main pkg) (Sibling w main pkg) pkg.depends d.depends
  so : ∀ s ∈ d.soRequires, pkg.Scans w main (.lib s)
  pc : ∀ ln ∈ d.pcRequires, pkg.Scans w main (.module ln)
  svc : ∀ e ∈ d.svcRequires, ∃ k sv, e = label k sv ∧ pkg.Scans w main (.service k sv)

theorem runtimeDeps_scanned
    (h : runtimeDeps w main pkg ⟨pkg.depends, pkg.installIf, [], [], []⟩ = .ok d) :
    Scanned w main pkg d := by
  have hnil : ∀ (P : Str → Prop), ∀ s ∈ ([] : List Str), P s := fun P s hs =>
    absurd hs List.not_mem_nil
  cases hscan : pkg.scanrundeps with
  | false =>
      rw [runtimeDeps, hscan, Bool.not_false, if_pos rfl] at h
      cases h
      exact ⟨.refl _, hnil _, hnil _, hnil _⟩
  | true =>
      cases hauto : pkg.autopkg with
      | true =>
          rw [runtimeDeps, hscan, hauto, Bool.not_true, if_neg Bool.false_ne_true, if_pos rfl] at h
          have hscans := scanSvc_scans h
          obtain ⟨⟨svcs, rfl⟩, _⟩ := scanSvc_ok h
          exact ⟨.refl _, hnil _, hnil _, hscans⟩
      | false =>
          obtain ⟨d₁, d₂, d₃, hso, hpc, hlinks, hsvc⟩ := runtimeDeps_ok hscan hauto h
          obtain ⟨s, hearned, _, _, _, rfl⟩ := scanSo_ok hso
          have hpcs := scanPc_scans hauto rfl hpc
          obtain ⟨⟨_, rfl⟩, _⟩ := scanPc_ok hpc
          have hpinned := scanSymlinks_rewritten hauto hlinks
          obtain ⟨_, _, _, rfl⟩ := scanSymlinks_ok hlinks
          have hscans := scanSvc_scans hsvc
          obtain ⟨⟨_, rfl⟩, _⟩ := scanSvc_ok hsvc
          exact ⟨(resolveLoop_rewritten.trans (hearned.rewritten hauto)).trans hpinned,
            fun r hr => scans_of_mem_verifyDeps hauto (hearned.so r hr).1, hpcs, hscans⟩

/-- The package that files of python imply. -/
def pythonMeta (pyver : Str) : Str := "python-python".toList ++ pyver ++ "-meta".toList

theorem pyDep_depends (h : pyDep main pkg d = .ok d') :
    (∀ c ∈ d.depends, ∃ c' ∈ d'.depends, ReflTransGen (Rewrites w main pkg) c c') ∧
    ∀ c' ∈ d'.depends, (∃ c ∈ d.depends, ReflTransGen (Rewrites w main pkg) c c') ∨
      ∃ pyver, pkg.pythons = [pyver] ∧ c' = pythonMeta pyver := by
  have hself : (∀ c ∈ d.depends, ∃ c' ∈ d.depends, ReflTransGen (Rewrites w main pkg) c c') ∧
      ∀ c' ∈ d.depends, (∃ c ∈ d.depends, ReflTransGen (Rewrites w main pkg) c c') ∨
        ∃ pyver, pkg.pythons = [pyver] ∧ c' = pythonMeta pyver :=
    ⟨fun c hc => ⟨c, hc, .refl⟩, fun c hc => .inl ⟨c, hc, .refl⟩⟩
  unfold pyDep at h
  split at h
  · cases h
    exact hself
  · split at h
    · cases h
    · split at h
      · cases h
      · split at h
        · cases h
          exact hself
        · rename_i pyver hpyver
          split at h
          · cases h
          · split at h
            · cases h
              exact hself
            · dsimp only at h
              split at h
              · cases h
                have hreplaced : Rewritten (Rewrites w main pkg) (fun _ => False) d.depends
                    (d.depends.replace python (python ++ pyver)) := .replace (.python hpyver)
                refine ⟨hreplaced.kept, fun c' hc' => .inl ?_⟩
                obtain ⟨c, hc, hcc'⟩ := hreplaced.origin c' hc'
                exact ⟨c, hc.resolve_right not_false, hcc'⟩
              · cases h
                refine ⟨fun c hc => ⟨c, List.mem_append_left _ hc, .refl⟩, fun c' hc' => ?_⟩
                rcases List.mem_append.mp hc' with hc' | hc'
                · exact .inl ⟨c', hc', .refl⟩
                · exact .inr ⟨pyver, hpyver, List.mem_singleton.mp hc'⟩
        · cases h

/-- A directory of the package that a trigger of another watches. -/
def Trigger (w : World) (main : Main) (pkg : Pkg) (e : Str) : Prop :=
  ∃ t ∈ trigdeps, w.isDir (main.destdir pkg.pkgname ++ t.1) = true ∧ t.2 ≠ pkg.pkgname ∧ e = t.2

theorem triggerDeps_depends (hc : c ∈ (triggerDeps w main pkg d).depends) :
    c ∈ d.depends ∨ Trigger w main pkg c := by
  unfold triggerDeps at hc
  split at hc
  · exact .inl hc
  · refine (List.mem_append.mp hc).imp_right fun hc => ?_
    have hfound := (Dict.mem_keys_foldl_set.mp hc).resolve_right List.not_mem_nil
    obtain ⟨t, ht, rfl⟩ := List.mem_map.mp (List.mem_filter.mp hfound).1
    obtain ⟨hmem, hcond⟩ := List.mem_filter.mp ht
    rw [Bool.and_eq_true, bne_iff_ne] at hcond
    exact ⟨t, hmem, hcond.1, hcond.2, rfl⟩

theorem mem_triggerDeps (hc : c ∈ d.depends) : c ∈ (triggerDeps w main pkg d).depends := by
  unfold triggerDeps
  split
  · exact hc
  · exact List.mem_append_left _ hc

theorem develInstallIf_depends : (develInstallIf main pkg d).depends = d.depends := by
  unfold develInstallIf
  split
  · rfl
  · dsimp only
    split <;> rfl

/-- A dependency is not left to be looked up. -/
def Resolved (c : Str) : Prop := ¬ "soname:".toList <+: c

theorem resolve_of_resolved (h : Resolved c) : resolve w c = c := by
  unfold resolve
  split
  · rfl
  · rename_i dsv hdsv
    exact absurd ⟨dsv, List.isPrefixOf?_eq_some_iff_append_eq.mp hdsv⟩ h

theorem resolved_pin (hp : Plain p) : Resolved (main.pin p) :=
  not_prefix_pin hp ['s', 'o', 'n', 'a', 'm', 'e'] (by simp)

theorem Rewrites.keeps_resolved (hnamed : main.Named) (h : Rewrites w main pkg c c')
    (hc : Resolved c) : Resolved c' := by
  cases h with
  | resolved hne => exact absurd (resolve_of_resolved hc) hne
  | pinned hp _ => exact resolved_pin (hnamed.plain c hp)
  | python _ =>
      intro ⟨rest, h⟩
      cases h

theorem Sibling.resolved (hnamed : main.Named) (h : Sibling w main pkg e) : Resolved e := by
  obtain ⟨p, hp, _, rfl, _⟩ := h
  exact resolved_pin (hnamed.plain p hp)

theorem Trigger.resolved (h : Trigger w main pkg e) : Resolved e := by
  obtain ⟨t, ht, _, _, rfl⟩ := h
  have hall : ∀ t ∈ trigdeps, ¬ "soname:".toList.isPrefixOf t.2 = true := by decide
  exact fun hprefix => hall t ht (List.isPrefixOf_iff_prefix.mpr hprefix)

/-- After the first hook all libraries are looked up. -/
theorem runtimeDeps_resolved (hnamed : main.Named) (hscan : pkg.scanrundeps = true)
    (hauto : pkg.autopkg = false) (h : runtimeDeps w main pkg d = .ok d') :
    ∀ c ∈ d'.depends, Resolved c := by
  obtain ⟨d₁, d₂, d₃, hso, hpc, hlinks, hsvc⟩ := runtimeDeps_ok hscan hauto h
  obtain ⟨s, hearned, _, _, hbroken, rfl⟩ := scanSo_ok hso
  obtain ⟨⟨_, rfl⟩, _⟩ := scanPc_ok hpc
  have hlinked := scanSymlinks_rewritten hauto hlinks
  obtain ⟨⟨_, rfl⟩, _⟩ := scanSvc_ok hsvc
  exact ((hearned.rewritten hauto).trans hlinked).forall_mem (fun _ _ h hc => h.keeps_resolved hnamed hc)
    (fun _ h => h.resolved hnamed) (resolveLoop_snd hbroken)

theorem pyDep_resolved (w : World) (hnamed : main.Named) (h : pyDep main pkg d = .ok d')
    (hd : ∀ c ∈ d.depends, Resolved c) : ∀ c ∈ d'.depends, Resolved c := by
  intro c' hc'
  rcases (pyDep_depends (w := w) h).2 c' hc' with ⟨c, hc, hcc'⟩ | ⟨pyver, _, rfl⟩
  · clear hc'
    induction hcc' with
    | refl => exact hd c hc
    | tail _ hstep ih => exact hstep.keeps_resolved hnamed ih
  · intro ⟨rest, h⟩
    cases h

/-- A pin is not rewritten any more. -/
theorem pin_stays (hnamed : main.Named) (hp : p ∈ main.packages)
    (h : ReflTransGen (Rewrites w main pkg) (main.pin p) c) : c = main.pin p := by
  have hstop : ∀ c, ¬ Rewrites w main pkg (main.pin p) c := by
    intro c hstep
    generalize hpin : main.pin p = e at hstep
    cases hstep with
    | resolved hne => exact hne (resolve_of_resolved (hpin ▸ resolved_pin (hnamed.plain p hp)))
    | pinned hp' hne =>
        exact (hnamed.plain _ hp').noEq (hpin ▸ List.mem_append_right p List.mem_cons_self)
    | python h => exact pin_ne_python hpin
  cases h using ReflTransGen.head_induction_on with
  | refl => rfl
  | head hstep _ => exact absurd hstep (hstop _)

/-- Why something is in the list for apk. -/
inductive Explained (w : World) (main : Main) (pkg : Pkg) : Str → Prop
  | declared {c c' : Str} (hc : c ∈ pkg.depends)
      (h : ReflTransGen (Rewrites w main pkg) c c') : Explained w main pkg (forApk c')
  | sibling {e : Str} (h : Sibling w main pkg e) : Explained w main pkg e
  | lib {s : Str} (h : pkg.Scans w main (.lib s)) : Explained w main pkg ("so:".toList ++ s)
  | module {ln : Str} (h : pkg.Scans w main (.module ln)) : Explained w main pkg ("pc:".toList ++ ln)
  | service {k : Kind} {sv : Str} (h : pkg.Scans w main (.service k sv)) :
      Explained w main pkg (label k sv)
  | python {pyver : Str} (h : pkg.pythons = [pyver]) :
      Explained w main pkg (forApk (pythonMeta pyver))
  | trigger {e : Str} (h : Trigger w main pkg e) : Explained w main pkg e
  | bootstrap (h : "-bootstrap".toList <:+ pkg.pkgname ∧ pkg.metaStyle = false) :
      Explained w main pkg "bootstrap:cbuild".toList

/-- Every dependency that is declared is in the list for apk as what it has become, every
entry of the list has its reason in the package, and after a scan none is left to be looked up. -/
theorem hooks_exact (hnamed : main.Named) (hok : hooks w main pkg = .ok d) :
    (∀ c ∈ pkg.depends, ∃ c', ReflTransGen (Rewrites w main pkg) c c' ∧
      forApk c' ∈ newDeps pkg d) ∧
    (∀ e ∈ newDeps pkg d, Explained w main pkg e) ∧
    (pkg.scanrundeps = true → pkg.autopkg = false →
      ∀ c ∈ d.depends, ¬ "soname:".toList <+: c) := by
  obtain ⟨d₁, hd₁, h⟩ := except_bind_eq_ok.mp hok
  obtain ⟨d₂, hd₂, h⟩ := except_bind_eq_ok.mp h
  cases h
  have hscanned := runtimeDeps_scanned hd₁
  have hpy := pyDep_depends (w := w) hd₂
  have hlater : d₁.KeptIn (triggerDeps w main pkg (develInstallIf main pkg d₂)) :=
    (pyDep_keeps hd₂).trans (develInstallIf_keeps.trans triggerDeps_keeps)
  refine ⟨fun c hc => ?_, fun e he => ?_, fun hscan hauto c hc => ?_⟩
  · obtain ⟨c₁, hc₁, hcc₁⟩ := hscanned.depends.kept c hc
    obtain ⟨c₂, hc₂, hcc₂⟩ := hpy.1 c₁ hc₁
    refine ⟨c₂, hcc₁.trans hcc₂, mem_newDeps.mpr (.inr (.inl ⟨c₂, ?_, rfl⟩))⟩
    exact mem_triggerDeps (develInstallIf_depends.symm ▸ hc₂)
  · rcases mem_newDeps.mp he with ⟨hboot, rfl⟩ | ⟨c, hc, rfl⟩ | ⟨s, hs, rfl⟩ | ⟨ln, hln, rfl⟩ | hsvc
    · rw [Bool.and_eq_true, List.isSuffixOf_iff_suffix, Bool.not_eq_true'] at hboot
      exact .bootstrap hboot
    · rcases triggerDeps_depends hc with hc | hc
      · rw [develInstallIf_depends] at hc
        rcases hpy.2 c hc with ⟨c₁, hc₁, hcc⟩ | ⟨pyver, hpyver, rfl⟩
        · obtain ⟨c₀, hc₀ | ⟨p, hp, hne, rfl, hneed⟩, hc₀₁⟩ := hscanned.depends.origin c₁ hc₁
          · exact .declared hc₀ (hc₀₁.trans hcc)
          · rw [pin_stays hnamed hp (hc₀₁.trans hcc), forApk_pin hnamed (hnamed.plain p hp)]
            exact .sibling ⟨p, hp, hne, rfl, hneed⟩
        · exact .python hpyver
      · obtain ⟨t, ht, hdir, hne, rfl⟩ := hc
        have hsame : ∀ t ∈ trigdeps, forApk t.2 = t.2 := by decide
        rw [hsame t ht]
        exact .trigger ⟨t, ht, hdir, hne, rfl⟩
    · rw [hlater.so] at hs
      exact .lib (hscanned.so s hs)
    · rw [hlater.pc] at hln
      exact .module (hscanned.pc ln hln)
    · rw [hlater.svc] at hsvc
      obtain ⟨k, sv, rfl, hneed⟩ := hscanned.svc e hsvc
      exact .service hneed
  · rcases triggerDeps_depends hc with hc | hc
    · rw [develInstallIf_depends] at hc
      exact pyDep_resolved w hnamed hd₂ (runtimeDeps_resolved hnamed hscan hauto hd₁) c hc
    · exact hc.resolved

theorem demo_exact : ∃ c', ReflTransGen (Rewrites demoRoot demoMain demoPkg) "foo".toList c' ∧
    forApk c' ∈ newDeps demoPkg demoDeps :=
  (hooks_exact demo_named demo_hooks).1 "foo".toList (by decide)

/-! ## Development packages -/

/-- A development package whose `install_if` is left to the hook. -/
structure Devel (main : Main) (pkg : Pkg) : Prop where
  sub : main.pkgname ≠ pkg.pkgname
  noAuto : pkg.autopkg = false
  noInstallIf : pkg.installIf = []
  scan : pkg.scandevelif = true
  name : "-devel".toList <:+ pkg.pkgname
  noBase : pkg.pkgname ≠ "base-devel".toList

theorem pyDep_installIf (h : pyDep main pkg d = .ok d') (hd : d.installIf = []) : d'.installIf = [] := by
  unfold pyDep at h
  split at h
  · cases h
    exact hd
  · split at h
    · cases h
    · split at h
      · cases h
      · split at h
        · cases h
          exact hd
        · split at h
          · cases h
          · split at h
            · cases h
              exact hd
            · dsimp only at h
              rw [hd] at h
              split at h <;> cases h <;> rfl
        · cases h

theorem triggerDeps_installIf : (triggerDeps w main pkg d).installIf = d.installIf := by
  unfold triggerDeps
  split <;> rfl

theorem mem_matchdeps : e ∈ main.matchdeps pkg ↔
    ∃ p, (p = main.pkgname ∨ p ∈ main.subpkgList ∧ p ≠ pkg.pkgname) ∧ main.pin p = e := by
  unfold Main.matchdeps
  simp only [List.mem_map, List.mem_cons, List.mem_filter, decide_eq_true_iff]

/-- The hook takes all exact dependencies on packages of the template. -/
theorem develInstallIf_installIf (hdevel : Devel main pkg) (hd : d.installIf = []) :
    (develInstallIf main pkg d).installIf =
      if d.depends.filter (· ∈ main.matchdeps pkg) = [] then []
      else d.depends.filter (· ∈ main.matchdeps pkg) ++ ["base-devel".toList] := by
  have hsuffix : "-devel".toList.isSuffixOf pkg.pkgname = true :=
    List.isSuffixOf_iff_suffix.mpr hdevel.name
  unfold develInstallIf
  rw [if_neg]
  · dsimp only
    split
    · exact hd
    · rfl
  · rw [hdevel.noAuto, hdevel.scan, hsuffix, hd]
    rintro (h | h | h | h | h | h)
    · exact hdevel.sub h
    · cases h
    · exact h rfl
    · cases h
    · cases h
    · exact hdevel.noBase h

/-- A development package that has a link into another package of the template gets installed
along with exactly that one, and with nothing it does not depend on. -/
theorem devel_installed (hnamed : main.Named) (hdevel : Devel main pkg)
    (hscan : pkg.scanrundeps = true) (hok : hooks w main pkg = .ok d) :
    (∀ link ∈ pkg.links, pkg.skipped link.1 = false → pkg.mayBreak link.1 = false →
      ¬ main.Has w pkg.pkgname (linkDest link) →
      ∃ p, p ≠ pkg.pkgname ∧ main.Has w p (linkDest link) ∧ main.pin p ∈ newDeps pkg d ∧
        (p ∈ main.pkgname :: main.subpkgList →
          main.pin p ∈ d.installIf ∧ "base-devel".toList ∈ d.installIf)) ∧
    ∀ e ∈ d.installIf, e = "base-devel".toList ∨ e ∈ d.depends ∧
      ∃ p ∈ main.pkgname :: main.subpkgList, p ≠ pkg.pkgname ∧ e = main.pin p := by
  obtain ⟨d₁, hd₁, h⟩ := except_bind_eq_ok.mp hok
  obtain ⟨d₂, hd₂, h⟩ := except_bind_eq_ok.mp h
  cases h
  obtain ⟨e₁, e₂, e₃, hso, hpc, hlinks, hsvc⟩ := runtimeDeps_ok hscan hdevel.noAuto hd₁
  obtain ⟨s, hearned, _, _, _, rfl⟩ := scanSo_ok hso
  obtain ⟨⟨_, rfl⟩, _⟩ := scanPc_ok hpc
  obtain ⟨found, hothers, hlinked, rfl⟩ := scanSymlinks_ok hlinks
  obtain ⟨⟨_, rfl⟩, _⟩ := scanSvc_ok hsvc
  have hiif := develInstallIf_installIf hdevel (pyDep_installIf hd₂ hdevel.noInstallIf)
  rw [triggerDeps_installIf, hiif]
  constructor
  · intro link hlink hskip hmay hown
    rcases hlinked link hlink with h | h | ⟨p, hp, hin, hne, hhas⟩ | h
    · exact absurd hskip (ne_false_of_eq_true h)
    · exact absurd h hown
    · have hpin : main.pin p ∈ d₂.depends := (pyDep_keeps hd₂).depends _
        (pin_mem_of_scans hnamed hearned hothers (.inr hp)) pin_ne_python
      refine ⟨p, hne, hhas, mem_newDeps.mpr (.inr (.inl ⟨main.pin p, ?_, ?_⟩)), fun hlisted => ?_⟩
      · exact mem_triggerDeps (develInstallIf_depends.symm ▸ hpin)
      · exact forApk_pin hnamed (hothers.plain hnamed p hp)
      · have hmatch : main.pin p ∈ d₂.depends.filter (· ∈ main.matchdeps pkg) := by
          rw [List.mem_filter, decide_eq_true_iff, mem_matchdeps]
          exact ⟨hpin, p, (List.mem_cons.mp hlisted).imp_right fun h => ⟨h, hne⟩, rfl⟩
        rw [if_neg (List.ne_nil_of_mem hmatch)]
        exact ⟨List.mem_append_left _ hmatch,
          List.mem_append_right _ (List.mem_singleton.mpr rfl)⟩
    · exact absurd hmay (ne_false_of_eq_true h)
  · intro e he
    split at he
    · exact absurd he List.not_mem_nil
    · rcases List.mem_append.mp he with he | he
      · obtain ⟨hmem, hmatch⟩ := List.mem_filter.mp he
        obtain ⟨p, hp, rfl⟩ := mem_matchdeps.mp (decide_eq_true_iff.mp hmatch)
        refine .inr ⟨mem_triggerDeps (develInstallIf_depends.symm ▸ hmem), p, ?_, ?_, rfl⟩
        · exact List.mem_cons.mpr (hp.imp_right And.left)
        · rcases hp with rfl | hp
          · exact hdevel.sub
          · exact hp.2
      · exact .inl (List.mem_singleton.mp he)

theorem demo_devel : Devel demoMain demoPkg :=
  ⟨by decide, rfl, rfl, rfl, List.isSuffixOf_iff_suffix.mp (by decide), by decide⟩

theorem demo_installed : ∃ p, p ≠ demoPkg.pkgname ∧ demoMain.Has demoRoot p fooLib ∧
    demoMain.pin p ∈ newDeps demoPkg demoDeps ∧ (p ∈ demoMain.pkgname :: demoMain.subpkgList →
      demoMain.pin p ∈ demoDeps.installIf ∧ "base-devel".toList ∈ demoDeps.installIf) :=
  (devel_installed demo_named demo_devel rfl demo_hooks).1 _ (List.mem_singleton.mpr rfl)
    (by decide) (by decide) (by unfold Main.Has; decide)

end Cbuild.RuntimeDeps
