import Cbuild.Hooks.ProvidesOnce
import Cbuild.Hooks.RuntimeDeps
import Cbuild.Lib.Fueled
import Cbuild.Lib.Rewritten

/-! # The dependencies of a package are enough

Whatever a file of the package needs is met, when the hooks get through: it is in the package, or
the list for apk names what it is in.
-/

namespace Cbuild.RuntimeDeps

open Lib Apk
open Services (Kind Kept Required label)

variable {w : World} {main : Main} {pkg : Pkg} {d d' : Deps}

/-! ## What there is to meet -/

/-- What a file of a package needs. -/
inductive Need
  | lib (soname : Str)
  /-- A line of pkg-config. -/
  | module (ln : Str)
  | service (k : Kind) (sv : Str)
  | link (link : List Str × Target)

def Pkg.Needs (w : World) (main : Main) (pkg : Pkg) : Need → Prop
  | .lib s => ∃ elf ∈ main.elfs, elf.pname = pkg.pkgname ∧ s ∈ elf.needed
  | .module ln => ∃ stem ∈ pkg.pcFiles, ∃ outs, w.printRequires stem = some outs ∧
      ∃ out ∈ outs, tighten w.isspace false [] out = ln
  | .service k sv => Required (pkg.services w main) k sv
  | .link link => link ∈ pkg.links

/-- The hooks scan for this; for a service that files of both the system and a user ask for, only as
one of the user. -/
def Pkg.Scans (w : World) (main : Main) (pkg : Pkg) : Need → Prop
  | .lib s => pkg.autopkg = false ∧ ∃ elf ∈ main.elfs, elf.pname = pkg.pkgname ∧
      pkg.skipped elf.path = false ∧ elf.foreign = false ∧ s ∈ elf.needed
  | .module ln => pkg.autopkg = false ∧ main.buildsPkgconf w pkg = false ∧
      ∃ stem ∈ pkg.pcFiles, ∃ outs, w.printRequires stem = some outs ∧
        ∃ out ∈ outs, tighten w.isspace false [] out = ln
  | .service k sv => Kept (pkg.services w main) k sv
  | .link link => pkg.autopkg = false ∧ link ∈ pkg.links ∧ pkg.skipped link.1 = false

/-- A path is there in a package. -/
def Main.Has (w : World) (main : Main) (pkgname : Str) (path : List Str) : Prop :=
  w.existsLink (main.destdir pkgname ++ path) = .ok true

/-- A name apk takes for nothing but a name. -/
structure Plain (n : Str) : Prop where
  noEq : '=' ∉ n
  noColon : ':' ∉ n
  noBang : '!' ∉ n

/-- The packages of a template. -/
def Main.packages (main : Main) : List Str :=
  main.subpkgAll ++ [main.pkgname] ++ main.elfs.map (·.pname)

/-- The names and the version are ones of apk. -/
structure Main.Named (main : Main) : Prop where
  plain : ∀ p ∈ main.packages, Plain p
  version : '!' ∉ main.version

/-! ## Pins -/

variable {ds : List Str} {c k p : Str}

theorem pin_mem_pinOne : main.pin k ∈ main.pinOne ds k := by
  unfold Main.pinOne
  split
  · exact mem_replace_self ‹_›
  · split
    · assumption
    · exact List.mem_append_right ds (List.mem_singleton.mpr rfl)

theorem mem_pinOne_of_ne (hc : c ∈ ds) (hne : c ≠ k) : c ∈ main.pinOne ds k := by
  unfold Main.pinOne
  split
  · exact mem_replace_of_ne hc hne
  · split
    · exact hc
    · exact List.mem_append_left _ hc

theorem mem_foldl_pinOne {ks : List Str} (hc : c ∈ ds) (hks : c ∉ ks) :
    c ∈ ks.foldl main.pinOne ds := by
  induction ks generalizing ds with
  | nil => exact hc
  | cons k ks ih =>
      obtain ⟨hne, hks⟩ := not_or.mp (List.mem_cons.not.mp hks)
      exact ih (mem_pinOne_of_ne hc hne) hks

theorem pin_notMem {ks : List Str} (hks : ∀ k ∈ ks, Plain k) : main.pin k ∉ ks := by
  intro h
  exact (hks _ h).noEq (List.mem_append_right k List.mem_cons_self)

/-- One pin does not take the place of another. -/
theorem pin_mem_foldl_pinOne {ks : List Str} (hks : ∀ k ∈ ks, Plain k) (hk : k ∈ ks) :
    main.pin k ∈ ks.foldl main.pinOne ds := by
  induction ks generalizing ds with
  | nil => nomatch hk
  | cons k' ks ih =>
      have hplain : ∀ k ∈ ks, Plain k := fun k hk => hks k (List.mem_cons_of_mem k' hk)
      rw [List.foldl_cons]
      rcases List.mem_cons.mp hk with rfl | hk
      · exact mem_foldl_pinOne pin_mem_pinOne (pin_notMem hplain)
      · exact ih hplain hk

theorem pin_mem_pinAll {found : Dict Str Unit} (hks : ∀ k ∈ found.keys, Plain k)
    (hk : k ∈ found.keys) : main.pin k ∈ main.pinAll ds found :=
  pin_mem_foldl_pinOne hks hk

/-! ## Shared libraries -/

theorem mem_verifyDeps {s : Str} : s ∈ (pkg.verifyDeps main).keys ↔
    ∃ elf ∈ pkg.scannedElfs main, s ∈ elf.needed := by
  unfold Pkg.verifyDeps
  rw [Dict.mem_keys_foldl_set, List.mem_flatMap]
  exact or_iff_left List.not_mem_nil

theorem mem_scannedElfs {elf : Elf} : elf ∈ pkg.scannedElfs main ↔ elf ∈ main.elfs ∧
    elf.pname = pkg.pkgname ∧ pkg.skipped elf.path = false ∧ elf.foreign = false := by
  unfold Pkg.scannedElfs
  rw [List.mem_filter, Bool.and_eq_true, Bool.and_eq_true, beq_iff_eq, Bool.not_eq_true',
    Bool.not_eq_true', and_assoc]

/-- The owner of a library is one of the packages that have it. -/
theorem curso_get {s : Str} (h : main.curso.get s = some p) :
    ∃ elf ∈ main.elfs, elf.libName = some s ∧ elf.pname = p := by
  suffices hgen : ∀ (elfs : List Elf) (curso : Dict Str Str),
      (elfs.foldl Elf.record curso).get s = some p →
      (∃ elf ∈ elfs, elf.libName = some s ∧ elf.pname = p) ∨ curso.get s = some p from
    (hgen main.elfs [] h).resolve_right (by simp)
  intro elfs
  induction elfs with
  | nil => exact fun curso h => .inr h
  | cons elf elfs ih =>
      intro curso h
      rcases ih _ h with ⟨elf', hmem, hlib, hp⟩ | hget
      · exact .inl ⟨elf', List.mem_cons_of_mem elf hmem, hlib, hp⟩
      · unfold Elf.record at hget
        split at hget
        · rename_i soname hlib
          rw [Dict.get_set] at hget
          split at hget
          · rename_i heq
            exact .inl ⟨elf, List.mem_cons_self, heq ▸ hlib, Option.some.inj hget⟩
          · exact .inr hget
        · exact .inr hget

/-- What the loop has made of a library. -/
def Settled (w : World) (main : Main) (pkg : Pkg) (s : SoScan) (dep : Str) : Prop :=
  s.broken = true ∨ dep ∈ pkg.ignoreShlibs ∨ main.curso.get dep = some pkg.pkgname ∨
    (∃ p ∈ s.subpkgDeps.keys, main.curso.get dep = some p) ∨
    dep ∈ s.soRequires ∧ w.soProvided pkg dep = true

theorem verifyOne_settles (s : SoScan) (dep : Str) :
    Settled w main pkg (verifyOne w main pkg s dep) dep := by
  unfold verifyOne
  split
  · exact .inr (.inl ‹_›)
  · split
    · rename_i depn hget
      split
      · rename_i heq
        exact .inr (.inr (.inl (heq ▸ hget)))
      · exact .inr (.inr (.inr (.inl ⟨depn, Dict.mem_keys_set.mpr (.inl rfl), hget⟩)))
    · split
      · rename_i hprov
        exact .inr (.inr (.inr (.inr ⟨List.mem_append_right _ (List.mem_singleton.mpr rfl), hprov⟩)))
      · exact .inl rfl

/-- The loop only adds to what it has found. -/
theorem verifyOne_grows (w : World) (main : Main) (pkg : Pkg) (s : SoScan) (dep : Str) :
    (s.broken = true → (verifyOne w main pkg s dep).broken = true) ∧
    (∀ p ∈ s.subpkgDeps.keys, p ∈ (verifyOne w main pkg s dep).subpkgDeps.keys) ∧
    ∀ r ∈ s.soRequires, r ∈ (verifyOne w main pkg s dep).soRequires := by
  unfold verifyOne
  split
  · exact ⟨id, fun p hp => hp, fun r hr => hr⟩
  · split
    · split
      · exact ⟨id, fun p hp => hp, fun r hr => hr⟩
      · exact ⟨id, fun p hp => Dict.mem_keys_set.mpr (.inr hp), fun r hr => hr⟩
    · split
      · exact ⟨id, fun p hp => hp, fun r hr => List.mem_append_left _ hr⟩
      · exact ⟨fun _ => rfl, fun p hp => hp, fun r hr => hr⟩

theorem broken_foldl {deps : List Str} {s : SoScan} (h : s.broken = true) :
    (deps.foldl (verifyOne w main pkg) s).broken = true := by
  induction deps generalizing s with
  | nil => exact h
  | cons dep deps ih => exact ih ((verifyOne_grows w main pkg s dep).1 h)

theorem Settled.verifyOne {s : SoScan} {dep : Str} (h : Settled w main pkg s dep) (dep' : Str) :
    Settled w main pkg (verifyOne w main pkg s dep') dep := by
  obtain ⟨hbroken, hsub, hso⟩ := verifyOne_grows w main pkg s dep'
  rcases h with h | h | h | ⟨p, hp, hget⟩ | ⟨hmem, hprov⟩
  · exact .inl (hbroken h)
  · exact .inr (.inl h)
  · exact .inr (.inr (.inl h))
  · exact .inr (.inr (.inr (.inl ⟨p, hsub p hp, hget⟩)))
  · exact .inr (.inr (.inr (.inr ⟨hso dep hmem, hprov⟩)))

theorem settled_foldl {deps : List Str} {s : SoScan} {dep : Str}
    (h : dep ∈ deps ∨ Settled w main pkg s dep) :
    Settled w main pkg (deps.foldl (verifyOne w main pkg) s) dep := by
  induction deps generalizing s with
  | nil => exact h.resolve_left List.not_mem_nil
  | cons dep' deps ih =>
      apply ih
      rcases h with h | h
      · rcases List.mem_cons.mp h with rfl | h
        · exact .inr (verifyOne_settles s dep)
        · exact .inl h
      · exact .inr (h.verifyOne dep')

/-- Only what is needed is found, and never the package itself. -/
structure SoScan.Earned (w : World) (main : Main) (pkg : Pkg) (s : SoScan) : Prop where
  sub : ∀ p ∈ s.subpkgDeps.keys, p ≠ pkg.pkgname ∧
    ∃ dep ∈ (pkg.verifyDeps main).keys, main.curso.get dep = some p
  so : ∀ r ∈ s.soRequires, r ∈ (pkg.verifyDeps main).keys ∧ w.soProvided pkg r = true

theorem verifyOne_earned {s : SoScan} {dep : Str} (hdep : dep ∈ (pkg.verifyDeps main).keys)
    (h : s.Earned w main pkg) : (verifyOne w main pkg s dep).Earned w main pkg := by
  unfold verifyOne
  split
  · exact h
  · split
    · rename_i depn hget
      split
      · exact h
      · rename_i hne
        refine ⟨fun p hp => ?_, h.so⟩
        rcases Dict.mem_keys_set.mp hp with rfl | hp
        · exact ⟨hne, dep, hdep, hget⟩
        · exact h.sub p hp
    · split
      · rename_i hprov
        refine ⟨h.sub, fun r hr => ?_⟩
        rcases List.mem_append.mp hr with hr | hr
        · exact h.so r hr
        · rw [List.mem_singleton.mp hr]
          exact ⟨hdep, hprov⟩
      · exact ⟨h.sub, h.so⟩

/-- What a scan for libraries that gets through leaves. -/
theorem scanSo_ok (h : scanSo w main pkg d = .ok d') : ∃ s : SoScan, s.Earned w main pkg ∧
    (∀ dep ∈ (pkg.verifyDeps main).keys, Settled w main pkg s dep) ∧ s.broken = false ∧
    (resolveLoop w [] d.depends).2 = false ∧ d' = { d with
      depends := main.pinAll (resolveLoop w [] d.depends).1 s.subpkgDeps
      soRequires := s.soRequires } := by
  dsimp only [scanSo] at h
  split at h
  · cases h
  · rename_i hbroken
    cases h
    refine ⟨_, ?_, fun dep hdep => settled_foldl (.inl hdep), Bool.eq_false_iff.mpr hbroken,
      Bool.eq_false_iff.mpr fun h => hbroken (broken_foldl h), rfl⟩
    refine List.foldlRecOn (motive := SoScan.Earned w main pkg) _ _ ?_
      (fun s hs dep hdep => verifyOne_earned hdep hs)
    exact ⟨fun p hp => absurd hp List.not_mem_nil, fun r hr => absurd hr List.not_mem_nil⟩

/-! ## Modules and services -/

/-- What gets through the loop has a provider, item by item. -/
theorem requireAll_ok {own : Str → Option Str} {virtual : Str → Str}
    {fail : Str → Except Failure (List Str)} (hfail : ∀ k l, fail k ≠ .ok l) {ks l : List Str}
    (h : requireAll w own virtual fail ks = .ok l) :
    l = ks ∧ ∀ k ∈ ks, (∃ sp, own k = some sp) ∨ w.named (virtual k) ≠ [] := by
  induction ks generalizing l with
  | nil =>
      cases h
      exact ⟨rfl, fun k hk => nomatch hk⟩
  | cons k ks ih =>
      unfold requireAll at h
      split at h
      · rename_i prov hprov
        obtain ⟨l', hl', heq⟩ := except_bind_eq_ok.mp h
        cases heq
        obtain ⟨rfl, hall⟩ := ih hl'
        refine ⟨rfl, List.forall_mem_cons.mpr ⟨?_, hall⟩⟩
        cases hown : own k with
        | some sp => exact .inl ⟨sp, rfl⟩
        | none =>
            rw [hown, Option.none_or] at hprov
            right
            intro hnil
            rw [World.getProvider, hnil] at hprov
            nomatch hprov
      · exact absurd h (hfail k l)

/-- The modules found so far, by their lines. -/
def Named (pcreq : Dict Str Str) : Prop := ∀ k pn, pcreq.get k = some pn → pn = pcName k

theorem Named.moduleOf {pcreq : Dict Str Str} (h : Named pcreq) {k : Str} (hk : k ∈ pcreq.keys) :
    moduleOf pcreq k = pcName k := by
  obtain ⟨pn, hpn⟩ := Option.isSome_iff_exists.mp (Dict.get_isSome_iff.mpr hk)
  rw [RuntimeDeps.moduleOf, hpn]
  exact h k pn hpn

theorem scanPcLine_named {pcreq pcreq' : Dict Str Str} {out : Str} (hn : Named pcreq)
    (h : scanPcLine w main pkg pcreq out = .ok pcreq') : Named pcreq' := by
  obtain ⟨_, _, h⟩ := except_bind_eq_ok.mp h
  split at h
  · cases h
    exact hn
  · cases h
    intro k pn hget
    rw [Dict.get_set] at hget
    split at hget
    · rename_i heq
      cases hget
      rw [heq]
    · exact hn k pn hget

/-- A line is in the package or required. -/
def Listed (w : World) (main : Main) (pkg : Pkg) (out : Str) (pcreq : Dict Str Str) : Prop :=
  main.hasPc w pkg.pkgname (pcName (tighten w.isspace false [] out)) = true ∨
    tighten w.isspace false [] out ∈ pcreq.keys

theorem scanPcLine_lists {pcreq pcreq' : Dict Str Str} {out : Str}
    (h : scanPcLine w main pkg pcreq out = .ok pcreq') : Listed w main pkg out pcreq' := by
  obtain ⟨_, _, h⟩ := except_bind_eq_ok.mp h
  split at h
  · cases h
    exact .inl ‹_›
  · cases h
    exact .inr (Dict.mem_keys_set.mpr (.inl rfl))

theorem scanPcLine_grows {pcreq pcreq' : Dict Str Str} {out k : Str} (hk : k ∈ pcreq.keys)
    (h : scanPcLine w main pkg pcreq out = .ok pcreq') : k ∈ pcreq'.keys := by
  obtain ⟨_, _, h⟩ := except_bind_eq_ok.mp h
  split at h
  · cases h
    exact hk
  · cases h
    exact Dict.mem_keys_set.mpr (.inr hk)

theorem scanPcFile_ok {pcreq pcreq' : Dict Str Str} {stem : Str}
    (h : scanPcFile w main pkg pcreq stem = .ok pcreq') :
    ∃ outs, w.printRequires stem = some outs ∧
      outs.foldlM (scanPcLine w main pkg) pcreq = .ok pcreq' := by
  unfold scanPcFile at h
  split at h
  · nomatch h
  · exact ⟨_, ‹_›, h⟩

theorem scanPcFile_grows {pcreq pcreq' : Dict Str Str} {stem k : Str} (hk : k ∈ pcreq.keys)
    (h : scanPcFile w main pkg pcreq stem = .ok pcreq') : k ∈ pcreq'.keys := by
  obtain ⟨outs, _, hloop⟩ := scanPcFile_ok h
  exact foldlM_invariant (I := fun pcreq : Dict Str Str => k ∈ pcreq.keys)
    (fun _ _ _ _ hk h => scanPcLine_grows hk h) hk hloop

theorem scanPcFile_named {pcreq pcreq' : Dict Str Str} {stem : Str} (hn : Named pcreq)
    (h : scanPcFile w main pkg pcreq stem = .ok pcreq') : Named pcreq' := by
  obtain ⟨outs, _, hloop⟩ := scanPcFile_ok h
  exact foldlM_invariant (I := Named) (fun _ _ _ _ hn h => scanPcLine_named hn h) hn hloop

theorem scanPcFile_lists {pcreq pcreq' : Dict Str Str} {stem : Str}
    (h : scanPcFile w main pkg pcreq stem = .ok pcreq') :
    ∀ outs, w.printRequires stem = some outs → ∀ out ∈ outs, Listed w main pkg out pcreq' := by
  obtain ⟨outs', houts', hloop⟩ := scanPcFile_ok h
  intro outs houts
  rw [houts] at houts'
  cases houts'
  exact foldlM_yields (fun _ _ _ h => scanPcLine_lists h)
    (fun _ _ _ _ h hl => hl.imp_right fun hk => scanPcLine_grows hk h) hloop

/-- What a scan for modules that gets through leaves. -/
theorem scanPc_ok (h : scanPc w main pkg d = .ok d') : (∃ reqs, d' = { d with pcRequires := reqs }) ∧
    ∀ ln, pkg.Scans w main (.module ln) →
      main.hasPc w pkg.pkgname (pcName ln) = true ∨ ln ∈ d'.pcRequires ∧
        ((∃ sp ∈ main.subpkgList, main.hasPc w sp (pcName ln) = true) ∨
          w.named ("pc:".toList ++ pcName ln) ≠ []) := by
  unfold scanPc at h
  split at h
  · rename_i hpkgconf
    cases h
    refine ⟨⟨d.pcRequires, rfl⟩, ?_⟩
    rintro ln ⟨_, hno, _⟩
    exact absurd hno (ne_false_of_eq_true hpkgconf)
  · obtain ⟨pcreq, hloop, h⟩ := except_bind_eq_ok.mp h
    obtain ⟨reqs, hreqs, h⟩ := except_bind_eq_ok.mp h
    cases h
    refine ⟨⟨reqs, rfl⟩, ?_⟩
    obtain ⟨rfl, hprov⟩ := requireAll_ok (fun k l h => by cases h) hreqs
    have hnamed : Named pcreq := foldlM_invariant (I := Named)
      (fun _ _ _ _ hn h => scanPcFile_named hn h) (fun k pn hget => absurd hget (by simp)) hloop
    rintro ln ⟨_, _, stem, hstem, outs, houts, out, hout, hln⟩
    subst hln
    have hlisted := foldlM_yields
      (P := fun stem pcreq => ∀ outs, w.printRequires stem = some outs →
        ∀ out ∈ outs, Listed w main pkg out pcreq)
      (fun _ _ _ h => scanPcFile_lists h)
      (fun _ _ _ _ h hl outs houts out hout =>
        (hl outs houts out hout).imp_right fun hk => scanPcFile_grows hk h) hloop
    rcases hlisted stem hstem outs houts out hout with hown | hkey
    · exact .inl hown
    · refine .inr ⟨hkey, ?_⟩
      have hmodule := hnamed.moduleOf hkey
      rcases hprov _ hkey with ⟨sp, hsp⟩ | hname
      · rw [hmodule] at hsp
        exact .inl ⟨sp, List.mem_of_find?_eq_some hsp,
          List.find?_some (p := fun sp => main.hasPc w sp _) hsp⟩
      · rw [hmodule] at hname
        exact .inr hname

/-- A provider of a service is a package of the template or an installed one. -/
theorem Pkg.services_provider {k : Kind} {sv : Str}
    (h : ((pkg.services w main).provider k sv).isSome = true) :
    (∃ sp ∈ main.subpkgAll, main.hasSvc w sp sv k = true) ∨ w.named (label k sv) ≠ [] := by
  rw [Services.Pkg.provider, Option.isSome_or, Bool.or_eq_true] at h
  rcases h with h | h
  · left
    rw [Services.Pkg.subpkgProvides, Option.isSome_map, List.find?_isSome] at h
    obtain ⟨_, hmem, hsvc⟩ := h
    obtain ⟨sp, hsp, rfl⟩ := List.mem_map.mp hmem
    exact ⟨sp, hsp, hsvc⟩
  · right
    intro hnil
    change (w.named (label k sv)).head?.isSome = true at h
    rw [hnil] at h
    cases h

/-- What a scan for services that gets through leaves. -/
theorem scanSvc_ok (h : scanSvc w main pkg d = .ok d') :
    (∃ reqs, d' = { d with svcRequires := reqs }) ∧
    ∀ k sv, pkg.Scans w main (.service k sv) →
      main.hasSvc w pkg.pkgname sv k = true ∨ label k sv ∈ d'.svcRequires ∧
        ((∃ sp ∈ main.subpkgAll, main.hasSvc w sp sv k = true) ∨ w.named (label k sv) ≠ []) := by
  unfold scanSvc at h
  split at h
  · rename_i svcRequires hscan
    cases h
    refine ⟨⟨svcRequires, rfl⟩, fun k sv hkept => ?_⟩
    obtain ⟨hmem, hprov⟩ := Services.scanSvc_eq_ok hscan
    cases hown : main.hasSvc w pkg.pkgname sv k with
    | true => exact .inl rfl
    | false =>
        refine .inr ⟨(hmem _).mpr ⟨k, sv, rfl, hkept, hown⟩, ?_⟩
        exact Pkg.services_provider (hprov k sv hkept hown)
  · cases h

/-! ## Links -/

theorem firstWith_ok {path : List Str} {sps : List Str} (h : main.firstWith w path sps = .ok (some p)) :
    p ∈ sps ∧ main.Has w p path := by
  induction sps with
  | nil => cases h
  | cons sp sps ih =>
      obtain ⟨there, hthere, h⟩ := except_bind_eq_ok.mp h
      split at h
      · rename_i htrue
        cases h
        rw [htrue] at hthere
        exact ⟨List.mem_cons_self, hthere⟩
      · exact (ih h).imp_left (List.mem_cons_of_mem sp)

/-- What the loop makes of a link. -/
def LinkSettled (w : World) (main : Main) (pkg : Pkg) (link : List Str × Target)
    (found : Dict Str Unit) : Prop :=
  pkg.skipped link.1 = true ∨ main.Has w pkg.pkgname (linkDest link) ∨
    (∃ p ∈ found.keys, p ∈ main.subpkgAll ++ [main.pkgname] ∧ p ≠ pkg.pkgname ∧
      main.Has w p (linkDest link)) ∨ pkg.mayBreak link.1 = true

/-- The packages found by links are others of the template. -/
def Others (w : World) (main : Main) (pkg : Pkg) (found : Dict Str Unit) : Prop :=
  ∀ p ∈ found.keys, p ∈ main.subpkgAll ++ [main.pkgname] ∧ p ≠ pkg.pkgname ∧
    ∃ link ∈ pkg.links, pkg.skipped link.1 = false ∧ main.Has w p (linkDest link)

theorem scanLink_ok {found found' : Dict Str Unit} {link : List Str × Target}
    (h : scanLink w main pkg found link = .ok found') : LinkSettled w main pkg link found' ∧
    (found' = found ∨ ∃ p ∈ main.subpkgAll ++ [main.pkgname], p ≠ pkg.pkgname ∧
      pkg.skipped link.1 = false ∧ main.Has w p (linkDest link) ∧ found' = found.set p ()) := by
  unfold scanLink at h
  split at h
  · rename_i hskip
    cases h
    exact ⟨.inl hskip, .inl rfl⟩
  · rename_i hskip
    obtain ⟨there, hthere, h⟩ := except_bind_eq_ok.mp h
    split at h
    · rename_i htrue
      cases h
      rw [htrue] at hthere
      exact ⟨.inr (.inl hthere), .inl rfl⟩
    · rename_i hfalse
      obtain ⟨first, hfirst, h⟩ := except_bind_eq_ok.mp h
      cases first with
      | some p =>
          cases h
          obtain ⟨hp, hhas⟩ := firstWith_ok hfirst
          have hne : p ≠ pkg.pkgname := by
            -- the package itself has just been looked at
            rintro rfl
            rw [Main.Has, hthere, Except.ok.injEq] at hhas
            exact hfalse hhas
          exact ⟨.inr (.inr (.inl ⟨p, Dict.mem_keys_set.mpr (.inl rfl), hp, hne, hhas⟩)),
            .inr ⟨p, hp, hne, Bool.eq_false_iff.mpr hskip, hhas, rfl⟩⟩
      | none =>
          dsimp only at h
          split at h
          · rename_i hmay
            cases h
            exact ⟨.inr (.inr (.inr hmay)), .inl rfl⟩
          · cases h

theorem LinkSettled.grows {found found' : Dict Str Unit} {link link' : List Str × Target}
    (h : LinkSettled w main pkg link found) (hstep : scanLink w main pkg found link' = .ok found') :
    LinkSettled w main pkg link found' := by
  rcases h with h | h | ⟨p, hp, hrest⟩ | h
  · exact .inl h
  · exact .inr (.inl h)
  · refine .inr (.inr (.inl ⟨p, ?_, hrest⟩))
    rcases (scanLink_ok hstep).2 with rfl | ⟨p', _, _, _, _, rfl⟩
    · exact hp
    · exact Dict.mem_keys_set.mpr (.inr hp)
  · exact .inr (.inr (.inr h))

theorem Others.scanLink {found found' : Dict Str Unit} {link : List Str × Target}
    (hlink : link ∈ pkg.links) (h : Others w main pkg found)
    (hstep : scanLink w main pkg found link = .ok found') : Others w main pkg found' := by
  rcases (scanLink_ok hstep).2 with rfl | ⟨p, hp, hne, hskip, hhas, rfl⟩
  · exact h
  · intro p' hp'
    rcases Dict.mem_keys_set.mp hp' with rfl | hp'
    · exact ⟨hp, hne, link, hlink, hskip, hhas⟩
    · exact h p' hp'

/-- What a scan for symlinks that gets through leaves. -/
theorem scanSymlinks_ok (h : scanSymlinks w main pkg d = .ok d') : ∃ found : Dict Str Unit,
    Others w main pkg found ∧ (∀ link ∈ pkg.links, LinkSettled w main pkg link found) ∧
    d' = { d with depends := main.pinAll d.depends found } := by
  obtain ⟨found, hloop, h⟩ := except_bind_eq_ok.mp h
  cases h
  refine ⟨found, ?_, ?_, rfl⟩
  · exact foldlM_invariant (I := Others w main pkg) (fun _ _ _ hl ho h => ho.scanLink hl h)
      (fun p hp => absurd hp List.not_mem_nil) hloop
  · exact foldlM_yields (fun _ _ _ h => (scanLink_ok h).1) (fun _ _ _ _ h hl => hl.grows h) hloop

/-! ## The list for apk -/

theorem mem_newDeps {e : Str} : e ∈ newDeps pkg d ↔
    (("-bootstrap".toList.isSuffixOf pkg.pkgname && !pkg.metaStyle) = true ∧
      e = "bootstrap:cbuild".toList) ∨
    (∃ c ∈ d.depends, forApk c = e) ∨ (∃ s ∈ d.soRequires, "so:".toList ++ s = e) ∨
    (∃ ln ∈ d.pcRequires, "pc:".toList ++ ln = e) ∨ e ∈ d.svcRequires := by
  unfold newDeps
  rw [(Provides.sorted_perm _).mem_iff, List.mem_append, List.mem_append, List.mem_append,
    List.mem_append, (Provides.sorted_perm d.svcRequires).mem_iff, List.mem_map, List.mem_map,
    List.mem_map, or_assoc, or_assoc, or_assoc]
  simp only [(Provides.sorted_perm _).mem_iff]
  apply or_congr_left
  split
  · rename_i h
    rw [and_iff_right h, List.mem_singleton]
  · rename_i h
    exact iff_of_false List.not_mem_nil (fun h' => h h'.1)

theorem cutProvider_of_notMem (h : '!' ∉ c) : cutProvider c = (c, []) := by
  unfold cutProvider
  rw [if_neg]
  intro ⟨_, hlt⟩
  exact h (List.idxOf_lt_length_iff.mp hlt)

/-- A pin is not of a kind that has a prefix. -/
theorem not_prefix_pin (hp : Plain p) (kind : Str) (hkind : ∀ c ∈ kind, c ≠ ':' ∧ c ≠ '=') :
    ¬ kind ++ [':'] <+: main.pin p := by
  have hcut : ∀ (s : Str) (c : Char) (rest : Str), (∀ c ∈ s, c ≠ ':' ∧ c ≠ '=') → c = ':' ∨ c = '=' →
      List.takeWhile (fun c => c ≠ ':' && c ≠ '=') (s ++ c :: rest) = s := by
    intro s c rest hs hc
    rw [List.takeWhile_append_of_pos, List.takeWhile_cons_of_neg, List.append_nil]
    · rcases hc with rfl | rfl <;> decide
    · intro c hc
      rw [Bool.and_eq_true, decide_eq_true_iff, decide_eq_true_iff]
      exact hs c hc
  intro ⟨rest, h⟩
  rw [List.append_assoc, List.singleton_append, Main.pin] at h
  have hname : kind = p := by
    have := congrArg (List.takeWhile (fun c => c ≠ ':' && c ≠ '=')) h
    rwa [hcut kind ':' rest hkind (.inl rfl), hcut p '=' _ (fun c hc =>
      ⟨fun heq => hp.noColon (heq ▸ hc), fun heq => hp.noEq (heq ▸ hc)⟩) (.inr rfl)] at this
  rw [hname] at h
  have hat : ':' = '=' := (List.cons.inj (List.append_cancel_left h)).1
  cases hat

/-- A pin reaches apk as it is. -/
theorem forApk_pin (hnamed : main.Named) (hp : Plain p) : forApk (main.pin p) = main.pin p := by
  have hbang : '!' ∉ main.pin p := by
    intro h
    rcases List.mem_append.mp h with h | h
    · exact hp.noBang h
    · rcases List.mem_cons.mp h with h | h
      · cases h
      · exact hnamed.version h
  unfold forApk removePrefix
  rw [cutProvider_of_notMem hbang, if_neg]
  rw [List.isPrefixOf_iff_prefix]
  exact not_prefix_pin hp ['v', 'i', 'r', 't', 'u', 'a', 'l'] (by simp)

/-! ## The hooks together -/

/-- Nothing of a list of dependencies is lost but the plain one on python, and the other lists
stay as they are. -/
structure Deps.KeptIn (d d' : Deps) : Prop where
  depends : ∀ c ∈ d.depends, c ≠ python → c ∈ d'.depends
  so : d'.soRequires = d.soRequires
  pc : d'.pcRequires = d.pcRequires
  svc : d'.svcRequires = d.svcRequires

theorem Deps.KeptIn.trans {d'' : Deps} (h : d.KeptIn d') (h' : d'.KeptIn d'') : d.KeptIn d'' :=
  ⟨fun c hc hne => h'.depends c (h.depends c hc hne) hne, h'.so.trans h.so, h'.pc.trans h.pc,
    h'.svc.trans h.svc⟩

theorem pyDep_keeps (h : pyDep main pkg d = .ok d') : d.KeptIn d' := by
  unfold pyDep at h
  have hself : d.KeptIn d := ⟨fun c hc _ => hc, rfl, rfl, rfl⟩
  split at h
  · cases h
    exact hself
  · split at h
    · cases h
    · split at h
      · cases h
      · split at h
        · cases h
          exact hself
        · split at h
          · cases h
          · split at h
            · cases h
              exact hself
            · dsimp only at h
              split at h
              · cases h
                exact ⟨fun c hc hne => mem_replace_of_ne hc hne, rfl, rfl, rfl⟩
              · cases h
                exact ⟨fun c hc _ => List.mem_append_left _ hc, rfl, rfl, rfl⟩
        · cases h

theorem develInstallIf_keeps : d.KeptIn (develInstallIf main pkg d) := by
  unfold develInstallIf
  split
  · exact ⟨fun c hc _ => hc, rfl, rfl, rfl⟩
  · dsimp only
    split <;> exact ⟨fun c hc _ => hc, rfl, rfl, rfl⟩

theorem triggerDeps_keeps : d.KeptIn (triggerDeps w main pkg d) := by
  unfold triggerDeps
  split
  · exact ⟨fun c hc _ => hc, rfl, rfl, rfl⟩
  · exact ⟨fun c hc _ => List.mem_append_left _ hc, rfl, rfl, rfl⟩

theorem pin_ne_python : main.pin p ≠ python := by
  intro h
  have hmem : '=' ∈ main.pin p := List.mem_append_right p List.mem_cons_self
  rw [h] at hmem
  revert hmem
  decide

/-- What the scans of a package with files of its own leave. -/
theorem runtimeDeps_ok (hscan : pkg.scanrundeps = true) (hauto : pkg.autopkg = false)
    (h : runtimeDeps w main pkg d = .ok d') : ∃ d₁ d₂ d₃, scanSo w main pkg d = .ok d₁ ∧
      scanPc w main pkg d₁ = .ok d₂ ∧ scanSymlinks w main pkg d₂ = .ok d₃ ∧
      scanSvc w main pkg d₃ = .ok d' := by
  unfold runtimeDeps at h
  rw [hscan, hauto, Bool.not_true, if_neg Bool.false_ne_true, if_neg Bool.false_ne_true] at h
  obtain ⟨d₁, hd₁, h⟩ := except_bind_eq_ok.mp h
  obtain ⟨d₂, hd₂, h⟩ := except_bind_eq_ok.mp h
  obtain ⟨d₃, hd₃, h⟩ := except_bind_eq_ok.mp h
  exact ⟨d₁, d₂, d₃, hd₁, hd₂, hd₃, h⟩

theorem Main.Named.plain_of_elf (h : main.Named) {elf : Elf} (helf : elf ∈ main.elfs) :
    Plain elf.pname :=
  h.plain _ (List.mem_append_right _ (List.mem_map_of_mem helf))

theorem SoScan.Earned.plain {s : SoScan} (h : s.Earned w main pkg) (hnamed : main.Named) :
    ∀ p ∈ s.subpkgDeps.keys, Plain p := by
  intro p hp
  obtain ⟨_, dep, _, hget⟩ := h.sub p hp
  obtain ⟨elf, helf, _, rfl⟩ := curso_get hget
  exact hnamed.plain_of_elf helf

theorem Others.plain {found : Dict Str Unit} (h : Others w main pkg found) (hnamed : main.Named) :
    ∀ p ∈ found.keys, Plain p :=
  fun p hp => hnamed.plain p (List.mem_append_left _ (h p hp).1)

/-- Every pin of the scans is among the dependencies they leave. -/
theorem pin_mem_of_scans (hnamed : main.Named) {s : SoScan} (hs : s.Earned w main pkg)
    {found : Dict Str Unit} (hfound : Others w main pkg found)
    (hp : p ∈ s.subpkgDeps.keys ∨ p ∈ found.keys) :
    main.pin p ∈ main.pinAll (main.pinAll ds s.subpkgDeps) found := by
  rcases hp with hp | hp
  · exact mem_foldl_pinOne (pin_mem_pinAll (hs.plain hnamed) hp) (pin_notMem (hfound.plain hnamed))
  · exact pin_mem_pinAll (hfound.plain hnamed) hp

def fooLib : List Str := ["usr".toList, "lib".toList, "libfoo.so.1".toList]

/-- musl is installed, and there is nothing else in the root but a compression library. -/
def demoRoot : World where
  isspace := fun c => c == ' '
  isdigit := iscdigit
  probe := fun path =>
    if path = "/usr/lib/libz.so".toList then .lib (some "libz.so.1".toList) else .missing
  installed := fun n => if n = "so:libc.so".toList then ["musl".toList] else []
  repository := fun _ => []
  named := fun _ => []
  printRequires := fun _ => none
  lstat := fun path => some (path == "destdir".toList :: "foo".toList :: fooLib)
  pathExists := fun _ _ => false
  isDir := fun _ => false

def demoMain : Main where
  pkgname := "foo".toList
  pkgver := "1.0".toList
  pkgrel := "0".toList
  pythonVersion := "3.13".toList
  destdirBase := ["destdir".toList]
  subpkgList := ["foo-devel".toList]
  subpkgAll := ["foo-devel".toList, "foo".toList]
  elfs := [
    { path := ["usr".toList, "bin".toList, "foo-config".toList], soname := none,
      pname := "foo-devel".toList, foreign := false,
      needed := ["libfoo.so.1".toList, "libc.so".toList] },
    { path := fooLib, soname := some "libfoo.so.1".toList, pname := "foo".toList, foreign := false,
      needed := ["libc.so".toList] }]

def demoPkg : Pkg where
  pkgname := "foo-devel".toList
  autopkg := false
  stage := 3
  metaStyle := false
  scanrundeps := true
  scandevelif := true
  scantrigdeps := true
  brokenlinks := false
  depends := ["foo".toList, "soname:libz.so".toList]
  installIf := []
  ignoreShlibs := []
  skipDependencies := []
  brokenSymlinks := []
  pcLib := []
  pcShare := []
  dinit := []
  dinitUser := []
  links := [(["usr".toList, "lib".toList, "libfoo.so".toList], ⟨false, ["libfoo.so.1".toList]⟩)]
  pycache := false
  bytecode := false
  pythons := []

def demoDeps : Deps where
  depends := ["foo=1.0-r0".toList, "so:libz.so.1".toList]
  installIf := ["foo=1.0-r0".toList, "base-devel".toList]
  soRequires := ["libc.so".toList]
  pcRequires := []
  svcRequires := []

theorem demo_hooks : hooks demoRoot demoMain demoPkg = .ok demoDeps := by decide +kernel

theorem demo_named : demoMain.Named := by
  refine ⟨fun p hp => ?_, by decide⟩
  have hnames : ∀ p ∈ demoMain.packages, '=' ∉ p ∧ ':' ∉ p ∧ '!' ∉ p := by decide
  obtain ⟨heq, hcolon, hbang⟩ := hnames p hp
  exact ⟨heq, hcolon, hbang⟩

end Cbuild.RuntimeDeps
