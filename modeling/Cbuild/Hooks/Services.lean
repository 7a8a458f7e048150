import Cbuild.Lib.Dict
import Cbuild.Lib.Fnmatch
import Cbuild.Template.Upgrade

/-! # Services a package requires

`_scan_svc` of `001_runtime_deps.py`: the service files of a package are read for the
services they name, system services and user services into one map from names to
kinds, and every name in the map has to be provided by the package, a package of the
same template or an installed one. A name required in both kinds is in the map once.
-/

namespace Cbuild.Services

open Lib
open Upgrade (strip)

inductive Kind
  | svc
  | usvc
  deriving DecidableEq

/-- An entry of a service directory, with the lines of a file. -/
structure Entry where
  name : Str
  isFile : Bool
  lines : List Str
  deriving DecidableEq

/-- A package whose files are in place, and what is looked up outside it. -/
structure Pkg where
  /-- `usr/lib/dinit.d` and `usr/lib/dinit.d/user`. -/
  dinit : List Entry
  dinitUser : List Entry
  /-- The patterns of `skip_dependencies`, part by part. -/
  skipDependencies : List (List Str)
  /-- `pkg_provides_svc`: what exists under a name in the service directory of a kind. -/
  provides : Kind → Str → Bool
  /-- `subpkg_all` of the main package, each with what it provides. -/
  subpkgs : List (Str × (Kind → Str → Bool))
  /-- `cli.get_provider` -/
  getProvider : Str → Option Str

/-! ## Service files -/

/-- `ln.find(c)` -/
def find (c : Char) (ln : Str) : Int :=
  match ln.findIdx? (· = c) with
  | some i => i
  | none => -1

/-- The setting in a stripped line: what stands before the first `:` or `=`, and what behind. -/
def keyVal (ln : Str) : Option (Str × Str) :=
  let eq := find '=' ln
  let cl := find ':' ln
  if 0 < cl ∧ (eq < 0 ∨ cl < eq) then
    some (strip (ln.take cl.toNat), strip (ln.drop (cl.toNat + 1)))
  else if 0 < eq then some (strip (ln.take eq.toNat), strip (ln.drop (eq.toNat + 1)))
  else none

def dependencies : List Str := ["depends-on".toList, "depends-ms".toList, "waits-for".toList]

/-- A service without its argument. -/
def withoutArg (val : Str) : Str :=
  let atsig := find '@' val
  if 0 < atsig then val.take atsig.toNat else val

/-- The service a line names. -/
def serviceOf (ln : Str) : Option Str :=
  if ln.head? = some '#' then none
  else (keyVal (strip ln)).bind fun kv => if kv.1 ∈ dependencies then some (withoutArg kv.2) else none

def Kind.dir : Kind → List Str
  | .svc => ["usr".toList, "lib".toList, "dinit.d".toList]
  | .usvc => ["usr".toList, "lib".toList, "dinit.d".toList, "user".toList]

/-- A file that is read. -/
def Pkg.reads (pkg : Pkg) (k : Kind) (f : Entry) : Bool :=
  f.isFile && !pkg.skipDependencies.any (pathMatch (k.dir ++ [f.name]))

/-- `scan_svc` -/
def scanFile (pkg : Pkg) (k : Kind) (svcreq : Dict Str Kind) (f : Entry) : Dict Str Kind :=
  if pkg.reads k f then (f.lines.filterMap serviceOf).foldl (fun d n => d.set n k) svcreq
  else svcreq

/-- `svcreq` after both directories, which may be listed in any order. -/
def svcreq (pkg : Pkg) (dinit dinitUser : List Entry) : Dict Str Kind :=
  dinitUser.foldl (scanFile pkg .usvc) (dinit.foldl (scanFile pkg .svc) [])

/-! ## Providers -/

def Kind.pfx : Kind → Str
  | .svc => "svc".toList
  | .usvc => "usvc".toList

/-- `f"{pfx}:{sv}"` -/
def label (k : Kind) (sv : Str) : Str := k.pfx ++ ':' :: sv

/-- `subpkg_provides_svc` -/
def Pkg.subpkgProvides (pkg : Pkg) (k : Kind) (sv : Str) : Option Str :=
  (pkg.subpkgs.find? fun sp => sp.2 k sv).map Prod.fst

/-- The provider of a service the package has not got itself. -/
def Pkg.provider (pkg : Pkg) (k : Kind) (sv : Str) : Option Str :=
  (pkg.subpkgProvides k sv).or (pkg.getProvider (label k sv))

/-- What becomes of the services in the map: `svc_requires`, or the service whose provider is
unknown. -/
def resolve (pkg : Pkg) : Dict Str Kind → Except (Kind × Str) (List Str)
  | [] => .ok []
  | (sv, k) :: rest =>
      if pkg.provides k sv then resolve pkg rest
      else
        match pkg.provider k sv with
        | some _ => (resolve pkg rest).map (label k sv :: ·)
        | none => .error (k, sv)

/-- `_scan_svc`, with the directories listed as given. -/
def scanSvc (pkg : Pkg) (dinit dinitUser : List Entry) : Except (Kind × Str) (List Str) :=
  resolve pkg (svcreq pkg dinit dinitUser)

/-! ## What is required -/

/-- The services of a kind that the files of a directory name. -/
def Pkg.named (pkg : Pkg) (k : Kind) (files : List Entry) : List Str :=
  (files.filter (pkg.reads k)).flatMap fun f => f.lines.filterMap serviceOf

/-- A service of a kind is required by a file of the package. -/
def Required (pkg : Pkg) : Kind → Str → Prop
  | .svc, sv => sv ∈ pkg.named .svc pkg.dinit
  | .usvc, sv => sv ∈ pkg.named .usvc pkg.dinitUser

/-- A service is required and nothing is known to provide it. -/
structure Unknown (pkg : Pkg) (k : Kind) (sv : Str) : Prop where
  required : Required pkg k sv
  missing : pkg.provides k sv = false
  unknown : pkg.provider k sv = none

theorem foldl_scanFile (pkg : Pkg) (k : Kind) (files : List Entry) (d : Dict Str Kind) :
    files.foldl (scanFile pkg k) d = (pkg.named k files).foldl (fun d n => d.set n k) d := by
  induction files generalizing d with
  | nil => rfl
  | cons f files ih =>
      rw [List.foldl_cons, ih]
      unfold scanFile Pkg.named
      by_cases hf : pkg.reads k f = true
      · rw [if_pos hf, List.filter_cons_of_pos hf, List.flatMap_cons, List.foldl_append]
      · rw [if_neg hf, List.filter_cons_of_neg hf]

theorem mem_named_perm {pkg : Pkg} {k : Kind} {files files' : List Entry} (h : files.Perm files')
    (sv : Str) : sv ∈ pkg.named k files ↔ sv ∈ pkg.named k files' := by
  unfold Pkg.named
  exact ((h.filter _).flatMap_right _).mem_iff

/-- What the map says of a name: a user service, if any user service requires it. -/
theorem get_svcreq {pkg : Pkg} {dinit dinitUser : List Entry} (hdinit : dinit.Perm pkg.dinit)
    (huser : dinitUser.Perm pkg.dinitUser) (sv : Str) (k : Kind) :
    (svcreq pkg dinit dinitUser).get sv = some k ↔
      Required pkg k sv ∧ (k = .svc → ¬ Required pkg .usvc sv) := by
  have hsvc : sv ∈ pkg.named .svc dinit ↔ Required pkg .svc sv := mem_named_perm hdinit sv
  have husvc : sv ∈ pkg.named .usvc dinitUser ↔ Required pkg .usvc sv := mem_named_perm huser sv
  rw [svcreq, foldl_scanFile, foldl_scanFile, Dict.get_foldl_set, Dict.get_foldl_set,
    Dict.get_nil]
  by_cases hu : sv ∈ pkg.named .usvc dinitUser
  · rw [if_pos hu]
    have hreq := husvc.mp hu
    cases k with
    | svc => simp [hreq]
    | usvc => simp [hreq]
  · rw [if_neg hu]
    have hreq := mt husvc.mpr hu
    by_cases hs : sv ∈ pkg.named .svc dinit
    · rw [if_pos hs]
      have hreqs := hsvc.mp hs
      cases k with
      | svc => simp [hreq, hreqs]
      | usvc => simp [hreq]
    · rw [if_neg hs]
      have hreqs := mt hsvc.mpr hs
      cases k with
      | svc => simp [hreqs]
      | usvc => simp [hreq]

theorem nodup_svcreq (pkg : Pkg) (dinit dinitUser : List Entry) :
    (svcreq pkg dinit dinitUser).keys.Nodup := by
  rw [svcreq, foldl_scanFile, foldl_scanFile]
  exact Dict.nodup_foldl_set _ _ (Dict.nodup_foldl_set _ _ List.nodup_nil)

/-- The map is the same in whatever order the directories are listed. -/
theorem svcreq_perm {pkg : Pkg} {dinit dinitUser : List Entry} (hdinit : dinit.Perm pkg.dinit)
    (huser : dinitUser.Perm pkg.dinitUser) :
    (svcreq pkg dinit dinitUser).Perm (svcreq pkg pkg.dinit pkg.dinitUser) := by
  refine Dict.perm_of_get (nodup_svcreq _ _ _) (nodup_svcreq _ _ _) (fun sv => ?_)
  ext k
  rw [get_svcreq hdinit huser, get_svcreq (List.Perm.refl _) (List.Perm.refl _)]

/-! ## Results -/

/-- What is put into `svc_requires`, if no provider is unknown. -/
def Pkg.resolved (pkg : Pkg) (reqs : Dict Str Kind) : List Str :=
  (reqs.filter fun r => !pkg.provides r.2 r.1).map fun r => label r.2 r.1

/-- The provider of an entry of the map is unknown. -/
def Pkg.unresolved (pkg : Pkg) (r : Str × Kind) : Bool :=
  !pkg.provides r.2 r.1 && (pkg.provider r.2 r.1).isNone

theorem resolve_eq (pkg : Pkg) (reqs : Dict Str Kind) : resolve pkg reqs =
    match reqs.find? pkg.unresolved with
    | some r => .error (r.2, r.1)
    | none => .ok (pkg.resolved reqs) := by
  induction reqs with
  | nil => rfl
  | cons r reqs ih =>
      obtain ⟨sv, k⟩ := r
      rw [resolve, ih]
      cases hp : pkg.provides k sv with
      | true => simp [Pkg.unresolved, Pkg.resolved, hp]
      | false =>
          cases hprov : pkg.provider k sv with
          | none => simp [Pkg.unresolved, hp, hprov]
          | some prov =>
              rw [List.find?_cons_of_neg (by simp [Pkg.unresolved, hprov])]
              cases hfind : reqs.find? pkg.unresolved with
              | none => simp [Pkg.resolved, hp, Except.map]
              | some r => simp [Except.map]

/-- Two results are the same: both fail, or the services are the same ones. -/
def SameResult : Except (Kind × Str) (List Str) → Except (Kind × Str) (List Str) → Prop
  | .ok l, .ok l' => l.Perm l'
  | .error _, .error _ => True
  | _, _ => False

theorem resolve_perm {pkg : Pkg} {reqs reqs' : Dict Str Kind} (h : reqs.Perm reqs') :
    SameResult (resolve pkg reqs) (resolve pkg reqs') := by
  rw [resolve_eq, resolve_eq]
  cases hfind : reqs.find? pkg.unresolved with
  | none =>
      have hfind' : reqs'.find? pkg.unresolved = none := by
        rw [List.find?_eq_none] at hfind ⊢
        exact fun r hr => hfind r (h.mem_iff.mpr hr)
      rw [hfind']
      exact (h.filter _).map _
  | some r =>
      cases hfind' : reqs'.find? pkg.unresolved with
      | none =>
          rw [List.find?_eq_none] at hfind'
          have hr := List.find?_some hfind
          exact absurd hr (hfind' r (h.mem_iff.mp (List.mem_of_find?_eq_some hfind)))
      | some r' => trivial

/-- A scan accounts for every required service: it fails on one that is unknown, or all that the
package has not got itself are in `svc_requires`. -/
def Complete (pkg : Pkg) : Except (Kind × Str) (List Str) → Prop
  | .ok reqs => ∀ k sv, Required pkg k sv → pkg.provides k sv = false → label k sv ∈ reqs
  | .error r => Unknown pkg r.1 r.2

/-- A service that stays in the map. -/
def Kept (pkg : Pkg) (k : Kind) (sv : Str) : Prop :=
  Required pkg k sv ∧ (k = .svc → ¬ Required pkg .usvc sv)

/-- No service is lost in the map: one that stays in it is unknown, or every system service that
is required as a user service, too, is the package's own. -/
def NoneLost (pkg : Pkg) : Prop :=
  (∃ k sv, Kept pkg k sv ∧ Unknown pkg k sv) ∨
    ∀ sv, Required pkg .svc sv → Required pkg .usvc sv → pkg.provides .svc sv = true

theorem mem_svcreq {pkg : Pkg} {dinit dinitUser : List Entry} (hdinit : dinit.Perm pkg.dinit)
    (huser : dinitUser.Perm pkg.dinitUser) (sv : Str) (k : Kind) :
    (sv, k) ∈ svcreq pkg dinit dinitUser ↔ Kept pkg k sv := by
  rw [Kept, ← get_svcreq hdinit huser]
  exact ⟨fun h => Dict.get_of_mem (nodup_svcreq _ _ _) h, Dict.mem_of_get⟩

theorem label_injective {k k' : Kind} {sv sv' : Str} (h : label k sv = label k' sv') :
    k = k' ∧ sv = sv' := by
  cases k <;> cases k' <;> simp_all [label, Kind.pfx]

/-- What is put into `svc_requires`: what stays in the map and is not the package's own. -/
theorem mem_resolved {pkg : Pkg} {reqs : Dict Str Kind} {e : Str} : e ∈ pkg.resolved reqs ↔
    ∃ k sv, e = label k sv ∧ (sv, k) ∈ reqs ∧ pkg.provides k sv = false := by
  unfold Pkg.resolved
  rw [List.mem_map]
  constructor
  · intro h
    obtain ⟨r, hr, rfl⟩ := h
    obtain ⟨hr, hown⟩ := List.mem_filter.mp hr
    rw [Bool.not_eq_true'] at hown
    exact ⟨r.2, r.1, rfl, hr, hown⟩
  · intro h
    obtain ⟨k, sv, rfl, hmem, hown⟩ := h
    exact ⟨(sv, k), List.mem_filter.mpr ⟨hmem, by rw [hown, Bool.not_false]⟩, rfl⟩

/-- A scan that ends well puts what it keeps into `svc_requires`, the package's own services left
out, and every one of these has a provider. -/
theorem scanSvc_eq_ok {pkg : Pkg} {reqs : List Str}
    (h : scanSvc pkg pkg.dinit pkg.dinitUser = .ok reqs) :
    (∀ e, e ∈ reqs ↔ ∃ k sv, e = label k sv ∧ Kept pkg k sv ∧ pkg.provides k sv = false) ∧
      ∀ k sv, Kept pkg k sv → pkg.provides k sv = false → (pkg.provider k sv).isSome = true := by
  have hmap := mem_svcreq (List.Perm.refl pkg.dinit) (List.Perm.refl pkg.dinitUser)
  rw [scanSvc, resolve_eq] at h
  split at h
  · cases h
  · rename_i hfind
    cases h
    constructor
    · intro e
      simp only [mem_resolved, hmap]
    · intro k sv hkept hown
      have hresolved := List.find?_eq_none.mp hfind (sv, k) ((hmap sv k).mpr hkept)
      cases hprov : pkg.provider k sv with
      | some _ => rfl
      | none => exact absurd (by simp [Pkg.unresolved, hown, hprov]) hresolved

theorem complete_iff {pkg : Pkg} {dinit dinitUser : List Entry} (hdinit : dinit.Perm pkg.dinit)
    (huser : dinitUser.Perm pkg.dinitUser) :
    Complete pkg (scanSvc pkg dinit dinitUser) ↔ NoneLost pkg := by
  have hmap := mem_svcreq hdinit huser
  rw [scanSvc, resolve_eq]
  cases hfind : (svcreq pkg dinit dinitUser).find? pkg.unresolved with
  | some r =>
      obtain ⟨sv, k⟩ := r
      have hkept := (hmap sv k).mp (List.mem_of_find?_eq_some hfind)
      have hun := List.find?_some hfind
      simp only [Pkg.unresolved, Bool.and_eq_true, Bool.not_eq_true', Option.isNone_iff_eq_none]
        at hun
      have hunknown : Unknown pkg k sv := ⟨hkept.1, hun.1, hun.2⟩
      exact ⟨fun _ => .inl ⟨k, sv, hkept, hunknown⟩, fun _ => hunknown⟩
  | none =>
      rw [List.find?_eq_none] at hfind
      have hknown : ¬ ∃ k sv, Kept pkg k sv ∧ Unknown pkg k sv := by
        intro h
        obtain ⟨k, sv, hkept, hun⟩ := h
        refine hfind (sv, k) ((hmap sv k).mpr hkept) ?_
        simp [Pkg.unresolved, hun.missing, hun.unknown]
      have hmem : ∀ k sv, label k sv ∈ pkg.resolved (svcreq pkg dinit dinitUser) ↔
          Kept pkg k sv ∧ pkg.provides k sv = false := by
        intro k sv
        rw [mem_resolved]
        constructor
        · intro h
          obtain ⟨k', sv', hlabel, hr, hown⟩ := h
          obtain ⟨rfl, rfl⟩ := label_injective hlabel
          exact ⟨(hmap sv k).mp hr, hown⟩
        · intro h
          exact ⟨k, sv, rfl, (hmap sv k).mpr h.1, h.2⟩
      rw [NoneLost, or_iff_right hknown]
      constructor
      · intro h sv hsvc husvc
        by_contra hown
        rw [Bool.not_eq_true] at hown
        exact ((hmem .svc sv).mp (h .svc sv hsvc hown)).1.2 rfl husvc
      · intro h k sv hreq hown
        refine (hmem k sv).mpr ⟨⟨hreq, fun hk hu => ?_⟩, hown⟩
        subst hk
        rw [h sv hreq hu] at hown
        contradiction

/-- However the directories are listed, a scan accounts for every required service and has the
same result, exactly when no service is lost in the map. -/
theorem scanSvc_iff (pkg : Pkg) :
    (∀ dinit dinitUser, dinit.Perm pkg.dinit → dinitUser.Perm pkg.dinitUser →
      Complete pkg (scanSvc pkg dinit dinitUser) ∧
        SameResult (scanSvc pkg pkg.dinit pkg.dinitUser) (scanSvc pkg dinit dinitUser)) ↔
      NoneLost pkg := by
  constructor
  · intro h
    have hlisted := h pkg.dinit pkg.dinitUser (List.Perm.refl _) (List.Perm.refl _)
    exact (complete_iff (List.Perm.refl _) (List.Perm.refl _)).mp hlisted.1
  · intro h dinit dinitUser hdinit huser
    exact ⟨(complete_iff hdinit huser).mpr h, resolve_perm (svcreq_perm hdinit huser).symm⟩

/-- A system file and a user file both require `dbus`, and `dbus` is installed. -/
def dbusTwice : Pkg where
  dinit := [⟨"foo".toList, true, ["depends-on: dbus".toList]⟩]
  dinitUser := [⟨"foo".toList, true, ["waits-for = dbus".toList]⟩]
  skipDependencies := []
  provides := fun _ sv => sv = "foo".toList
  subpkgs := []
  getProvider := fun _ => some "dbus".toList

/-- Only the requirement of the user file is left. -/
theorem dbusTwice_incomplete : ¬ Complete dbusTwice
    (scanSvc dbusTwice dbusTwice.dinit dbusTwice.dinitUser) := by
  have hscan : scanSvc dbusTwice dbusTwice.dinit dbusTwice.dinitUser =
      .ok ["usvc:dbus".toList] := by decide +kernel
  have hreq : Required dbusTwice .svc "dbus".toList :=
    (by decide +kernel : "dbus".toList ∈ dbusTwice.named .svc dbusTwice.dinit)
  rw [hscan]
  intro h
  have hmem := h .svc "dbus".toList hreq (by decide +kernel)
  exact absurd hmem (by decide +kernel)

end Cbuild.Services
