import Cbuild.Stage.Check

/-! # What unstaging keeps satisfied

The providers of the paired repositories before and after the staged packages
take the place of the regular ones, and what `check_stage` says about the
dependencies of the reverse dependencies it has found.
-/

namespace Cbuild.Stage

open Lib Apk

/-! ## Maps of providers -/

/-- A map holds what was noted last under the name. -/
theorem noteProviders_get (m : Providers) (prs : List Str) (n : Str) :
    (noteProviders m prs).get n =
      ((prs.reverse.find? fun pr => (parseProvider pr).1 = n).map fun pr =>
        (parseProvider pr).2).or (m.get n) := by
  induction prs generalizing m with
  | nil => simp [noteProviders]
  | cons pr prs ih =>
      show (noteProviders (m.set (parseProvider pr).1 (parseProvider pr).2) prs).get n = _
      rw [ih, Dict.get_set, List.reverse_cons, List.find?_append]
      cases prs.reverse.find? fun pr => (parseProvider pr).1 = n with
      | some pr' => rfl
      | none => by_cases hn : (parseProvider pr).1 = n <;> simp [hn]

theorem noteProviders_mem {prs : List Str} {n : Str} {t : Option Str}
    (h : (noteProviders [] prs).get n = some t) : ∃ pr ∈ prs, parseProvider pr = (n, t) := by
  rw [noteProviders_get, Dict.get_nil, Option.or_none, Option.map_eq_some_iff] at h
  obtain ⟨pr, hfind, ht⟩ := h
  have hn : (parseProvider pr).1 = n := by simpa using List.find?_some hfind
  exact ⟨pr, List.mem_reverse.mp (List.mem_of_find?_eq_some hfind), Prod.ext hn ht⟩

/-- A name that is always noted alike is found as such. -/
theorem noteProviders_unique {prs : List Str} {n : Str} {t : Option Str} {pr : Str}
    (hpr : pr ∈ prs) (hn : (parseProvider pr).1 = n)
    (hone : ∀ pr ∈ prs, (parseProvider pr).1 = n → (parseProvider pr).2 = t) :
    (noteProviders [] prs).get n = some t := by
  rw [noteProviders_get, Dict.get_nil, Option.or_none]
  cases hfind : prs.reverse.find? fun pr => (parseProvider pr).1 = n with
  | none =>
      have := List.find?_eq_none.mp hfind pr (List.mem_reverse.mpr hpr)
      simp [hn] at this
  | some pr' =>
      have hn' : (parseProvider pr').1 = n := by simpa using List.find?_some hfind
      rw [Option.map_some, hone pr' (List.mem_reverse.mp (List.mem_of_find?_eq_some hfind)) hn']

theorem noteProviders_append (m : Providers) (prs prs' : List Str) :
    noteProviders m (prs ++ prs') = noteProviders (noteProviders m prs) prs' :=
  List.foldl_append

/-! ## The packages that are compared -/

abbrev Pair : Type := Str × Str

abbrev Package : Type := Str × Dict Str (List Str)

/-- The staged providers of the package differ from the regular ones. -/
def Replaced (pair : Pair) (p : Package) : Prop :=
  (p.2.get pair.1).isSome ∧ p.2.get pair.2 ≠ p.2.get pair.1

instance (pair : Pair) (p : Package) : Decidable (Replaced pair p) :=
  inferInstanceAs (Decidable (_ ∧ _))

def newProviders (pair : Pair) (p : Package) : List Str :=
  if Replaced pair p then (p.2.get pair.1).getD [] else []

def oldProviders (pair : Pair) (p : Package) : List Str :=
  if Replaced pair p then (p.2.get pair.2).getD [] else []

theorem comparePackage_eq (pair : Pair) (s : Sets) (p : Package) :
    (comparePackage pair s p).added = noteProviders s.added (newProviders pair p) ∧
      (comparePackage pair s p).dropped = noteProviders s.dropped (oldProviders pair p) := by
  unfold comparePackage newProviders oldProviders
  by_cases hrep : Replaced pair p
  · rw [if_pos hrep, if_pos hrep]
    obtain ⟨staged, hstaged⟩ := Option.isSome_iff_exists.mp hrep.1
    have hne := hrep.2
    rw [hstaged] at hne ⊢
    dsimp only
    rw [if_neg hne]
    exact ⟨rfl, rfl⟩
  · rw [if_neg hrep, if_neg hrep]
    unfold Replaced at hrep
    cases hstaged : p.2.get pair.1 with
    | none => exact ⟨rfl, rfl⟩
    | some staged =>
        rw [hstaged] at hrep
        simp only [Option.isSome_some, true_and, ne_eq, not_not] at hrep
        dsimp only
        rw [if_pos hrep]
        exact ⟨rfl, rfl⟩

section

variable (srs : List Pair) (provm : ByRepo)

theorem foldl_comparePackage (pair : Pair) (s : Sets) :
    (provm.foldl (comparePackage pair) s).added =
        noteProviders s.added (provm.flatMap (newProviders pair)) ∧
      (provm.foldl (comparePackage pair) s).dropped =
        noteProviders s.dropped (provm.flatMap (oldProviders pair)) := by
  induction provm generalizing s with
  | nil => exact ⟨rfl, rfl⟩
  | cons p provm ih =>
      have hp := comparePackage_eq pair s p
      rw [List.foldl_cons, List.flatMap_cons, List.flatMap_cons, noteProviders_append,
        noteProviders_append, ← hp.1, ← hp.2]
      exact ih _

theorem accumulate_eq :
    (accumulate srs provm).added =
        noteProviders [] (srs.flatMap fun pair => provm.flatMap (newProviders pair)) ∧
      (accumulate srs provm).dropped =
        noteProviders [] (srs.flatMap fun pair => provm.flatMap (oldProviders pair)) := by
  have h : ∀ s : Sets, (srs.foldl (fun s pair => provm.foldl (comparePackage pair) s) s).added =
        noteProviders s.added (srs.flatMap fun pair => provm.flatMap (newProviders pair)) ∧
      (srs.foldl (fun s pair => provm.foldl (comparePackage pair) s) s).dropped =
        noteProviders s.dropped (srs.flatMap fun pair => provm.flatMap (oldProviders pair)) := by
    induction srs with
    | nil => exact fun s => ⟨rfl, rfl⟩
    | cons pair srs ih =>
        intro s
        have hp := foldl_comparePackage provm pair s
        rw [List.foldl_cons, List.flatMap_cons, List.flatMap_cons, noteProviders_append,
          noteProviders_append, ← hp.1, ← hp.2]
        exact ih _
  exact h ⟨[], [], []⟩

/-- The regular packages have a provider of the name, with this version or none. -/
def ProvidedBefore (n : Str) (t : Option Str) : Prop :=
  ∃ pair ∈ srs, ∃ p ∈ provm, ∃ pr ∈ (p.2.get pair.2).getD [], parseProvider pr = (n, t)

/-- So they have with the staged packages in their place. -/
def ProvidedAfter (n : Str) (t : Option Str) : Prop :=
  ∃ pair ∈ srs, ∃ p ∈ provm, ∃ pr ∈ ((p.2.get pair.1).or (p.2.get pair.2)).getD [],
    parseProvider pr = (n, t)

/-- The regular packages that are replaced have such a provider. -/
def ProvidedByReplaced (n : Str) (t : Option Str) : Prop :=
  ∃ pair ∈ srs, ∃ p ∈ provm, ∃ pr ∈ oldProviders pair p, parseProvider pr = (n, t)

variable {srs provm} {n : Str} {t : Option Str}

theorem added_providedAfter (h : (accumulate srs provm).added.get n = some t) :
    ProvidedAfter srs provm n t := by
  rw [(accumulate_eq srs provm).1] at h
  obtain ⟨pr, hpr, hparse⟩ := noteProviders_mem h
  obtain ⟨pair, hpair, hpr⟩ := List.mem_flatMap.mp hpr
  obtain ⟨p, hp, hpr⟩ := List.mem_flatMap.mp hpr
  refine ⟨pair, hpair, p, hp, pr, ?_, hparse⟩
  unfold newProviders at hpr
  split at hpr
  · rename_i hrep
    obtain ⟨staged, hstaged⟩ := Option.isSome_iff_exists.mp hrep.1
    rw [hstaged] at hpr ⊢
    exact hpr
  · exact absurd hpr List.not_mem_nil

/-- A provider is kept, or it is noted as dropped. -/
theorem providedBefore_cases (h : ProvidedBefore srs provm n t)
    (hone : ∀ t t', ProvidedByReplaced srs provm n t → ProvidedByReplaced srs provm n t' → t = t') :
    ProvidedAfter srs provm n t ∨ (accumulate srs provm).dropped.get n = some t := by
  obtain ⟨pair, hpair, p, hp, pr, hpr, hparse⟩ := h
  by_cases hrep : Replaced pair p
  · apply Or.inr
    rw [(accumulate_eq srs provm).2]
    have hold : pr ∈ oldProviders pair p := by
      unfold oldProviders
      rw [if_pos hrep]
      exact hpr
    apply noteProviders_unique
      (List.mem_flatMap.mpr ⟨pair, hpair, List.mem_flatMap.mpr ⟨p, hp, hold⟩⟩)
    · rw [hparse]
    · intro pr' hpr' hn
      obtain ⟨pair', hpair', hpr'⟩ := List.mem_flatMap.mp hpr'
      obtain ⟨p', hp', hpr'⟩ := List.mem_flatMap.mp hpr'
      exact hone _ _ ⟨pair', hpair', p', hp', pr', hpr', Prod.ext hn rfl⟩
        ⟨pair, hpair, p, hp, pr, hold, hparse⟩
  · apply Or.inl
    refine ⟨pair, hpair, p, hp, pr, ?_, hparse⟩
    unfold Replaced at hrep
    cases hs : p.2.get pair.1 with
    | none => exact hpr
    | some staged =>
        rw [hs] at hrep
        simp only [Option.isSome_some, true_and, not_not] at hrep
        rw [hrep] at hpr
        exact hpr

end

/-! ## Common entries -/

/-- What the two maps hold under a name. -/
def entries (s : Providers × Providers) (n : Str) : Option (Option Str) × Option (Option Str) :=
  (s.1.get n, s.2.get n)

def uncommon (e : Option (Option Str) × Option (Option Str)) :
    Option (Option Str) × Option (Option Str) :=
  if e.2 = e.1 then (none, none) else e

theorem uncommon_idem (e : Option (Option Str) × Option (Option Str)) :
    uncommon (uncommon e) = uncommon e := by
  unfold uncommon
  by_cases h : e.2 = e.1 <;> simp [h]

theorem cancelStep_entries (s : Providers × Providers) (pk n : Str) :
    entries (cancelStep s pk) n = if n = pk then uncommon (entries s n) else entries s n := by
  unfold cancelStep entries uncommon
  split
  · rename_i h
    dsimp only
    rw [Dict.get_erase, Dict.get_erase]
    by_cases hn : n = pk
    · subst hn
      simp [h.2]
    · simp [hn, Ne.symm hn]
  · rename_i h
    dsimp only
    by_cases hn : n = pk
    · subst hn
      rw [if_pos rfl]
      by_cases heq : s.2.get n = s.1.get n
      · rw [if_pos heq]
        cases h2 : s.2.get n with
        | none => rw [← heq, h2]
        | some t => exact absurd ⟨by rw [h2]; rfl, heq⟩ h
      · rw [if_neg heq]
    · rw [if_neg hn]

theorem foldl_cancelStep_entries (ks : List Str) (s : Providers × Providers) (n : Str) :
    entries (ks.foldl cancelStep s) n = if n ∈ ks then uncommon (entries s n) else entries s n := by
  induction ks generalizing s with
  | nil => simp
  | cons k ks ih =>
      rw [List.foldl_cons, ih, cancelStep_entries]
      by_cases hn : n = k <;> by_cases hmem : n ∈ ks <;> simp [hn, hmem, uncommon_idem]

theorem cancel_entries (added dropped : Providers) (n : Str) :
    entries (cancel added dropped) n = uncommon (entries (added, dropped) n) := by
  unfold cancel
  rw [foldl_cancelStep_entries]
  split
  · rfl
  · rename_i hmem
    have hnone := Dict.get_eq_none_iff.mpr hmem
    unfold uncommon entries
    dsimp only
    rw [hnone]
    cases dropped.get n <;> rfl

/-- What is dropped under a name is also added, or it stands in both maps as before. -/
theorem cancel_cases {added dropped : Providers} {n : Str} {t : Option Str}
    (h : dropped.get n = some t) :
    added.get n = some t ∨ ((cancel added dropped).2.get n = some t ∧
      (cancel added dropped).1.get n = added.get n) := by
  have he := cancel_entries added dropped n
  unfold entries uncommon at he
  dsimp only at he
  split at he
  · rename_i heq
    exact Or.inl (heq ▸ h)
  · rw [Prod.mk.injEq] at he
    exact Or.inr ⟨he.2.trans h, he.1⟩

/-! ## Findings -/

section

variable {added dropped : Providers} {c c' : Dict Str (List Str)}

/-- Every dependency has been evaluated, and those to be checked further are in the map. -/
def Evaluated (added dropped : Providers) (c : Dict Str (List Str)) (ad : Str) : Prop :=
  ∃ b, checkDep dropped added ad = some b ∧ (b = true → (c.get (parseDep ad).1).isSome)

theorem record_isSome (c : Dict Str (List Str)) (ad d k : Str) :
    ((record c ad d).get k).isSome = (decide (ad = k) || (c.get k).isSome) := by
  unfold record
  rw [Dict.get_set]
  by_cases h : ad = k <;> simp [h]

theorem checkDeps_spec {d : Str} {deps : List Str} (h : checkDeps added dropped d c deps = some c') :
    (∀ k, (c.get k).isSome → (c'.get k).isSome) ∧ ∀ ad ∈ deps, Evaluated added dropped c' ad := by
  induction deps generalizing c with
  | nil =>
      cases h
      exact ⟨fun _ hk => hk, fun _ hmem => absurd hmem List.not_mem_nil⟩
  | cons ad deps ih =>
      unfold checkDeps at h
      split at h
      · cases h
      · rename_i hb
        obtain ⟨hmono, hdeps⟩ := ih h
        refine ⟨fun k hk => hmono k (by simp [record_isSome, hk]), List.forall_mem_cons.mpr ⟨?_, hdeps⟩⟩
        exact ⟨true, hb, fun _ => hmono _ (by simp [record_isSome])⟩
      · rename_i hb
        obtain ⟨hmono, hdeps⟩ := ih h
        exact ⟨hmono, List.forall_mem_cons.mpr ⟨⟨false, hb, fun h => absurd h Bool.false_ne_true⟩, hdeps⟩⟩

theorem checkRevdeps_spec {depends : Str → Option (List Str)} {revs : List Str}
    (h : checkRevdeps added dropped depends c revs = some c') :
    (∀ k, (c.get k).isSome → (c'.get k).isSome) ∧ ∀ d ∈ revs, ∀ deps, depends d = some deps →
      ∀ ad ∈ deps, Evaluated added dropped c' ad := by
  induction revs generalizing c with
  | nil =>
      cases h
      exact ⟨fun _ hk => hk, fun _ hmem => absurd hmem List.not_mem_nil⟩
  | cons d revs ih =>
      unfold checkRevdeps at h
      split at h
      · cases h
      rename_i deps hdeps
      split at h
      · cases h
      rename_i c₁ hc₁
      obtain ⟨hmono₁, heval₁⟩ := checkDeps_spec hc₁
      obtain ⟨hmono, heval⟩ := ih h
      refine ⟨fun k hk => hmono k (hmono₁ k hk), List.forall_mem_cons.mpr ⟨?_, heval⟩⟩
      intro deps' hdeps' ad had
      rw [hdeps] at hdeps'
      cases hdeps'
      obtain ⟨b, hb, hkey⟩ := heval₁ ad had
      exact ⟨b, hb, fun ht => hmono _ (hkey ht)⟩

/-- A finding that does not remain has a provider that was not replaced. -/
theorem narrow_nil {q : ApkAnswers} {replaced : List Str} (h : narrow q replaced c = []) {k : Str}
    (hk : (c.get k).isSome) : ∃ pd ∈ q.search k, pd ∉ replaced := by
  rw [Dict.get_isSome_iff] at hk
  obtain ⟨e, he, rfl⟩ := List.mem_map.mp hk
  by_contra hall
  have hmem : e ∈ narrow q replaced c := by
    apply List.mem_filter.mpr ⟨he, _⟩
    rw [List.all_eq_true]
    intro pd hpd
    rw [List.contains_iff_mem]
    by_contra hnot
    exact hall ⟨pd, hpd, hnot⟩
  rw [h] at hmem
  nomatch hmem

end

/-- A provider of the name, by the text of its version. -/
def SatisfiedBy (n : Name) (d : Option (Op × Version)) (t : Option Str) : Prop :=
  match d with
  | none => True
  | some (op, v) => ∃ s, t = some s ∧ pkgMatch n.text s (n.constrained op v) = some true

/-- A dependency that the dropped provider satisfied and that is not recorded has an added
provider that satisfies it, or that stands at the bound of `<`. -/
theorem checkDep_false {added dropped : Providers} {n : Name} {d : Option (Op × Version)}
    {t : Option Str} (hop : ∀ v, d ≠ some (.fuzzy, v)) (hd : dropped.get n.text = some t)
    (hsat : SatisfiedBy n d t) (h : checkDep dropped added (depText n d) = some false) :
    ∃ t', added.get n.text = some t' ∧ (SatisfiedBy n d t' ∨
      ∃ v w : Version, d = some (.lt, v) ∧ t' = some w.text ∧ w.cmp v = .eq) := by
  cases d with
  | none =>
      unfold checkDep depText at h
      rw [parseDep_name] at h
      dsimp only at h
      rw [hd] at h
      cases ha : added.get n.text with
      | none =>
          rw [ha] at h
          nomatch h
      | some t' => exact ⟨t', rfl, Or.inl trivial⟩
  | some c =>
      obtain ⟨op, v⟩ := c
      have hop' : op ≠ .fuzzy := fun he => hop v (by rw [he])
      obtain ⟨s, rfl, hmatch⟩ := hsat
      obtain ⟨w, rfl, hw⟩ := (pkgMatch_iff n op v s).mp hmatch
      obtain ⟨b, hb, hpass⟩ := droppedMatch_some v w hop'
      unfold checkDep depText at h
      dsimp only at h
      rw [parseDep_constrained n hop' v] at h
      dsimp only at h
      rw [hd] at h
      dsimp only at h
      rw [hb, hpass.mpr (Or.inl hw)] at h
      obtain ⟨b', hb', hfalse⟩ := Option.map_eq_some_iff.mp h
      have htrue : b' = true := by simpa using hfalse
      subst htrue
      cases ha : added.get n.text with
      | none =>
          rw [ha] at hb'
          nomatch hb'
      | some t' =>
          rw [ha] at hb'
          cases t' with
          | none => nomatch hb'
          | some s' =>
              cases hvalid : versionValidate s' with
              | false =>
                  have hnone : versionCompare v.text s' = none := by
                    unfold versionCompare
                    rw [hvalid, Bool.and_false]
                    rfl
                  unfold addedMatch at hb'
                  dsimp only at hb'
                  rw [hnone] at hb'
                  nomatch hb'
              | true =>
                  let w' : Version := ⟨s', hvalid⟩
                  obtain ⟨b', hb₂, hpass'⟩ := addedMatch_some v w' hop'
                  rw [show addedMatch op.text v.text (some (some s')) = some b' from hb₂] at hb'
                  refine ⟨_, rfl, ?_⟩
                  rcases hpass'.mp (Option.some.inj hb') with hmeets | hbound
                  · exact Or.inl ⟨s', rfl, (pkgMatch_iff n op v s').mpr ⟨w', rfl, hmeets⟩⟩
                  · obtain ⟨rfl, hcmp⟩ := hbound
                    exact Or.inr ⟨v, w', rfl, rfl, hcmp⟩

/-! ## Unstaging -/

/-- `check_stage` lets the repositories go; a reverse dependency it has found then keeps each
dependency that was satisfied, or the name has a provider that was not replaced. -/
def KeepsDependencies (r : Repos) (q : ApkAnswers) : Prop :=
  ∀ rev ∈ revdeps q (r.changes q).2, ∀ deps, r.dependsOf q rev = some deps →
    ∀ (n : Name) (d : Option (Op × Version)), depText n d ∈ deps → (∀ v, d ≠ some (.fuzzy, v)) →
    ∀ t, ProvidedBefore r.srs (r.provm q) n.text t → SatisfiedBy n d t →
    -- the regular packages that are replaced have one version of the name
    (∀ t₁ t₂, ProvidedByReplaced r.srs (r.provm q) n.text t₁ →
      ProvidedByReplaced r.srs (r.provm q) n.text t₂ → t₁ = t₂) →
    -- no staged package has the version that `<` ends at
    (∀ v w : Version, d = some (.lt, v) → ProvidedAfter r.srs (r.provm q) n.text (some w.text) →
      w.cmp v ≠ .eq) →
    (∃ t', ProvidedAfter r.srs (r.provm q) n.text t' ∧ SatisfiedBy n d t') ∨
      ∃ pd ∈ q.search n.text, pd ∉ (r.sets q).replaced

/-- The answers have every reverse dependency, with dependencies that are well formed. -/
def Answered (r : Repos) (q : ApkAnswers) : Prop :=
  ∀ rev ∈ revdeps q (r.changes q).2, ∃ deps, r.dependsOf q rev = some deps ∧
    ∀ ad ∈ deps, ∃ (n : Name) (d : Option (Op × Version)), ad = depText n d

/-- Versions are valid, and a name that was provided has one in every staged provider. -/
def VersionedAfter (r : Repos) (q : ApkAnswers) : Prop :=
  (∀ n t, ProvidedBefore r.srs (r.provm q) n (some t) → versionValidate t = true) ∧
    ∀ n t, (∃ t, ProvidedBefore r.srs (r.provm q) n t) → ProvidedAfter r.srs (r.provm q) n t →
      ∃ v : Version, t = some v.text

theorem keepsDependencies {r : Repos} {q : ApkAnswers} {l : List Str}
    (h : checkStage r q false = some (some l)) : KeepsDependencies r q := by
  intro rev hrev deps hdeps n d hd hop t hbefore hsat hone hbound
  unfold checkStage at h
  rw [if_neg Bool.false_ne_true] at h
  split at h
  · nomatch h
  rename_i c hc
  split at h
  swap
  · nomatch h
  rename_i hnarrow
  rcases providedBefore_cases hbefore hone with hafter | hdropped
  · exact Or.inl ⟨t, hafter, hsat⟩
  rcases cancel_cases hdropped with hadded | ⟨hdrop, hadd⟩
  · exact Or.inl ⟨t, added_providedAfter hadded, hsat⟩
  obtain ⟨b, hb, hkey⟩ := (checkRevdeps_spec hc).2 rev hrev deps hdeps _ hd
  cases b with
  | false =>
      obtain ⟨t', ht', hsat'⟩ := checkDep_false hop hdrop hsat hb
      have hafter := added_providedAfter (hadd.symm.trans ht')
      rcases hsat' with hsat' | ⟨v, w, hlt, rfl, hcmp⟩
      · exact Or.inl ⟨t', hafter, hsat'⟩
      · exact absurd hcmp (hbound v w hlt hafter)
  | true =>
      have hname : (parseDep (depText n d)).1 = n.text := by
        cases d with
        | none =>
            show (parseDep n.text).1 = n.text
            rw [parseDep_name]
        | some c =>
            obtain ⟨op, v⟩ := c
            show (parseDep (n.constrained op v)).1 = n.text
            rw [parseDep_constrained n (fun he => hop v (by rw [he])) v]
      have hk := hkey rfl
      rw [hname] at hk
      exact Or.inr (narrow_nil hnarrow hk)

/-! ### The check does not raise -/

theorem addedMatch_isSome {op : Op} (hop : op ≠ .fuzzy) (v : Version) {nt : Option (Option Str)}
    (ha : ∀ t, nt = some t → ∃ w : Version, t = some w.text) :
    ((addedMatch op.text v.text nt).map (!·)).isSome := by
  rw [Option.isSome_map]
  cases nt with
  | none => rfl
  | some t =>
      obtain ⟨w, rfl⟩ := ha t rfl
      obtain ⟨b, hb, -⟩ := addedMatch_some v w hop
      rw [hb]
      rfl

theorem checkDep_isSome {dropped added : Providers} (n : Name) (d : Option (Op × Version))
    (hd : ∀ t, dropped.get n.text = some (some t) → versionValidate t = true)
    (ha : ∀ t, (dropped.get n.text).isSome → added.get n.text = some t →
      ∃ v : Version, t = some v.text) :
    (checkDep dropped added (depText n d)).isSome := by
  have hname : ∀ ad s, parseDep ad = (s, none) → (checkDep dropped added ad).isSome := by
    intro ad s had
    unfold checkDep
    rw [had]
    dsimp only
    cases dropped.get s <;> rfl
  cases d with
  | none => exact hname _ _ (parseDep_name n)
  | some c =>
      obtain ⟨op, v⟩ := c
      by_cases hop : op = .fuzzy
      · subst hop
        exact hname _ _ (parseDep_fuzzy n v)
      unfold checkDep depText
      dsimp only
      rw [parseDep_constrained n hop v]
      dsimp only
      cases hdrop : dropped.get n.text with
      | none => rfl
      | some dt =>
          have hadded := addedMatch_isSome hop v fun t => ha t (by rw [hdrop]; rfl)
          cases dt with
          | none => exact hadded
          | some s =>
              let w : Version := ⟨s, hd s hdrop⟩
              obtain ⟨b, hb, -⟩ := droppedMatch_some v w hop
              dsimp only
              rw [show droppedMatch op.text v.text (some s) = some b from hb]
              cases b with
              | false => rfl
              | true => exact hadded

theorem checkDeps_isSome {added dropped : Providers} {d : Str} {deps : List Str}
    (h : ∀ ad ∈ deps, (checkDep dropped added ad).isSome) (c : Dict Str (List Str)) :
    (checkDeps added dropped d c deps).isSome := by
  induction deps generalizing c with
  | nil => rfl
  | cons ad deps ih =>
      rw [List.forall_mem_cons] at h
      obtain ⟨b, hb⟩ := Option.isSome_iff_exists.mp h.1
      unfold checkDeps
      rw [hb]
      cases b with
      | true => exact ih h.2 _
      | false => exact ih h.2 _

theorem checkRevdeps_isSome {added dropped : Providers} {depends : Str → Option (List Str)}
    {revs : List Str}
    (h : ∀ d ∈ revs, ∃ deps, depends d = some deps ∧
      ∀ ad ∈ deps, (checkDep dropped added ad).isSome) (c : Dict Str (List Str)) :
    (checkRevdeps added dropped depends c revs).isSome := by
  induction revs generalizing c with
  | nil => rfl
  | cons d revs ih =>
      rw [List.forall_mem_cons] at h
      obtain ⟨deps, hdeps, hall⟩ := h.1
      obtain ⟨c', hc'⟩ := Option.isSome_iff_exists.mp (checkDeps_isSome (d := d) hall c)
      unfold checkRevdeps
      rw [hdeps]
      dsimp only
      rw [hc']
      exact ih h.2 c'

/-- What is held after the cancellation was held before it. -/
theorem cancel_get {added dropped : Providers} {n : Str} {t : Option Str} :
    ((cancel added dropped).1.get n = some t → added.get n = some t) ∧
      ((cancel added dropped).2.get n = some t → dropped.get n = some t) := by
  have he := cancel_entries added dropped n
  unfold entries uncommon at he
  dsimp only at he
  split at he
  · rw [Prod.mk.injEq] at he
    rw [he.1, he.2]
    simp
  · rw [Prod.mk.injEq] at he
    rw [he.1, he.2]
    exact ⟨id, id⟩

theorem dropped_providedBefore {srs : List Pair} {provm : ByRepo} {n : Str} {t : Option Str}
    (h : (accumulate srs provm).dropped.get n = some t) : ProvidedBefore srs provm n t := by
  rw [(accumulate_eq srs provm).2] at h
  obtain ⟨pr, hpr, hparse⟩ := noteProviders_mem h
  obtain ⟨pair, hpair, hpr⟩ := List.mem_flatMap.mp hpr
  obtain ⟨p, hp, hpr⟩ := List.mem_flatMap.mp hpr
  refine ⟨pair, hpair, p, hp, pr, ?_, hparse⟩
  unfold oldProviders at hpr
  split at hpr
  · exact hpr
  · exact absurd hpr List.not_mem_nil

theorem checkStage_isSome {r : Repos} {q : ApkAnswers} (hans : Answered r q)
    (hver : VersionedAfter r q) (force : Bool) : (checkStage r q force).isSome := by
  have hcheck : (checkRevdeps (r.changes q).1 (r.changes q).2 (r.dependsOf q) []
      (revdeps q (r.changes q).2)).isSome := by
    apply checkRevdeps_isSome
    intro rev hrev
    obtain ⟨deps, hdeps, hall⟩ := hans rev hrev
    refine ⟨deps, hdeps, fun ad had => ?_⟩
    obtain ⟨n, d, rfl⟩ := hall ad had
    have hbefore : ∀ t, (r.changes q).2.get n.text = some t →
        ProvidedBefore r.srs (r.provm q) n.text t :=
      fun t ht => dropped_providedBefore (cancel_get.2 ht)
    apply checkDep_isSome n d
    · intro t ht
      exact hver.1 n.text t (hbefore _ ht)
    · intro t hsome ht
      obtain ⟨t', ht'⟩ := Option.isSome_iff_exists.mp hsome
      exact hver.2 n.text t ⟨t', hbefore t' ht'⟩ (added_providedAfter (cancel_get.1 ht))
  obtain ⟨c, hc⟩ := Option.isSome_iff_exists.mp hcheck
  unfold checkStage
  rw [hc]
  cases force with
  | true => rfl
  | false =>
      dsimp only
      rw [if_neg Bool.false_ne_true]
      split <;> rfl

/-- Unless it is forced, unstaging keeps satisfied dependencies satisfied, or their name has a
provider that is not replaced; and names that are versioned from now on do not make it raise. -/
theorem unstage_safe (r : Repos) (q : ApkAnswers) :
    (∀ l, checkStage r q false = some (some l) → KeepsDependencies r q) ∧
      (Answered r q → VersionedAfter r q → (checkStage r q false).isSome) :=
  ⟨fun _ h => keepsDependencies h, fun hans hver => checkStage_isSome hans hver false⟩

/-! ### A provider that is not replaced -/

def staged : Str := "s".toList

def regular : Str := "r".toList

/-- The package `a` goes from `n=1` to `n=2`, `q` provides `n=5` and `x` needs `n=1`. -/
def upgrade : Repos :=
  { rs := [staged]
    rr := [regular]
    regular := fun _ => some regular }

def upgradeAnswers : ApkAnswers :=
  { providers := fun _ =>
      [⟨"a".toList, ["n=1".toList], [regular]⟩, ⟨"a".toList, ["n=2".toList], [staged]⟩,
        ⟨"q".toList, ["n=5".toList], [regular]⟩]
    rdepends := fun _ => ["x".toList]
    depends := fun _ => [⟨"x".toList, ["n=1".toList], [regular]⟩]
    search := fun _ => ["a".toList, "q".toList] }

theorem unstage_safe_upgrade : KeepsDependencies upgrade upgradeAnswers :=
  (unstage_safe upgrade upgradeAnswers).1 [staged] (by decide +kernel)

/-- A dependency that was satisfied before is satisfied after. -/
def KeepsSatisfied (r : Repos) (q : ApkAnswers) : Prop :=
  ∀ rev ∈ revdeps q (r.changes q).2, ∀ deps, r.dependsOf q rev = some deps →
    ∀ (n : Name) (d : Option (Op × Version)), depText n d ∈ deps →
    ∀ t, ProvidedBefore r.srs (r.provm q) n.text t → SatisfiedBy n d t →
    ∃ t', ProvidedAfter r.srs (r.provm q) n.text t' ∧ SatisfiedBy n d t'

def nameN : Name := ⟨"n".toList, by decide⟩

def versionOne : Version := ⟨"1".toList, by decide +kernel⟩

/-- `n=1` has no provider left, and unstaging is allowed. -/
theorem upgrade_not_keepsSatisfied :
    ¬ ∀ (r : Repos) (q : ApkAnswers) (l : List Str), checkStage r q false = some (some l) →
      KeepsSatisfied r q := by
  intro h
  have hprovm : upgrade.provm upgradeAnswers =
      [("a".toList, [(regular, ["n=1".toList]), (staged, ["n=2".toList])]),
        ("q".toList, [(regular, ["n=5".toList])])] := by decide +kernel
  have hbefore : ProvidedBefore upgrade.srs (upgrade.provm upgradeAnswers) nameN.text
      (some "1".toList) := by
    rw [hprovm]
    exact ⟨(staged, regular), List.mem_singleton.mpr rfl, _, List.mem_cons_self, "n=1".toList,
      List.mem_singleton.mpr rfl, by decide +kernel⟩
  obtain ⟨t, hafter, hsat⟩ := h upgrade upgradeAnswers [staged] (by decide +kernel) "x".toList
    (by decide +kernel) ["n=1".toList] (by decide +kernel) nameN (some (.eq, versionOne))
    (List.mem_singleton.mpr rfl) (some "1".toList) hbefore ⟨_, rfl, by decide +kernel⟩
  obtain ⟨pair, hpair, p, hp, pr, hpr, hparse⟩ := hafter
  have hnone : upgrade.srs.all (fun pair => (upgrade.provm upgradeAnswers).all fun p =>
      (((p.2.get pair.1).or (p.2.get pair.2)).getD []).all fun pr =>
        !((parseProvider pr).2.map fun s => pkgMatch nameN.text s "n=1".toList).any
          fun b => decide (b = some true)) = true := by decide +kernel
  have hpr' := List.all_eq_true.mp (List.all_eq_true.mp
    (List.all_eq_true.mp hnone pair hpair) p hp) pr hpr
  obtain ⟨s, rfl, hmatch⟩ := hsat
  have hmatch' : pkgMatch nameN.text s "n=1".toList = some true := hmatch
  rw [hparse] at hpr'
  dsimp only at hpr'
  rw [Option.map_some, hmatch'] at hpr'
  nomatch hpr'

end Cbuild.Stage
