import Cbuild.Build.Steps
import Mathlib.Data.Finset.Card
import Mathlib.Data.Finset.Union

/-! # The recursion ends

A build puts its key into `depmap` before it calls `install` and takes it out at
its end, so that `depmap` is the stack of builds under way. A build whose key is
already there raises; the nesting is therefore bounded by the number of keys.
-/

namespace Cbuild.Build

open Lib

variable {env : Env} {rec : Call → State → Fueled Error State}

/-! ## `depmap` is as it was before -/

theorem buildMissing_invariant {I : State → Prop} {arch : Arch} {chost : Bool} {origin : Str}
    (hI : ∀ fulln t st st', I st → newTemplate env st.repo arch fulln = .ok (some t) →
      (rec ⟨.target .pkg, arch, chost, origin, t⟩ st).Returns st' → I st')
    {missing : List FullName} {st st' : State} (hst : I st)
    (h : (buildMissing env rec arch chost origin missing st).Returns st') : I st' := by
  induction missing generalizing st with
  | nil =>
      rw [buildMissing, Fueled.pure_returns] at h
      rwa [← h]
  | cons fulln missing ih =>
      rcases buildMissing_cons_returns.mp h with ⟨_, hrest⟩ | ⟨t, st₁, ht, hst₁, hrest⟩
      · exact ih hst hrest
      · exact ih (hI fulln t st st₁ hst ht hst₁) hrest

/-- What nested builds keep, `install` keeps. -/
theorem install_invariant {I : State → Prop} {c : Call} {st st' : State}
    (htcache : ∀ tcache, I { st with tcache })
    (hI : ∀ c st st', c.step = .target .pkg → I st → (rec c st).Returns st' → I st')
    (h : (install env rec c st).Returns st') : I st' := by
  obtain ⟨plan, tcache, st₁, _, hhost, htarget, _⟩ := install_returns.mp h
  have hst₁ : I st₁ := buildMissing_invariant (fun _ _ _ _ h _ => hI _ _ _ rfl h) (htcache tcache) hhost
  exact buildMissing_invariant (fun _ _ _ _ h _ => hI _ _ _ rfl h) hst₁ htarget

theorem Done.depmap {c : Call} {checked st st' : State} (h : Done env c checked st st')
    (hdepmap : st.depmap = c.depn :: checked.depmap.erase c.depn) :
    st'.depmap = checked.depmap.erase c.depn ∨
      (c.step ≠ .target .pkg ∧ st'.depmap = c.depn :: checked.depmap.erase c.depn) := by
  cases h with
  | stopped hstep => exact Or.inr ⟨hstep, hdepmap⟩
  | extracted hstep => exact Or.inr ⟨hstep, hdepmap⟩
  | finished =>
      refine Or.inl ?_
      change st.depmap.erase c.depn = _
      rw [hdepmap, List.erase_cons_head]

/-- When nested builds leave `depmap` as it was, so does a build, unless it was to stop at a
phase: then its own key is left. -/
theorem buildWith_depmap (hrec : ∀ c st st', c.step = .target .pkg → (rec c st).Returns st' →
      st'.depmap = st.depmap) {c : Call} {st st' : State}
    (h : (buildWith env rec c st).Returns st') :
    st'.depmap = st.depmap ∨ (c.step ≠ .target .pkg ∧ st'.depmap = c.depn :: st.depmap) := by
  obtain ⟨hdepn, h⟩ := buildWith_returns h
  rcases h with ⟨hstep, rfl⟩ | ⟨st₁, hinst, hdone⟩
  · exact Or.inr ⟨hstep, rfl⟩
  · have hst₁ : st₁.depmap = c.depn :: st.depmap :=
      install_invariant (I := fun s => s.depmap = c.depn :: st.depmap) (fun _ => rfl)
        (fun c' s s' hstep hs hs' => (hrec c' s s' hstep hs').trans hs) hinst
    have herase : (st.enter c).depmap.erase c.depn = st.depmap := List.erase_cons_head ..
    have := hdone.depmap (by rw [herase]; exact hst₁)
    rwa [herase] at this

/-- A nested build leaves `depmap` as it was. -/
theorem build_pkg_depmap (fuel : Nat) {c : Call} {st st' : State} (hstep : c.step = .target .pkg)
    (h : (build env fuel c st).Returns st') : st'.depmap = st.depmap := by
  induction fuel generalizing c st st' with
  | zero => exact absurd h (by simp [build, Fueled.outOfFuel, Fueled.Returns])
  | succ fuel ih =>
      rcases buildWith_depmap (fun _ _ _ hs => ih hs) h with heq | ⟨hne, _⟩
      · exact heq
      · exact absurd hstep hne

/-! ## Fuel -/

theorem buildMissing_not_stops {D : List Str} {arch : Arch} {chost : Bool} {origin : Str}
    (hstop : ∀ fulln t st, st.depmap = D → newTemplate env st.repo arch fulln = .ok (some t) →
      ¬ (rec ⟨.target .pkg, arch, chost, origin, t⟩ st).Stops)
    (hret : ∀ c st st', c.step = .target .pkg → (rec c st).Returns st' → st'.depmap = st.depmap)
    {missing : List FullName} {st : State} (hst : st.depmap = D) :
    ¬ (buildMissing env rec arch chost origin missing st).Stops := by
  induction missing generalizing st with
  | nil => exact Fueled.pure_stops
  | cons fulln missing ih =>
      rw [buildMissing, Fueled.bind_stops]
      intro h
      rcases h with h | ⟨o, ho, h⟩
      · exact Fueled.lift_stops h
      · cases o with
        | none => exact ih hst h
        | some t =>
            rw [Fueled.lift_returns] at ho
            rcases Fueled.bind_stops.mp h with h | ⟨st₁, hst₁, h⟩
            · exact hstop fulln t st hst ho h
            · exact ih ((hret _ _ _ rfl hst₁).trans hst) h

theorem install_not_stops {c : Call} {st : State}
    (hstop : ∀ arch chost origin fulln t s, s.depmap = st.depmap →
      newTemplate env s.repo arch fulln = .ok (some t) →
      ¬ (rec ⟨.target .pkg, arch, chost, origin, t⟩ s).Stops)
    (hret : ∀ c st st', c.step = .target .pkg → (rec c st).Returns st' → st'.depmap = st.depmap) :
    ¬ (install env rec c st).Stops := by
  unfold install
  simp only [Fueled.bind_stops, Fueled.lift_stops, Fueled.lift_returns, Fueled.pure_stops,
    false_or, and_false, exists_false, or_false]
  intro h
  obtain ⟨⟨plan, tcache⟩, _, h⟩ := h
  have hstart : ({ st with tcache } : State).depmap = st.depmap := rfl
  rcases h with h | ⟨st₁, hst₁, h⟩
  · exact buildMissing_not_stops (hstop _ _ _) hret hstart h
  · have hdepmap : st₁.depmap = st.depmap :=
      buildMissing_invariant (I := fun s => s.depmap = st.depmap)
        (fun _ _ _ _ hs _ hs' => (hret _ _ _ rfl hs').trans hs) hstart hst₁
    exact buildMissing_not_stops (hstop _ _ _) hret hdepmap h

theorem buildLocked_not_stops {c : Call} {cdep : Option Step} {st : State}
    (h : ¬ (install env rec c st).Stops) : ¬ (buildLocked env rec c cdep st).Stops := by
  unfold buildLocked
  simp only [Fueled.bind_stops, Fueled.lift_stops, h, false_or]
  intro h
  obtain ⟨_, _, _, _, b, _, hs⟩ := h
  cases b with
  | true => exact Fueled.pure_stops hs
  | false =>
      simp only [Bool.false_eq_true, if_false, Fueled.bind_stops, Fueled.lift_stops,
        false_or] at hs
      obtain ⟨b, _, hs⟩ := hs
      cases b with
      | true => exact Fueled.pure_stops hs
      | false => exact Fueled.lift_stops hs

theorem buildWith_not_stops {c : Call} {st : State}
    (h : c.depn ∉ st.depmap → ¬ (install env rec c (st.enter c)).Stops) :
    ¬ (buildWith env rec c st).Stops := by
  unfold buildWith
  split
  · exact Fueled.throw_stops
  · rename_i hdepn
    simp only [Fueled.bind_stops, Fueled.lift_stops, false_or]
    intro h
    obtain ⟨_, _, _, _, b, _, hs⟩ := h
    cases b with
    | true => exact Fueled.pure_stops hs
    | false => exact buildLocked_not_stops (h (by simpa using hdepn)) hs

/-! ## The bound -/

/-- The keys of all templates of the tree. -/
def depnKeys (src : Source) (files : Finset FullName) : Finset Str :=
  files.image (fun f => depn false (src.resolve f).pkgname) ∪
    files.image (fun f => depn true (src.resolve f).pkgname)

theorem depnKeys_card_le (src : Source) (files : Finset FullName) :
    (depnKeys src files).card ≤ 2 * files.card := by
  have hplain := Finset.card_image_le (s := files) (f := fun f => depn false (src.resolve f).pkgname)
  have hhost := Finset.card_image_le (s := files) (f := fun f => depn true (src.resolve f).pkgname)
  have hunion := Finset.card_union_le
    (files.image fun f => depn false (src.resolve f).pkgname)
    (files.image fun f => depn true (src.resolve f).pkgname)
  unfold depnKeys
  omega

theorem newTemplate_some {repo : Repo} {arch : Arch} {fulln : FullName} {t : Template}
    (h : newTemplate env repo arch fulln = .ok (some t)) :
    env.src.isFile fulln = true ∧ t.fullPkgname = env.src.resolve fulln ∧
      env.src.module arch t.fullPkgname = some ⟨some t.fullPkgver, true⟩ ∧
      env.src.fields arch t.fullPkgname = some t.toFields ∧
      env.apk.isBuilt repo arch t.fullPkgname t.fullPkgver = false := by
  unfold newTemplate at h
  split at h
  · rename_i hfile
    dsimp only at h
    split at h
    · rename_i ver hmod
      split at h
      · cases h
      · rename_i hbuilt
        split at h
        · rename_i fields hfields
          cases h
          exact ⟨hfile, rfl, hmod, hfields, by simpa using hbuilt⟩
        · contradiction
    · contradiction
  · contradiction

theorem depn_mem_depnKeys {files : Finset FullName}
    (hfiles : ∀ f, env.src.isFile f = true → f ∈ files) {repo : Repo} {arch : Arch}
    {fulln : FullName} {t : Template} (h : newTemplate env repo arch fulln = .ok (some t))
    (chost : Bool) : depn chost t.pkgname ∈ depnKeys env.src files := by
  obtain ⟨hfile, hfull, _⟩ := newTemplate_some h
  have hmem : fulln ∈ files := hfiles fulln hfile
  unfold depnKeys
  rw [Template.pkgname, hfull]
  cases chost with
  | false => exact Finset.mem_union_left _ (Finset.mem_image.mpr ⟨fulln, hmem, rfl⟩)
  | true => exact Finset.mem_union_right _ (Finset.mem_image.mpr ⟨fulln, hmem, rfl⟩)

/-- Entering a build takes its key off the keys that are left. -/
theorem card_sdiff_cons_lt {K : Finset Str} {D : List Str} {k : Str} (hk : k ∈ K) (hD : k ∉ D) :
    (K \ (k :: D).toFinset).card < (K \ D.toFinset).card := by
  refine Finset.card_lt_card (Finset.ssubset_iff_of_subset ?_ |>.mpr ⟨k, ?_, ?_⟩)
  · refine Finset.sdiff_subset_sdiff (Finset.Subset.refl K) ?_
    rw [List.toFinset_cons]
    exact Finset.subset_insert k _
  · exact Finset.mem_sdiff.mpr ⟨hk, by simpa using hD⟩
  · simp

/-- More fuel than there are keys left is enough for any depth of nesting. -/
theorem build_not_stops {K : Finset Str}
    (hK : ∀ repo arch chost fulln t, newTemplate env repo arch fulln = .ok (some t) →
      depn chost t.pkgname ∈ K)
    {fuel : Nat} {c : Call} {st : State} (hc : c.depn ∈ K)
    (hfuel : (K \ st.depmap.toFinset).card < fuel) : ¬ (build env fuel c st).Stops := by
  induction fuel generalizing c st with
  | zero => omega
  | succ fuel ih =>
      refine buildWith_not_stops fun hdepn => install_not_stops ?_ ?_
      · intro arch chost origin fulln t s hs ht
        have hlt := card_sdiff_cons_lt hc hdepn
        refine ih (hK _ _ _ _ _ ht) ?_
        rw [hs]
        change (K \ (c.depn :: st.depmap).toFinset).card < fuel
        omega
      · intro c' s s' hstep hs
        exact build_pkg_depmap fuel hstep hs

/-- With a finite tree of templates the recursion ends, whatever the dependencies are. -/
theorem build_terminates {files : Finset FullName}
    (hfiles : ∀ f, env.src.isFile f = true → f ∈ files) {fuel : Nat}
    (hfuel : 2 * files.card + 2 ≤ fuel) (c : Call) (st : State) :
    ¬ (build env fuel c st).Stops := by
  have hcard : (insert c.depn (depnKeys env.src files)).card ≤ 2 * files.card + 1 := by
    have hinsert := Finset.card_insert_le c.depn (depnKeys env.src files)
    have hkeys := depnKeys_card_le env.src files
    omega
  have hsdiff := Finset.card_le_card
    (Finset.sdiff_subset (s := insert c.depn (depnKeys env.src files)) (t := st.depmap.toFinset))
  refine build_not_stops (K := insert c.depn (depnKeys env.src files)) ?_
    (Finset.mem_insert_self _ _) (by omega)
  intro repo arch chost fulln t ht
  exact Finset.mem_insert_of_mem (depn_mem_depnKeys hfiles ht chost)

end Cbuild.Build
