import Cbuild.Bulk.Run

/-! # Resolving the requested names

The first loop of `_bulkpkg` sorts the names it is given into the templates to
handle, the names that do not resolve, and those it skips.
-/

namespace Cbuild.Bulk

variable {o : Opts} {w : World}

/-- The template name a requested name stands for. -/
def World.npn (w : World) (pn : Str) : Option Str :=
  match w.sanitizePkgname pn with
  | .found repository pkgname => some (fullPkgname repository pkgname)
  | _ => none

/-- The words for names that do not resolve. -/
inductive Unresolved (w : World) (pn : Str) : Status → Prop
  | missing (h : w.sanitizePkgname pn = .missing) : Unresolved w pn .missing
  | invalid (h : w.sanitizePkgname pn = .invalid) : Unresolved w pn .invalid

theorem Unresolved.npn {pn : Str} {st : Status} (h : Unresolved w pn st) : w.npn pn = none := by
  cases h with
  | missing h => simp [World.npn, h]
  | invalid h => simp [World.npn, h]

theorem Unresolved.word {pn : Str} {st : Status} (h : Unresolved w pn st) :
    st = .missing ∨ st = .invalid := by
  cases h with
  | missing _ => exact .inl rfl
  | invalid _ => exact .inr rfl

/-- The ways an iteration over `pn` can take `s`. -/
inductive ResolveCase (o : Opts) (w : World) (s : Resolve) (pn : Str) : Resolve → Prop
  | known (h : pn ∈ s.rpkgs ∨ pn ∈ s.badpkgs) : ResolveCase o w s pn s
  | bad (hnew : pn ∉ s.rpkgs ∧ pn ∉ s.badpkgs) (st : Status) (hst : Unresolved w pn st) :
      ResolveCase o w s pn (s.bad pn st)
  | again (npn : Str) (hnpn : w.npn pn = some npn) (h : npn ∈ s.rpkgs ∨ npn ∈ s.badpkgs) :
      ResolveCase o w s pn s
  | skipped (npn : Str) (hnpn : w.npn pn = some npn) (hnew : npn ∉ s.rpkgs ∧ npn ∉ s.badpkgs)
      (hfailed : s.failed = true) (hcont : o.bulkcont = false) :
      ResolveCase o w s pn { s with status := s.status ++ [(npn, .skipped)] }
  | added (npn : Str) (hnpn : w.npn pn = some npn) (hnew : npn ∉ s.rpkgs ∧ npn ∉ s.badpkgs)
      (hlive : s.failed = false ∨ o.bulkcont = true) :
      ResolveCase o w s pn { s with rpkgs := insert npn s.rpkgs }

theorem resolveStep_cases (o : Opts) (w : World) (s : Resolve) (pn : Str) :
    ResolveCase o w s pn (resolveStep o w s pn) := by
  unfold resolveStep
  by_cases hknown : pn ∈ s.rpkgs ∨ pn ∈ s.badpkgs
  · rw [if_pos hknown]
    exact .known hknown
  · rw [if_neg hknown]
    have hnew := not_or.mp hknown
    cases hs : w.sanitizePkgname pn with
    | missing => exact .bad hnew _ (.missing hs)
    | invalid => exact .bad hnew _ (.invalid hs)
    | found repository pkgname =>
        have hnpn : w.npn pn = some (fullPkgname repository pkgname) := by simp [World.npn, hs]
        dsimp only
        generalize fullPkgname repository pkgname = npn at hnpn ⊢
        by_cases hagain : npn ≠ pn ∧ (npn ∈ s.rpkgs ∨ npn ∈ s.badpkgs)
        · rw [if_pos hagain]
          exact .again npn hnpn hagain.2
        · rw [if_neg hagain]
          have hnew' : npn ∉ s.rpkgs ∧ npn ∉ s.badpkgs := by
            by_cases heq : npn = pn
            · rw [heq]
              exact hnew
            · exact not_or.mp (fun h => hagain ⟨heq, h⟩)
          by_cases hskip : s.failed = true ∧ o.bulkcont = false
          · rw [if_pos hskip]
            exact .skipped npn hnpn hnew' hskip.1 hskip.2
          · rw [if_neg hskip]
            have hlive : s.failed = false ∨ o.bulkcont = true := by
              rw [not_and_or, Bool.not_eq_true, Bool.not_eq_false] at hskip
              exact hskip
            exact .added npn hnpn hnew' hlive

/-- A requested name has been dealt with: it or what it stands for is on the way to be
handled, or has a line in the status file. -/
def Covered (w : World) (s : Resolve) (pn : Str) : Prop :=
  ∃ n, (n = pn ∨ w.npn pn = some n) ∧
    (n ∈ s.rpkgs ∨ n ∈ s.badpkgs ∨ (n, Status.skipped) ∈ s.status)

/-- The first loop after the names `ps`. -/
structure Resolved (o : Opts) (w : World) (ps : List Str) (s : Resolve) : Prop where
  failed_iff : s.failed = true ↔ s.badpkgs.Nonempty
  /-- Names that do not resolve have their line. -/
  bad : ∀ n ∈ s.badpkgs, n ∈ ps ∧ ∃ st, Unresolved w n st ∧ (n, st) ∈ s.status
  /-- There are lines for names that do not resolve and, after a failure, for skipped ones. -/
  lines : ∀ a ∈ s.status, (Unresolved w a.1 a.2 ∧ a.1 ∈ s.badpkgs) ∨
    (a.2 = .skipped ∧ (∃ pn ∈ ps, w.npn pn = some a.1) ∧ a.1 ∉ s.rpkgs ∧
      s.failed = true ∧ o.bulkcont = false)
  found : ∀ n ∈ s.rpkgs, ∃ pn ∈ ps, w.npn pn = some n
  covered : ∀ pn ∈ ps, Covered w s pn

theorem Covered.mono {s s' : Resolve} {pn : Str} (h : Covered w s pn) (hr : s.rpkgs ⊆ s'.rpkgs)
    (hb : s.badpkgs ⊆ s'.badpkgs) (hs : ∀ a ∈ s.status, a ∈ s'.status) : Covered w s' pn := by
  obtain ⟨n, hn, hmem⟩ := h
  refine ⟨n, hn, ?_⟩
  rcases hmem with hmem | hmem | hmem
  · exact .inl (hr hmem)
  · exact .inr (.inl (hb hmem))
  · exact .inr (.inr (hs _ hmem))

/-- One more name. -/
theorem Resolved.step {ps : List Str} {s : Resolve} (h : Resolved o w ps s) (pn : Str) :
    Resolved o w (ps ++ [pn]) (resolveStep o w s pn) := by
  have hsnoc : ∀ {n : Str}, (∃ q ∈ ps, w.npn q = some n) → ∃ q ∈ ps ++ [pn], w.npn q = some n := by
    intro n hq
    obtain ⟨q, hq, hn⟩ := hq
    exact ⟨q, List.mem_append_left [pn] hq, hn⟩
  have hlast : pn ∈ ps ++ [pn] := by simp
  have hbad : ∀ n ∈ s.badpkgs, n ∈ ps ++ [pn] ∧ ∃ st, Unresolved w n st ∧ (n, st) ∈ s.status :=
    fun n hn => ⟨List.mem_append_left [pn] (h.bad n hn).1, (h.bad n hn).2⟩
  have hlines : ∀ a ∈ s.status, (Unresolved w a.1 a.2 ∧ a.1 ∈ s.badpkgs) ∨
      (a.2 = .skipped ∧ (∃ q ∈ ps ++ [pn], w.npn q = some a.1) ∧ a.1 ∉ s.rpkgs ∧
        s.failed = true ∧ o.bulkcont = false) := by
    intro a ha
    rcases h.lines a ha with hb | ⟨hst, hq, hrest⟩
    · exact .inl hb
    · exact .inr ⟨hst, hsnoc hq, hrest⟩
  have hcovered : ∀ s', (∀ q ∈ ps, Covered w s' q) → Covered w s' pn →
      ∀ q ∈ ps ++ [pn], Covered w s' q := by
    intro s' hold hnew q hq
    rcases List.mem_append.mp hq with hq | hq
    · exact hold q hq
    · rw [List.mem_singleton.mp hq]
      exact hnew
  generalize hs' : resolveStep o w s pn = s'
  have hcase := resolveStep_cases o w s pn
  rw [hs'] at hcase
  cases hcase with
  | known hmem =>
      refine ⟨h.failed_iff, hbad, hlines, fun n hn => hsnoc (h.found n hn),
        hcovered s h.covered ⟨pn, .inl rfl, ?_⟩⟩
      rcases hmem with hmem | hmem
      · exact .inl hmem
      · exact .inr (.inl hmem)
  | bad hnew st hst =>
      refine ⟨by simp [Resolve.bad], fun n hn => ?_, fun a ha => ?_,
        fun n hn => hsnoc (h.found n hn), hcovered _ (fun q hq => ?_) ⟨pn, .inl rfl, ?_⟩⟩
      · rcases Finset.mem_insert.mp hn with rfl | hn
        · exact ⟨hlast, st, hst, List.mem_append_right _ (List.mem_singleton_self _)⟩
        · obtain ⟨hmem', st', hst', hmem⟩ := hbad n hn
          exact ⟨hmem', st', hst', List.mem_append_left _ hmem⟩
      · rcases List.mem_append.mp ha with ha | ha
        · rcases hlines a ha with ⟨hu, hb⟩ | ⟨hsk, hq, hr, _, hc⟩
          · exact .inl ⟨hu, Finset.mem_insert_of_mem hb⟩
          · exact .inr ⟨hsk, hq, hr, rfl, hc⟩
        · rw [List.mem_singleton.mp ha]
          exact .inl ⟨hst, Finset.mem_insert_self pn s.badpkgs⟩
      · exact (h.covered q hq).mono (Finset.Subset.refl _) (Finset.subset_insert _ _)
          (fun a ha => List.mem_append_left _ ha)
      · exact .inr (.inl (Finset.mem_insert_self pn s.badpkgs))
  | again npn hnpn hmem =>
      refine ⟨h.failed_iff, hbad, hlines, fun n hn => hsnoc (h.found n hn),
        hcovered s h.covered ⟨npn, .inr hnpn, ?_⟩⟩
      rcases hmem with hmem | hmem
      · exact .inl hmem
      · exact .inr (.inl hmem)
  | skipped npn hnpn hnew hfailed hcont =>
      refine ⟨h.failed_iff, fun n hn => ?_, fun a ha => ?_, fun n hn => hsnoc (h.found n hn),
        hcovered _ (fun q hq => ?_) ⟨npn, .inr hnpn, ?_⟩⟩
      · obtain ⟨hmem', st', hst', hmem⟩ := hbad n hn
        exact ⟨hmem', st', hst', List.mem_append_left _ hmem⟩
      · rcases List.mem_append.mp ha with ha | ha
        · exact hlines a ha
        · rw [List.mem_singleton.mp ha]
          exact .inr ⟨rfl, ⟨pn, hlast, hnpn⟩, hnew.1, hfailed, hcont⟩
      · exact (h.covered q hq).mono (Finset.Subset.refl _) (Finset.Subset.refl _)
          (fun a ha => List.mem_append_left _ ha)
      · exact .inr (.inr (List.mem_append_right _ (List.mem_singleton_self _)))
  | added npn hnpn hnew hlive =>
      refine ⟨h.failed_iff, hbad, fun a ha => ?_, fun n hn => ?_,
        hcovered _ (fun q hq => ?_) ⟨npn, .inr hnpn, .inl (Finset.mem_insert_self npn s.rpkgs)⟩⟩
      · rcases hlines a ha with hb | ⟨_, _, _, hf, hc⟩
        · exact .inl hb
        · -- a name is not added once names are being skipped
          rw [hf, hc] at hlive
          simp at hlive
      · rcases Finset.mem_insert.mp hn with rfl | hn
        · exact ⟨pn, hlast, hnpn⟩
        · exact hsnoc (h.found n hn)
      · exact (h.covered q hq).mono (Finset.subset_insert _ _) (Finset.Subset.refl _)
          (fun a ha => ha)

theorem resolved (o : Opts) (w : World) (pkgs : List Str) :
    Resolved o w pkgs (resolve o w pkgs) := by
  unfold resolve
  induction pkgs using List.reverseRecOn with
  | nil => exact ⟨by simp [Resolve.start], by simp [Resolve.start], by simp [Resolve.start],
      by simp [Resolve.start], by simp⟩
  | append_singleton ps pn ih =>
      rw [List.foldl_append, List.foldl_cons, List.foldl_nil]
      exact ih.step pn

/-- The flag is never cleared by the first loop. -/
theorem resolveStep_failed (s : Resolve) (pn : Str) (h : s.failed = true) :
    (resolveStep o w s pn).failed = true := by
  generalize hs' : resolveStep o w s pn = s'
  have hcase := resolveStep_cases o w s pn
  rw [hs'] at hcase
  cases hcase with
  | bad _ _ _ => rfl
  | known _ | again _ _ _ | skipped _ _ _ _ _ | added _ _ _ _ => exact h

/-- The requested templates: what the names resolve to. -/
def requested (o : Opts) (w : World) (pkgs : List Str) : Finset Str := (resolve o w pkgs).rpkgs

/-- Some name is missing or invalid, and not already known as a requested template. -/
def NameFails (o : Opts) (w : World) (pkgs : List Str) : Prop :=
  ∃ pre pn post, pkgs = pre ++ pn :: post ∧ (∃ st, Unresolved w pn st) ∧ pn ∉ requested o w pre

theorem resolve_failed_iff (o : Opts) (w : World) (pkgs : List Str) :
    (resolve o w pkgs).failed = true ↔ NameFails o w pkgs := by
  induction pkgs using List.reverseRecOn with
  | nil => simp [resolve, Resolve.start, NameFails]
  | append_singleton ps pn ih =>
      have hnames : NameFails o w (ps ++ [pn]) ↔
          NameFails o w ps ∨ (∃ st, Unresolved w pn st) ∧ pn ∉ requested o w ps := by
        constructor
        · intro h
          obtain ⟨pre, n, post, hsplit, hn, hnew⟩ := h
          rcases List.eq_nil_or_concat post with rfl | ⟨post', m, rfl⟩
          · obtain ⟨rfl, hlast⟩ := List.append_inj' hsplit rfl
            cases hlast
            exact .inr ⟨hn, hnew⟩
          · have hsplit' : ps ++ [pn] = (pre ++ n :: post') ++ [m] := by simp [hsplit]
            obtain ⟨hps, _⟩ := List.append_inj' hsplit' rfl
            exact .inl ⟨pre, n, post', hps, hn, hnew⟩
        · intro h
          rcases h with ⟨pre, n, post, rfl, hn, hnew⟩ | ⟨hn, hnew⟩
          · exact ⟨pre, n, post ++ [pn], by simp, hn, hnew⟩
          · exact ⟨ps, pn, [], rfl, hn, hnew⟩
      have hstep : resolve o w (ps ++ [pn]) = resolveStep o w (resolve o w ps) pn := by
        simp [resolve]
      rw [hnames, ← ih, hstep]
      have hres := resolved o w ps
      have hno : ∀ npn, w.npn pn = some npn → ¬ ∃ st, Unresolved w pn st := by
        intro npn hnpn hun
        obtain ⟨st, hst⟩ := hun
        rw [hst.npn] at hnpn
        contradiction
      generalize hs' : resolveStep o w (resolve o w ps) pn = s'
      have hcase := resolveStep_cases o w (resolve o w ps) pn
      rw [hs'] at hcase
      cases hcase with
      | known hmem =>
          constructor
          · exact .inl
          · intro h
            rcases h with h | ⟨_, hnew⟩
            · exact h
            · exact hres.failed_iff.mpr ⟨pn, hmem.resolve_left hnew⟩
      | bad hnew st hst =>
          constructor
          · intro _
            exact .inr ⟨⟨st, hst⟩, hnew.1⟩
          · intro _
            rfl
      | again npn hnpn _ | skipped npn hnpn _ _ _ | added npn hnpn _ _ =>
          constructor
          · exact .inl
          · intro h
            rcases h with h | ⟨hun, _⟩
            · exact h
            · exact absurd hun (hno npn hnpn)

end Cbuild.Bulk
