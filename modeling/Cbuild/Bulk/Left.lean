import Cbuild.Bulk.Finish

/-! # Runs that an exception ends

A template that does not tell its dependencies ends the run. What has gone wrong by then
is known from the status file, and from the flag where the walk that raises has itself
met a template that does not parse.
-/

namespace Cbuild.Bulk

open Lib

variable {o : Opts} {w : World} {R : Finset Str} {p q x : Str} {r : Resolve} {base : Tmpl}

/-- A walk from `t` that does not enter `V` raises before it meets anything that fails to parse. -/
def RaisesFirst (w : World) (V : Finset Str) (t : Tmpl) : Prop :=
  t.buildDeps = none ∨ UntoldFirst w.readDep V t.deps

/-- The flag that `handle_recdeps` is left with. -/
theorem handleRecdeps_failed_iff {t : Tmpl} {c failed : Bool} {s : Walk Bool}
    (h : handleRecdeps o w p t c s = .error failed) :
    failed = false ↔ s.env = false ∧ RaisesFirst w s.pvisit t := by
  have hraw : o.doRaw = false := by
    refine Bool.eq_false_iff.mpr (fun hraw => ?_)
    rw [handleRecdeps_raw hraw] at h
    contradiction
  rw [handleRecdeps_sorted hraw] at h
  have hflag := addDepsGraph_raises_iff w.rpkg_fst w.rpkg_notes _ _ _ _ _ (World.addDeps_raises h)
  rwa [Walk.addBase_env, Walk.addBase_pvisit] at hflag

/-- The walk of `base-cbuild` does not clear the flag. -/
theorem parseStart_kept (hbase : w.depTemplate baseCbuild = .ok base) (hset : r.failed = true) :
    (parseStart o w r base).failed = true := by
  rcases parseStart_cases (o := o) (r := r) hbase with ⟨_, failed, hwalk, heq⟩ | ⟨htold, _⟩
  · rw [heq]
    refine Bool.eq_true_of_not_eq_false fun hfalse => ?_
    have hclear := ((handleRecdeps_failed_iff hwalk).mp hfalse).1
    change r.failed = false at hclear
    rw [hset] at hclear
    contradiction
  · exact (parseStart_failed hbase htold).mpr (.inl hset)

/-! ## Failures before the exception -/

/-- Some request is the first to meet a template that fails to parse. -/
theorem Chain.exists_depFails (hc : Chain w R q x) (hq : q ∈ R) (hw : Walkable w q)
    (hx : w.readDep x = none) (hB : ¬ InBase w x) :
    ∃ q' ∈ R, q' ≤ q ∧ Walkable w q' ∧ DepFails w R q' := by
  classical
  have hmem : q ∈ R.filter fun q => Walkable w q ∧ Chain w R q x :=
    Finset.mem_filter.mpr ⟨hq, hw, hc⟩
  obtain ⟨m, hm, hmin⟩ := Finset.exists_min_image _ id ⟨q, hmem⟩
  obtain ⟨hmR, hmw, hmc⟩ := Finset.mem_filter.mp hm
  refine ⟨m, hmR, hmin q hmem, hmw, x, hmc, hx, hB, fun q' hqR hlt hqw hqc => ?_⟩
  exact absurd hlt (not_lt_of_ge (hmin q' (Finset.mem_filter.mpr ⟨hqR, hqw, hqc⟩)))

/-- As long as nothing fails, whatever has been visited can be read and tells its dependencies. -/
theorem Visited.grown {ps : List Str} {s : Walk Bool} (h : Visited w R ps s)
    (hraw : o.doRaw = false) (hps : ∀ q, q ∈ ps ↔ q ∈ R ∧ q < p) (hB : ¬ BaseFails o w)
    (hno : ∀ q ∈ ps, ¬ Fails o w R q) : Grown w.readDep R s.pvisit where
  mono := fun x hx => (h.pvisit x).mpr (.inl hx)
  tells := by
    intro x hx hn
    refine ⟨fun hnone => ?_, h.told x hx hn⟩
    by_cases hxB : InBase w x
    · exact hB ⟨hraw, x, hxB, hnone⟩
    · rcases (h.pvisit x).mp hx with hR | hxB' | ⟨q, hq, hqw, hqc⟩
      · exact hn hR
      · exact hxB hxB'
      · obtain ⟨hqR, hqp⟩ := (hps q).mp hq
        obtain ⟨m, hmR, hmq, hmw, hdep⟩ := hqc.exists_depFails hqR hqw hnone hxB
        exact hno m ((hps m).mpr ⟨hmR, lt_of_le_of_lt hmq hqp⟩) (.inr ⟨hmw, hraw, hdep⟩)
  closed := fun _ hx hn _ hxy => h.closed hx hn hxy

/-- A line that reports a failure. -/
def FailureWord (st : Status) : Prop :=
  st = .missing ∨ st = .invalid ∨ st = .parse ∨ st = .failed

/-- Something has failed once the requests `ps` have been handled. -/
def FailsAmong (o : Opts) (w : World) (r : Resolve) (ps : List Str) : Prop :=
  r.failed = true ∨ BaseFails o w ∨ ∃ q ∈ ps, Fails o w r.rpkgs q

theorem FailsAmong.mono {ps qs : List Str} (h : FailsAmong o w r ps) (hsub : ∀ q ∈ ps, q ∈ qs) :
    FailsAmong o w r qs := by
  rcases h with hr | hB | ⟨q, hq, hf⟩
  · exact .inl hr
  · exact .inr (.inl hB)
  · exact .inr (.inr ⟨q, hsub q hq, hf⟩)

variable {pkgs : List Str}

theorem resolve_failureLine_iff (o : Opts) (w : World) (pkgs : List Str) :
    (∃ a ∈ (resolve o w pkgs).status, FailureWord a.2) ↔ (resolve o w pkgs).failed = true := by
  have hr := resolved o w pkgs
  constructor
  · intro ⟨a, ha, hst⟩
    rcases hr.lines a ha with ⟨_, hbad⟩ | ⟨hskipped, _⟩
    · exact hr.failed_iff.mpr ⟨a.1, hbad⟩
    · rw [hskipped] at hst
      simp [FailureWord] at hst
  · intro hset
    obtain ⟨n, hn⟩ := hr.failed_iff.mp hset
    obtain ⟨_, st, hst, hline⟩ := hr.bad n hn
    refine ⟨(n, st), hline, ?_⟩
    rcases hst.word with hw | hw
    · exact .inl hw
    · exact .inr (.inl hw)

/-- Every failure but one of `base-cbuild` has its line, and only a failure has one. -/
theorem failureLine_iff (hbase : w.depTemplate baseCbuild = .ok base) (ps rest : List Str)
    (hsplit : (resolve o w pkgs).sorted = ps ++ rest) (hlive : Live o w (resolve o w pkgs) ps)
    (htold : Told o w (requested o w pkgs) ps) :
    (∃ a ∈ (ps.foldl (parseStep o w) (parseStart o w (resolve o w pkgs) base)).status,
      FailureWord a.2) ∨ BaseFails o w ↔ FailsAmong o w (resolve o w pkgs) ps := by
  have hmem := mem_status_upTo hbase ps rest hsplit hlive htold
  have hresolve := resolve_failureLine_iff o w pkgs
  constructor
  · intro h
    rcases h with ⟨a, ha, hst⟩ | hB
    · rcases (hmem a).mp ha with ha | ⟨hps, ⟨hf, _⟩ | ⟨_, hbroken⟩⟩
      · exact .inl (hresolve.mp ⟨a, ha, hst⟩)
      · exact .inr (.inr ⟨a.1, hps, hf⟩)
      · rw [hbroken] at hst
        simp [FailureWord] at hst
    · exact .inr (.inl hB)
  · intro h
    rcases h with hset | hB | ⟨q, hq, hf⟩
    · obtain ⟨a, ha, hst⟩ := hresolve.mpr hset
      exact .inl ⟨a, (hmem a).mpr (.inl ha), hst⟩
    · exact .inr hB
    · exact .inl ⟨(q, .parse), (hmem _).mpr (.inr ⟨hq, .inl ⟨hf, rfl⟩⟩), .inr (.inr (.inl rfl))⟩

/-- The failures among the requests before `p`. -/
theorem failsAmong_iff {ps rest : List Str}
    (hsplit : (resolve o w pkgs).sorted = ps ++ p :: rest) :
    FailsAmong o w (resolve o w pkgs) ps ↔ Failure o w pkgs (· < p) := by
  rw [FailsAmong, Failure, resolve_failed_iff]
  simp only [mem_prefix_iff hsplit, requested, and_assoc]

/-! ## Exceptions before any failure -/

/-- The exception comes before anything has failed: the names resolve and the walk of `base-cbuild`
raises first, or the walk of the first request to raise does so first and nothing before it
fails. -/
structure LeftClean (o : Opts) (w : World) (pkgs : List Str) (base : Tmpl) : Prop where
  base : BaseRaises o w → ¬ NameFails o w pkgs ∧ RaisesFirst w ∅ base
  request : ¬ BaseRaises o w → ∀ p ∈ requested o w pkgs, Raises o w (requested o w pkgs) p →
    (∀ q ∈ requested o w pkgs, q < p → ¬ Raises o w (requested o w pkgs) q) →
    ¬ Failure o w pkgs (· < p) ∧
      ∀ t, w.bulkTemplate p = .ok t → RaisesFirst w (requested o w pkgs) t

/-- What the parse loop says of failures when it is left. -/
def SaysFailure (o : Opts) (w : World) (b : Parsing) : Prop :=
  (∃ a ∈ b.status, FailureWord a.2) ∨ (BaseFails o w ∧ ¬ BaseRaises o w) ∨ b.failed = true

theorem saysFailure_base_iff (hbase : w.depTemplate baseCbuild = .ok base)
    (hB : BaseRaises o w) : SaysFailure o w (parseAll o w (resolve o w pkgs) base) ↔
      ¬ (¬ NameFails o w pkgs ∧ RaisesFirst w ∅ base) := by
  obtain ⟨_, failed, hwalk, hstart⟩ :=
    (parseStart_cases (o := o) (r := resolve o w pkgs) hbase).resolve_right fun h => h.1 hB
  have hflag := handleRecdeps_failed_iff hwalk
  have hall : parseAll o w (resolve o w pkgs) base =
      Parsing.escape ⟨(resolve o w pkgs).status, Walk.start (resolve o w pkgs).failed, [], false⟩
        failed := by
    rw [parseAll, hstart]
    exact foldl_parseStep_left _ _ rfl
  have hlines := resolve_failureLine_iff o w pkgs
  rw [← resolve_failed_iff, SaysFailure, hall]
  change (∃ a ∈ (resolve o w pkgs).status, _) ∨ _ ∨ failed = true ↔ _
  rw [hlines]
  change failed = false ↔ (resolve o w pkgs).failed = false ∧ RaisesFirst w ∅ base at hflag
  simp only [hB, not_true_eq_false, and_false, false_or, Bool.not_eq_true, ← hflag]
  constructor
  · intro h hfalse
    rcases h with h | h
    · rw [(hflag.mp hfalse).1] at h
      contradiction
    · rw [hfalse] at h
      contradiction
  · intro h
    exact .inr (Bool.eq_true_of_not_eq_false h)

theorem saysFailure_request_iff (hbase : w.depTemplate baseCbuild = .ok base)
    {ps rest : List Str} (hsplit : (resolve o w pkgs).sorted = ps ++ p :: rest)
    (hlive : Live o w (resolve o w pkgs) ps) (htold : Told o w (requested o w pkgs) ps)
    (hraise : Raises o w (requested o w pkgs) p) :
    SaysFailure o w (parseAll o w (resolve o w pkgs) base) ↔
      ¬ (¬ Failure o w pkgs (· < p) ∧
        ∀ t, w.bulkTemplate p = .ok t → RaisesFirst w (requested o w pkgs) t) := by
  obtain ⟨s, t, failed, hs, hparsed, ht, hwalk, hall⟩ := parseAll_left hbase hsplit hlive htold hraise
  replace hall : parseAll o w (resolve o w pkgs) base = s.escape failed := by
    rw [parseAll, hsplit, hall]
  have hflag := handleRecdeps_failed_iff hwalk
  have hline := failureLine_iff hbase ps (p :: rest) hsplit hlive htold
  rw [failsAmong_iff hsplit, ← hs] at hline
  have htells : SaysFailure o w (parseAll o w (resolve o w pkgs) base) ↔
      Failure o w pkgs (· < p) ∨ failed = true := by
    rw [← hline, SaysFailure, hall]
    simp only [htold.base, not_false_eq_true, and_true, or_assoc]
    rfl
  rw [htells, not_and_or, not_not]
  by_cases hfail : Failure o w pkgs (· < p)
  · simp [hfail]
  · simp only [hfail, false_or]
    have hnone : ¬ FailsAmong o w (resolve o w pkgs) ps := mt (failsAmong_iff hsplit).mp hfail
    have hgrown := (hparsed.visited hraise.1).grown hraise.1 (mem_prefix_iff hsplit)
      (fun hB => hnone (.inr (.inl hB))) (fun q hq hf => hnone (.inr (.inr ⟨q, hq, hf⟩)))
    have hfirst : failed = false ↔ RaisesFirst w (requested o w pkgs) t := by
      rw [hflag]
      simp only [RaisesFirst, Parsing.setFailed, true_and, requested, hgrown.untoldFirst_iff]
    simp only [ht, Except.ok.injEq, forall_eq', ← hfirst, Bool.not_eq_false]

/-- What is said of failures by a loop that is left. -/
theorem saysFailure_iff (hbase : w.depTemplate baseCbuild = .ok base) (hleft : Leaves o w pkgs) :
    SaysFailure o w (parseAll o w (resolve o w pkgs) base) ↔ ¬ LeftClean o w pkgs base := by
  by_cases hB : BaseRaises o w
  · rw [saysFailure_base_iff hbase hB, not_iff_not]
    constructor
    · intro h
      exact ⟨fun _ => h, fun hno => absurd hB hno⟩
    · intro h
      exact h.base hB
  · obtain ⟨ps, p, rest, hsplit, hlive, htold, hraise⟩ :=
      exists_first_raises hB ((leaves_iff o w pkgs).mp hleft)
    have hpR : p ∈ requested o w pkgs := (mem_sorted _ p).mp (by rw [hsplit]; simp)
    have hfirst : ∀ q ∈ requested o w pkgs, q < p → ¬ Raises o w (requested o w pkgs) q :=
      fun q hq hqp => htold.requests q ((mem_prefix_iff hsplit q).mpr ⟨hq, hqp⟩)
    rw [saysFailure_request_iff hbase hsplit hlive htold hraise, not_iff_not]
    constructor
    · intro h
      refine ⟨fun hyes => absurd hyes hB, fun _ q hq hqraise hqfirst => ?_⟩
      have hqp : q = p := by
        rcases lt_trichotomy q p with hlt | heq | hgt
        · exact absurd hqraise (hfirst q hq hlt)
        · exact heq
        · exact absurd hraise (hqfirst p hpR hgt)
      rwa [hqp]
    · intro h
      exact h.request hB p hpR hraise hfirst

end Cbuild.Bulk
