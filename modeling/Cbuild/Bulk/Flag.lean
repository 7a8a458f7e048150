import Cbuild.Bulk.Left
import Cbuild.Bulk.Order
import Cbuild.Lib.Reach

/-! # The failure flag

`_bulkpkg` notes every failure in one flag, which the parse loop saves, clears
and restores around each request. The branch for a broken request does not
restore it, so that a failure before one is lost when the run goes on after
failures. A cycle in the sorter, or a template that does not tell its dependencies, ends
a run with a foreign exception.
-/

namespace Cbuild.Bulk

open Lib

variable {o : Opts} {w : World} {pkgs : List Str} {ordl : Option (List Str)}

/-- The order the third loop takes. -/
def takenOrder (o : Opts) (pkgs : List Str) (ordl : Option (List Str)) : List Str :=
  if o.doRaw = true then pkgs else ordl.getD []

/-- The flag before the build loop and after each of its iterations. -/
def buildTrace (o : Opts) (w : World) (b : Parsing) (l : List Str) : List Bool :=
  if b.escaped = false ∧ (b.failed = false ∨ o.bulkcont = true) ∧ o.doBuild = .build then
    ((listing o w b l).flist.scanl (buildStep o w) ⟨(listing o w b l).status, b.failed, []⟩).map
      Building.failed
  else []

/-- The flag before each loop of a run and after each iteration. -/
def flagTrace (o : Opts) (w : World) (pkgs : List Str) (ordl : Option (List Str)) : List Bool :=
  let r := resolve o w pkgs
  (pkgs.scanl (resolveStep o w) Resolve.start).map Resolve.failed ++
    match w.depTemplate baseCbuild with
    | .error _ => []
    | .ok base =>
        (r.sorted.scanl (parseStep o w) (parseStart o w r base)).map Parsing.failed ++
          buildTrace o w (parseAll o w r base) (takenOrder o pkgs ordl)

/-- A flag that is set stays set. -/
def Kept (a b : Bool) : Prop := a = true → b = true

instance : Trans Kept Kept Kept := ⟨fun hab hbc ha => hbc (hab ha)⟩

/-- A package was missing, invalid, failed to parse or failed to build: it has its line, or is
`base-cbuild` or in its closure, or was met by the walk that ended the run. -/
def SomeFailure (o : Opts) (w : World) (run : Run) : Prop :=
  (∃ a ∈ run.status, FailureWord a.2) ∨ (BaseFails o w ∧ ¬ BaseRaises o w) ∨
    (∃ e, w.depTemplate baseCbuild = .error e) ∨ run.ending = .depsError true

/-- A run ends by raising `CbuildException`. -/
def Ending.raisesCbuildException : Ending → Bool
  | .bulkFailed => true
  | .baseError .cbuildException => true
  | _ => false

/-- A failure ends the run with `CbuildException` and without unstaging, and is never
forgotten on the way. -/
structure FlagSound (o : Opts) (w : World) (pkgs : List Str) (ordl : Option (List Str)) : Prop where
  raises : SomeFailure o w (bulkpkg o w pkgs ordl) →
    (bulkpkg o w pkgs ordl).ending.raisesCbuildException = true ∧
      (bulkpkg o w pkgs ordl).ending ≠ .returned true
  kept : (flagTrace o w pkgs ordl).Pairwise Kept

/-! ## The parse loop -/

variable {r : Resolve} {base : Tmpl}

/-- No iteration of the parse loop clears a flag that is set. -/
def NoLoss (o : Opts) (w : World) (r : Resolve) (base : Tmpl) : Prop :=
  ∀ ps p rest, r.sorted = ps ++ p :: rest →
    Kept (ps.foldl (parseStep o w) (parseStart o w r base)).failed
      (parseStep o w (ps.foldl (parseStep o w) (parseStart o w r base)) p).failed

theorem noLoss_of_stopping (hcont : o.bulkcont = false) : NoLoss o w r base := by
  intro ps p rest _ hfailed
  generalize ps.foldl (parseStep o w) (parseStart o w r base) = s at hfailed ⊢
  unfold parseStep
  by_cases hout : s.escaped = true
  · rw [if_pos hout]
    exact hfailed
  · rw [if_neg hout, if_pos ⟨hfailed, hcont⟩]
    exact hfailed

/-- The flag is set only by a failure. -/
theorem event_of_failed (hbase : w.depTemplate baseCbuild = .ok base) (ps rest : List Str)
    (hsplit : r.sorted = ps ++ rest) (hlive : Live o w r ps) (htold : Told o w r.rpkgs ps)
    (hfailed : (ps.foldl (parseStep o w) (parseStart o w r base)).failed = true) :
    FailsAmong o w r ps := by
  refine prefix_induction hbase (P := fun ps s => s.failed = true → FailsAmong o w r ps)
    (fun h => ?_) (fun ps p s s' ih hverdict h => ?_) ps rest hsplit hlive htold hfailed
  · rcases (parseStart_failed hbase htold.base).mp h with hr | hB
    · exact .inl hr
    · exact .inr (.inl hB)
  · cases hverdict with
    | fails hf _ _ _ => exact .inr (.inr ⟨p, by simp, hf⟩)
    | broken _ hs' _ _ =>
        rw [hs'] at h
        contradiction
    | accepted _ _ _ hs' _ _ =>
        rw [hs'] at h
        exact (ih h).mono fun q hq => List.mem_append_left [p] hq

/-- Without loss the flag is set by a failure for good. -/
theorem failed_of_event (hbase : w.depTemplate baseCbuild = .ok base) (hcont : o.bulkcont = true)
    (hnl : NoLoss o w r base) (ps rest : List Str) (hsplit : r.sorted = ps ++ rest)
    (htold : Told o w r.rpkgs ps) (hevent : FailsAmong o w r ps) :
    (ps.foldl (parseStep o w) (parseStart o w r base)).failed = true := by
  induction ps using List.reverseRecOn generalizing rest with
  | nil =>
      refine (parseStart_failed hbase htold.base).mpr ?_
      rcases hevent with hr | hB | ⟨q, hq, _⟩
      · exact .inl hr
      · exact .inr hB
      · contradiction
  | append_singleton ps p ih =>
      have hsplit' : r.sorted = ps ++ p :: rest := by
        rw [hsplit, List.append_assoc]
        rfl
      have htold' : Told o w r.rpkgs ps := htold.mono fun q hq => List.mem_append_left [p] hq
      rw [List.foldl_append, List.foldl_cons, List.foldl_nil]
      obtain ⟨hparsed, _⟩ := parsed_upTo hbase ps (p :: rest) hsplit' (.inl hcont) htold'
      obtain ⟨_, hverdict⟩ := hparsed.step (mem_prefix_iff hsplit') (.inr hcont)
        (htold.requests p (by simp))
      by_cases hf : Fails o w r.rpkgs p
      · cases hverdict with
        | fails _ h _ _ => exact h
        | broken hbr _ _ _ => exact absurd hf hbr.not_fails
        | accepted hacc _ _ _ _ _ => exact absurd hacc hf.not_accepted
      · refine hnl ps p rest hsplit' (ih (p :: rest) hsplit' htold' ?_)
        rcases hevent with hr | hB | ⟨q, hq, hqf⟩
        · exact .inl hr
        · exact .inr (.inl hB)
        · rcases List.mem_append.mp hq with hq | hq
          · exact .inr (.inr ⟨q, hq, hqf⟩)
          · rw [List.mem_singleton.mp hq] at hqf
            exact absurd hqf hf

/-- The flag survives the parse loop when no broken request follows a failure. -/
theorem noLoss_iff (hbase : w.depTemplate baseCbuild = .ok base) (htold : ¬ Leaves o w pkgs) :
    NoLoss o w (resolve o w pkgs) base ↔ (o.bulkcont = true →
      ∀ b ∈ requested o w pkgs, Broken w b → ¬ Failure o w pkgs (· < b)) := by
  -- the state in which the loop comes to a request
  have hstep : ∀ ps p rest, o.bulkcont = true →
      (resolve o w pkgs).sorted = ps ++ p :: rest → Told o w (requested o w pkgs) ps ∧
        Verdict o w (requested o w pkgs) p
          (ps.foldl (parseStep o w) (parseStart o w (resolve o w pkgs) base))
          (parseStep o w (ps.foldl (parseStep o w) (parseStart o w (resolve o w pkgs) base)) p) := by
    intro ps p rest hcont hsplit
    have hesc := mt (leaves_iff o w pkgs).mpr htold
    have hnext : (resolve o w pkgs).sorted = (ps ++ [p]) ++ rest := by simp [hsplit]
    have hall := told_of_live hesc hnext (.inl hcont)
    have hps := hall.mono fun q hq => List.mem_append_left [p] hq
    obtain ⟨hparsed, _⟩ := parsed_upTo hbase ps (p :: rest) hsplit (.inl hcont) hps
    exact ⟨hps, (hparsed.step (mem_prefix_iff hsplit) (.inr hcont)
      (hall.requests p (by simp))).2⟩
  constructor
  · intro hnl hcont b hb hbr hbefore
    obtain ⟨ps, rest, hsplit⟩ := List.append_of_mem ((mem_sorted _ b).mpr hb)
    obtain ⟨hps, hverdict⟩ := hstep ps b rest hcont hsplit
    have hset := failed_of_event hbase hcont hnl ps (b :: rest) hsplit hps
      ((failsAmong_iff hsplit).mpr hbefore)
    have hkept := hnl ps b rest hsplit hset
    cases hverdict with
    | fails hf _ _ _ => exact hbr.not_fails hf
    | broken _ h _ _ =>
        rw [h] at hkept
        contradiction
    | accepted hacc _ _ _ _ _ => exact hbr.not_walkable hacc.1
  · intro h
    cases hcont : o.bulkcont with
    | false => exact noLoss_of_stopping hcont
    | true =>
        intro ps p rest hsplit hset
        obtain ⟨hps, hverdict⟩ := hstep ps p rest hcont hsplit
        cases hverdict with
        | fails _ h _ _ => exact h
        | accepted _ _ _ h _ _ =>
            rw [h]
            exact hset
        | broken hbr _ _ _ =>
            have hp : p ∈ requested o w pkgs := (mem_sorted _ p).mp (by rw [hsplit]; simp)
            refine absurd ?_ (h hcont p hp hbr)
            exact (failsAmong_iff hsplit).mp
              (event_of_failed hbase ps (p :: rest) hsplit (.inl hcont) hps hset)

/-- A loop that is left before anything has failed never has the flag set. -/
theorem noLoss_of_left (hbase : w.depTemplate baseCbuild = .ok base) (hleft : Leaves o w pkgs)
    (hclean : LeftClean o w pkgs base) : NoLoss o w (resolve o w pkgs) base := by
  have hsame : ∀ (s : Parsing) (q : Str), s.escaped = true →
      Kept s.failed (parseStep o w s q).failed := by
    intro s q hout hset
    unfold parseStep
    rw [if_pos hout]
    exact hset
  intro ps q rest hsplit hset
  by_cases hB : BaseRaises o w
  · have hout := (parseStart_escaped_iff (r := resolve o w pkgs) hbase).mpr hB
    rw [foldl_parseStep_left ps _ hout] at hset ⊢
    exact hsame _ q hout hset
  · obtain ⟨pre, p, post, hpre, hlive, htold, hraise⟩ :=
      exists_first_raises hB ((leaves_iff o w pkgs).mp hleft)
    have hnone : ¬ FailsAmong o w (resolve o w pkgs) pre := by
      rw [failsAmong_iff hpre]
      refine (hclean.request hB p ((mem_sorted _ p).mp (by rw [hpre]; simp)) hraise ?_).1
      exact fun x hx hlt => htold.requests x ((mem_prefix_iff hpre x).mpr ⟨hx, hlt⟩)
    have hbefore : (∀ x ∈ ps, x ∈ pre) → False := by
      intro hsub
      exact hnone ((event_of_failed hbase ps (q :: rest) hsplit (hlive.mono hsub)
        (htold.mono hsub) hset).mono hsub)
    rcases List.append_eq_append_iff.mp (hpre.symm.trans hsplit) with ⟨a, hps, hrest⟩ | ⟨c, hc, _⟩
    · cases a with
      | nil => exact (hbefore (by simp [hps])).elim
      | cons p' a =>
          -- the loop has been left by now
          cases hrest
          obtain ⟨s, _, failed, _, _, _, _, hout⟩ := parseAll_left hbase hpre hlive htold hraise
          rw [hps, hout] at hset ⊢
          exact hsame _ q rfl hset
    · exact (hbefore fun x hx => by rw [hc]; exact List.mem_append_left c hx).elim

/-! ## The whole trace -/

theorem buildStep_kept (s : Building) (pn : Str) : Kept s.failed (buildStep o w s pn).failed := by
  intro hs
  generalize hs' : buildStep o w s pn = s'
  have hcase := buildStep_cases o w s pn
  rw [hs'] at hcase
  cases hcase with
  | skipped _ _ => exact hs
  | ok _ _ => exact hs
  | failed _ _ _ => rfl

theorem isChain_buildTrace (b : Parsing) (l : List Str) :
    (buildTrace o w b l).IsChain Kept := by
  unfold buildTrace
  split
  · rw [List.isChain_map, isChain_scanl_iff]
    exact fun ps pn rest _ => buildStep_kept _ pn
  · exact List.isChain_nil

theorem head?_buildTrace (b : Parsing) (l : List Str) :
    ∀ x ∈ (buildTrace o w b l).head?, x = b.failed := by
  unfold buildTrace
  split
  · simp
  · simp

/-- The trace never goes from set to cleared outside the parse loop. -/
theorem kept_iff (hbase : w.depTemplate baseCbuild = .ok base) :
    (flagTrace o w pkgs ordl).Pairwise Kept ↔ NoLoss o w (resolve o w pkgs) base := by
  rw [← List.isChain_iff_pairwise]
  simp only [flagTrace, hbase, List.isChain_append, List.isChain_map, isChain_scanl_iff]
  constructor
  · intro h
    exact h.2.1.1
  · intro h
    refine ⟨fun ps pn rest _ => resolveStep_failed _ pn, ⟨h, isChain_buildTrace _ _, ?_⟩, ?_⟩
    · intro x hx y hy hset
      have hlast : x = (parseAll o w (resolve o w pkgs) base).failed := by
        rw [List.getLast?_map, List.getLast?_scanl] at hx
        exact (Option.some.inj hx).symm
      rw [head?_buildTrace _ _ y hy, ← hlast]
      exact hset
    · intro x hx y hy hset
      have hlast : x = (resolve o w pkgs).failed := by
        rw [List.getLast?_map, List.getLast?_scanl] at hx
        exact (Option.some.inj hx).symm
      have hhead : y = (parseStart o w (resolve o w pkgs) base).failed := by
        simpa [List.head?_append, eq_comm] using hy
      rw [hhead]
      exact parseStart_kept hbase (hlast ▸ hset)

theorem kept_of_baseError {e : Exn} (hbase : w.depTemplate baseCbuild = .error e) :
    (flagTrace o w pkgs ordl).Pairwise Kept := by
  rw [← List.isChain_iff_pairwise]
  simp only [flagTrace, hbase, List.append_nil, List.isChain_map, isChain_scanl_iff]
  exact fun ps pn rest _ => resolveStep_failed _ pn

/-! ## How a run ends -/

/-- The failures before the third loop that have a line. -/
theorem failureLine_all_iff (hbase : w.depTemplate baseCbuild = .ok base)
    (htold : ¬ Leaves o w pkgs) (hgo : o.bulkcont = true ∨ NoFailure o w (resolve o w pkgs)) :
    (∃ a ∈ (parseAll o w (resolve o w pkgs) base).status, FailureWord a.2) ∨ BaseFails o w ↔
      ¬ NoFailure o w (resolve o w pkgs) := by
  have hsplit : (resolve o w pkgs).sorted = (resolve o w pkgs).sorted ++ [] :=
    (List.append_nil _).symm
  have hlive := live_sorted hgo
  have hall := told_of_live (mt (leaves_iff o w pkgs).mpr htold) hsplit hlive
  rw [parseAll, failureLine_iff hbase _ [] hsplit hlive hall, noFailure_iff, not_not, FailsAmong,
    Failure, resolve_failed_iff]
  simp only [mem_sorted, requested, true_and]

/-- Lines that report failures are written by failures. -/
theorem not_noFailure_of_line (hbase : w.depTemplate baseCbuild = .ok base)
    (htold : ¬ Leaves o w pkgs) {a : Str × Status}
    (ha : a ∈ (parseAll o w (resolve o w pkgs) base).status) (hst : FailureWord a.2) :
    ¬ NoFailure o w (resolve o w pkgs) :=
  fun hno => (failureLine_all_iff hbase htold (.inr hno)).mp (.inl ⟨a, ha, hst⟩) hno

/-- Failures before the third loop are reported. -/
theorem someFailure_of_not_noFailure (hcont : o.bulkcont = true)
    (hbase : w.depTemplate baseCbuild = .ok base) (htold : ¬ Leaves o w pkgs)
    (hno : ¬ NoFailure o w (resolve o w pkgs)) :
    (∃ a ∈ (parseAll o w (resolve o w pkgs) base).status, FailureWord a.2) ∨ BaseFails o w :=
  (failureLine_all_iff hbase htold (.inl hcont)).mpr hno

/-- Without loss a failure is still known after the parse loop. -/
theorem failed_of_not_noFailure (hbase : w.depTemplate baseCbuild = .ok base)
    (hesc : ¬ Escapes o w r) (hnl : NoLoss o w r base) (hno : ¬ NoFailure o w r) :
    (parseAll o w r base).failed = true := by
  cases hcont : o.bulkcont with
  | false => exact (parseAll_stop hcont hbase hesc hno).2.1
  | true =>
      have hsplit : r.sorted = r.sorted ++ [] := (List.append_nil _).symm
      have htold := told_of_live hesc hsplit (.inl hcont)
      refine failed_of_event hbase hcont hnl r.sorted [] hsplit htold ?_
      by_contra hnone
      obtain ⟨hr, hrest⟩ := not_or.mp hnone
      obtain ⟨hB, hall⟩ := not_or.mp hrest
      exact hno ⟨Bool.eq_false_iff.mpr hr, hB,
        fun q hq hf => hall ⟨q, (mem_sorted r q).mpr hq, hf⟩⟩

/-- Without loss a run that gets to its end raises for every failure. -/
theorem finish_raises (hbase : w.depTemplate baseCbuild = .ok base) (htold : ¬ Leaves o w pkgs)
    (hnl : NoLoss o w (resolve o w pkgs) base) (l : List Str)
    (hfail : SomeFailure o w (finish o w (parseAll o w (resolve o w pkgs) base) l)) :
    (finish o w (parseAll o w (resolve o w pkgs) base) l).ending = .bulkFailed := by
  obtain ⟨lines, hstatus, _, _, hwords, hending⟩ :=
    finish_lines o w (parseAll o w (resolve o w pkgs) base) l
  have hset := failed_of_not_noFailure hbase (mt (leaves_iff o w pkgs).mpr htold) hnl
  have hends : (finish o w (parseAll o w (resolve o w pkgs) base) l).ending ≠ .depsError true := by
    rw [hending]
    split <;> exact Ending.noConfusion
  rw [hending, if_pos]
  rcases hfail with ⟨a, ha, hst⟩ | ⟨hB, _⟩ | ⟨e, he⟩ | hdeps
  · rw [hstatus, List.mem_append] at ha
    rcases ha with ha | ha
    · by_cases hp : Proceeds o (parseAll o w (resolve o w pkgs) base)
      · rw [listing_eq hp] at ha
        rcases List.mem_append.mp ha with ha | ha
        · exact .inl (hset (not_noFailure_of_line hbase htold ha hst))
        · -- the third loop only reports what is done
          obtain ⟨pn, _, heq⟩ := List.mem_map.mp ha
          rw [← heq] at hst
          simp [FailureWord] at hst
      · rw [listing_stop hp] at ha
        exact .inl (hset (not_noFailure_of_line hbase htold ha hst))
    · by_cases hb : (parseAll o w (resolve o w pkgs) base).failed = true
      · exact .inl hb
      · refine .inr ⟨a, ha, ?_⟩
        rcases hwords a ha with hw | hw | hw
        · rw [hw] at hst
          simp [FailureWord] at hst
        · exact hw
        · rw [hw] at hst
          simp [FailureWord] at hst
  · exact .inl (hset (fun hno => hno.base hB))
  · rw [hbase] at he
    contradiction
  · exact absurd hdeps hends

/-- A run that is not left by an exception forgets no failure exactly when no broken request
follows one in a run that goes on after failures, and such a run finds no cycle; one that is left
does so before anything fails; `base-cbuild` parses or fails with `CbuildException`. -/
def FlagSafe (o : Opts) (w : World) (pkgs : List Str) : Prop :=
  match w.depTemplate baseCbuild with
  | .error e => e = .cbuildException
  | .ok base => (Leaves o w pkgs → LeftClean o w pkgs base) ∧
      (¬ Leaves o w pkgs → o.bulkcont = true →
        (∀ b ∈ requested o w pkgs, Broken w b → ¬ Failure o w pkgs (· < b)) ∧
        (o.doRaw = false →
          Acyclic (OrderEdge w (requested o w pkgs)) ∨ ¬ Failure o w pkgs (fun _ => True)))

theorem flagSound_baseError_iff {e : Exn} (hbase : w.depTemplate baseCbuild = .error e) :
    FlagSound o w pkgs ordl ↔ e = .cbuildException := by
  have hend : (bulkpkg o w pkgs ordl).ending = .baseError e := by
    simp only [bulkpkg, hbase]
  constructor
  · intro h
    have hraise := (h.raises (.inr (.inr (.inl ⟨e, hbase⟩)))).1
    rw [hend] at hraise
    cases e with
    | cbuildException => rfl
    | other => contradiction
  · intro he
    refine ⟨fun _ => ?_, kept_of_baseError hbase⟩
    rw [hend, he]
    exact ⟨rfl, Ending.noConfusion⟩

/-- A run that is left raises a foreign exception, so nothing may have failed. -/
theorem flagSound_left_iff (hbase : w.depTemplate baseCbuild = .ok base)
    (hleft : Leaves o w pkgs) : FlagSound o w pkgs ordl ↔ LeftClean o w pkgs base := by
  have hout := (parseAll_escaped_iff hbase).mpr ((leaves_iff o w pkgs).mp hleft)
  have hend : (bulkpkg o w pkgs ordl).ending =
      .depsError (parseAll o w (resolve o w pkgs) base).failed := by
    simp [bulkpkg, hbase, hout]
  have hstatus : (bulkpkg o w pkgs ordl).status =
      (parseAll o w (resolve o w pkgs) base).status := by
    simp [bulkpkg, hbase, hout]
  have hfail : SomeFailure o w (bulkpkg o w pkgs ordl) ↔ ¬ LeftClean o w pkgs base := by
    rw [← saysFailure_iff hbase hleft, SomeFailure, SaysFailure, hend, hstatus]
    simp [hbase]
  constructor
  · intro h
    by_contra hno
    have hraise := (h.raises (hfail.mpr hno)).1
    rw [hend] at hraise
    contradiction
  · intro h
    exact ⟨fun hsome => absurd h (hfail.mp hsome),
      (kept_iff hbase).mpr (noLoss_of_left hbase hleft h)⟩

theorem orderGraph_pred (hraw : o.doRaw = false) (hbase : w.depTemplate baseCbuild = .ok base)
    (htold : ¬ Leaves o w pkgs) (hgo : o.bulkcont = true ∨ NoFailure o w (resolve o w pkgs)) :
    (orderGraph o w pkgs).Pred = OrderEdge w (requested o w pkgs) := by
  funext n d
  exact propext (orderGraph_pred_iff hraw hbase htold hgo n d)

/-- A run that goes on after failures ends in a cycle if there is one, whatever has been
reported. -/
theorem bulkpkg_of_cyclic (hordl : o.doRaw = false → SorterYields (orderGraph o w pkgs) ordl)
    (hbase : w.depTemplate baseCbuild = .ok base) (htold : ¬ Leaves o w pkgs)
    (hcont : o.bulkcont = true) (hraw : o.doRaw = false)
    (hcyclic : ¬ Acyclic (OrderEdge w (requested o w pkgs))) :
    (bulkpkg o w pkgs ordl).ending = .cycleError ∧
      (bulkpkg o w pkgs ordl).status = (parseAll o w (resolve o w pkgs) base).status := by
  have hnone : ordl = none := by
    cases hl : ordl with
    | none => rfl
    | some l =>
        have hyields := hordl hraw
        rw [hl] at hyields
        have hpred := orderGraph_pred hraw hbase htold (.inl hcont)
        exact absurd (hpred ▸ TopoOrder.acyclic hyields) hcyclic
  have hin : ¬ (parseAll o w (resolve o w pkgs) base).escaped = true :=
    fun h => htold ((leaves_iff o w pkgs).mpr ((parseAll_escaped_iff hbase).mp h))
  simp [bulkpkg, hbase, hin, hraw, hcont, hnone]

/-- A run that does not raise for a cycle has found none, or nothing has failed. -/
theorem FlagSound.acyclic_or (h : FlagSound o w pkgs ordl)
    (hordl : o.doRaw = false → SorterYields (orderGraph o w pkgs) ordl)
    (hbase : w.depTemplate baseCbuild = .ok base) (htold : ¬ Leaves o w pkgs)
    (hcont : o.bulkcont = true) (hraw : o.doRaw = false) :
    Acyclic (OrderEdge w (requested o w pkgs)) ∨ NoFailure o w (resolve o w pkgs) := by
  by_contra hnone
  obtain ⟨hcyclic, hno⟩ := not_or.mp hnone
  have hend := bulkpkg_of_cyclic hordl hbase htold hcont hraw hcyclic
  have hreturns : ¬ BaseRaises o w := fun hB => htold (.inl hB)
  have hfail : SomeFailure o w (bulkpkg o w pkgs ordl) := by
    rcases someFailure_of_not_noFailure hcont hbase htold hno with hline | hB
    · exact .inl (by rw [hend.2]; exact hline)
    · exact .inr (.inl ⟨hB, hreturns⟩)
  have hraise := (h.raises hfail).1
  rw [hend.1] at hraise
  contradiction

theorem raises_of_noLoss (hordl : o.doRaw = false → SorterYields (orderGraph o w pkgs) ordl)
    (hbase : w.depTemplate baseCbuild = .ok base) (htold : ¬ Leaves o w pkgs)
    (hnl : NoLoss o w (resolve o w pkgs) base)
    (hacyclic : o.bulkcont = true → o.doRaw = false →
      Acyclic (OrderEdge w (requested o w pkgs)) ∨ NoFailure o w (resolve o w pkgs))
    (hfail : SomeFailure o w (bulkpkg o w pkgs ordl)) :
    (bulkpkg o w pkgs ordl).ending.raisesCbuildException = true ∧
      (bulkpkg o w pkgs ordl).ending ≠ .returned true := by
  have hcase := bulkpkg_cases o w pkgs ordl
  generalize hrun : bulkpkg o w pkgs ordl = run at hcase
  rw [hrun] at hfail
  cases hcase with
  | baseError e he =>
      rw [hbase] at he
      contradiction
  | escaped b _ hesc => exact absurd ((leaves_iff o w pkgs).mpr hesc) htold
  | raw b hb _ _ | stopped b hb _ _ _ | sorted b hb _ _ _ _ _ =>
      rw [hbase] at hb
      cases hb
      rw [finish_raises hbase htold hnl _ hfail]
      exact ⟨rfl, Ending.noConfusion⟩
  | cycle b hb hesc hraw hgo hnone =>
      rw [hbase] at hb
      cases hb
      have hgo' := (proceeds_iff hbase hesc).mp hgo
      have hyields := hordl hraw
      rw [hnone] at hyields
      have hcyclic := sorterYields_none hyields
      rw [orderGraph_pred hraw hbase htold hgo'] at hcyclic
      have hno : NoFailure o w (resolve o w pkgs) := by
        rcases hgo' with hcont | hno
        · exact (hacyclic hcont hraw).resolve_left hcyclic
        · exact hno
      rcases hfail with ⟨a, ha, hst⟩ | ⟨hB, _⟩ | ⟨e, he⟩ | hdeps
      · exact absurd hno (not_noFailure_of_line hbase htold ha hst)
      · exact absurd hB hno.base
      · rw [hbase] at he
        contradiction
      · contradiction

theorem flagSound_iff (hordl : o.doRaw = false → SorterYields (orderGraph o w pkgs) ordl) :
    FlagSound o w pkgs ordl ↔ FlagSafe o w pkgs := by
  cases hbase : w.depTemplate baseCbuild with
  | error e =>
      have hsafe : FlagSafe o w pkgs ↔ e = .cbuildException := by
        rw [FlagSafe, hbase]
      rw [hsafe]
      exact flagSound_baseError_iff hbase
  | ok base =>
      by_cases hleft : Leaves o w pkgs
      · have hsafe : FlagSafe o w pkgs ↔ LeftClean o w pkgs base := by
          simp [FlagSafe, hbase, hleft]
        rw [hsafe]
        exact flagSound_left_iff hbase hleft
      · have hsafe : FlagSafe o w pkgs ↔ NoLoss o w (resolve o w pkgs) base ∧
            (o.bulkcont = true → o.doRaw = false →
              Acyclic (OrderEdge w (requested o w pkgs)) ∨ NoFailure o w (resolve o w pkgs)) := by
          simp only [FlagSafe, hbase, hleft, noLoss_iff hbase hleft, noFailure_iff,
            not_false_eq_true, forall_true_left, false_implies, true_and]
          exact forall_and
        rw [hsafe]
        constructor
        · intro h
          exact ⟨(kept_iff hbase).mp h.kept, h.acyclic_or hordl hbase hleft⟩
        · intro h
          exact ⟨raises_of_noLoss hordl hbase hleft h.1 h.2, (kept_iff hbase).mpr h.1⟩

/-- `main/a` does not parse and `main/b` is broken. -/
def failureThenBroken : World where
  sanitizePkgname := fun pn => .found "main".toList (pn.drop 5)
  bulkTemplate := fun pn =>
    if pn = "main/a".toList then .error .other else .ok ⟨some [], true, none, none⟩
  depTemplate := baseOnly
  tree := {baseCbuild}
  depTemplate_mem := baseOnly_mem
  isBuilt := fun _ => false
  build := fun _ _ => .ok ()

def twoNames : List Str := ["main/a".toList, "main/b".toList]

/-- `bulk-pkg` that stops at the first failure. -/
def stopping : Opts := ⟨false, false, false, false, .build⟩

theorem failureThenBroken_sorted (o : Opts) (ho : o = continuing ∨ o = stopping) :
    (resolve o failureThenBroken twoNames).sorted = twoNames := by
  have hr : (resolve o failureThenBroken twoNames).rpkgs = twoNames.toFinset := by
    rcases ho with rfl | rfl
    · decide
    · decide
  exact sorted_eq twoNames hr (by decide)

theorem tellsAll_failureThenBroken : TellsAll failureThenBroken where
  deps := by
    intro n ⟨t, ht, hnone⟩
    simp only [World.readDep, failureThenBroken, baseOnly] at ht
    split at ht
    · cases ht
      contradiction
    · contradiction
  requests := by
    intro p t ht
    simp only [failureThenBroken] at ht
    split at ht
    · contradiction
    · cases ht
      exact Option.some_ne_none _

theorem flagSound_failureThenBroken :
    FlagSound stopping failureThenBroken twoNames (some [baseCbuild]) := by
  refine (flagSound_iff fun _ => ?_).mpr
    ⟨fun hleft => absurd hleft (tellsAll_failureThenBroken.not_leaves _),
      fun _ hcont => Bool.noConfusion hcont⟩
  have hgraph : orderGraph stopping failureThenBroken twoNames = ⟨[(baseCbuild, [])]⟩ := by
    simp only [orderGraph, parseAll, failureThenBroken_sorted stopping (.inr rfl)]
    decide
  rw [hgraph, SorterYields]
  decide

/-- With `bulk_continue` the failure of `main/a` is forgotten at `main/b`, and the run ends by
unstaging. -/
theorem failureThenBroken_not_flagSound :
    SorterYields (orderGraph continuing failureThenBroken twoNames) (some [baseCbuild]) ∧
      ¬ FlagSound continuing failureThenBroken twoNames (some [baseCbuild]) := by
  have hsorted := failureThenBroken_sorted continuing (.inl rfl)
  refine ⟨?_, fun h => ?_⟩
  · have hgraph : orderGraph continuing failureThenBroken twoNames = ⟨[(baseCbuild, [])]⟩ := by
      simp only [orderGraph, parseAll, hsorted]
      decide
    rw [hgraph, SorterYields]
    decide
  · have hrun : (bulkpkg continuing failureThenBroken twoNames (some [baseCbuild])).status =
        [("main/a".toList, .parse), ("main/b".toList, .broken)] ∧
        (bulkpkg continuing failureThenBroken twoNames (some [baseCbuild])).ending =
          .returned true := by
      simp only [bulkpkg, parseAll, hsorted]
      decide
    refine (h.raises (.inl ⟨("main/a".toList, .parse), ?_, .inr (.inr (.inl rfl))⟩)).2 hrun.2
    rw [hrun.1]
    decide

end Cbuild.Bulk
