import Cbuild.Bulk.Record

/-! # Listing and building

What the last two loops of `_bulkpkg` do with a given order and a given record,
and how a run is put together from its loops.
-/

namespace Cbuild.Bulk

variable {o : Opts} {w : World}

/-- Reported as `done` by the third loop. -/
def isDone (o : Opts) (w : World) (templates : List (Str × Tmpl)) (pn : Str) : Bool :=
  (templates.lookup pn).isSome && (!o.force && w.isBuilt pn)

/-- The list entry the third loop makes for a name. -/
def listed (o : Opts) (w : World) (templates : List (Str × Tmpl)) (pn : Str) : Option Str :=
  match templates.lookup pn with
  | none => none
  | some tp => if o.force = false ∧ w.isBuilt pn = true then none else some (o.display pn tp)

theorem foldl_listStep (templates : List (Str × Tmpl)) (l : List Str) (s : Listing) :
    l.foldl (listStep o w templates) s =
      ⟨s.status ++ (l.filter (isDone o w templates)).map (fun pn => (pn, .done)),
        s.flist ++ l.filterMap (listed o w templates)⟩ := by
  induction l generalizing s with
  | nil => simp
  | cons pn l ih =>
      rw [List.foldl_cons, ih]
      cases hl : templates.lookup pn with
      | none =>
          have hd : isDone o w templates pn = false := by simp [isDone, hl]
          have hi : listed o w templates pn = none := by simp [listed, hl]
          simp [listStep, hl, hd, hi]
      | some tp =>
          by_cases hb : o.force = false ∧ w.isBuilt pn = true
          · have hd : isDone o w templates pn = true := by simp [isDone, hl, hb]
            have hi : listed o w templates pn = none := by simp [listed, hl, hb]
            simp [listStep, hl, hd, hi, hb]
          · have hd : isDone o w templates pn = false := by
              simpa [isDone, hl] using hb
            have hi : listed o w templates pn = some (o.display pn tp) := by
              simp only [listed, hl, if_neg hb]
            simp [listStep, hl, hd, hi, hb]

/-- The list shows names as they are unless it is printed with versions. -/
theorem display_eq (h : o.doBuild ≠ .print true) (pn : Str) (tp : Tmpl) :
    o.display pn tp = pn := by
  unfold Opts.display
  split
  · rename_i heq _ _
    exact absurd heq h
  · rfl

theorem listed_eq_some_iff (h : o.doBuild ≠ .print true) (templates : List (Str × Tmpl))
    (pn q : Str) : listed o w templates pn = some q ↔
      q = pn ∧ (templates.lookup pn).isSome = true ∧ ¬ (o.force = false ∧ w.isBuilt pn = true) := by
  unfold listed
  cases hl : templates.lookup pn with
  | none => simp
  | some tp =>
      by_cases hb : o.force = false ∧ w.isBuilt pn = true
      · simp [hb]
      · simp only [hb, if_false, display_eq h, Option.isSome_some, not_false_eq_true, and_true,
          Option.some.injEq]
        exact eq_comm

theorem isDone_iff (templates : List (Str × Tmpl)) (pn : Str) :
    isDone o w templates pn = true ↔
      (templates.lookup pn).isSome = true ∧ o.force = false ∧ w.isBuilt pn = true := by
  simp [isDone]

/-! ## The build loop -/

/-- The ways an iteration over `pn` can take `s`. -/
inductive BuildCase (o : Opts) (w : World) (s : Building) (pn : Str) : Building → Prop
  | skipped (hfailed : s.failed = true) (hcont : o.bulkcont = false) :
      BuildCase o w s pn ⟨s.status ++ [(pn, .skipped)], s.failed, s.attempts⟩
  | ok (hlive : s.failed = false ∨ o.bulkcont = true) (hb : w.build s.attempts pn = .ok ()) :
      BuildCase o w s pn ⟨s.status ++ [(pn, .ok)], s.failed, s.attempts ++ [pn]⟩
  | failed (hlive : s.failed = false ∨ o.bulkcont = true) (e : Exn)
      (hb : w.build s.attempts pn = .error e) :
      BuildCase o w s pn ⟨s.status ++ [(pn, .failed)], true, s.attempts ++ [pn]⟩

theorem buildStep_cases (o : Opts) (w : World) (s : Building) (pn : Str) :
    BuildCase o w s pn (buildStep o w s pn) := by
  unfold buildStep
  by_cases hskip : s.failed = true ∧ o.bulkcont = false
  · rw [if_pos hskip]
    exact .skipped hskip.1 hskip.2
  · rw [if_neg hskip]
    have hlive : s.failed = false ∨ o.bulkcont = true := by
      cases hf : s.failed with
      | false => exact .inl rfl
      | true =>
          refine .inr (Bool.eq_true_of_not_eq_false fun hc => hskip ⟨hf, hc⟩)
    cases hb : w.build s.attempts pn with
    | ok u => exact .ok hlive hb
    | error e => exact .failed hlive e hb

/-- The lines of the build loop, one for each entry of the list. -/
structure Built (o : Opts) (s : Building) (l : List Str) (s' : Building) : Prop where
  status : ∃ lines : List (Str × Status), s'.status = s.status ++ lines ∧
    lines.map Prod.fst = l ∧
    (∀ a ∈ lines, a.2 = .ok ∨ a.2 = .failed ∨ a.2 = .skipped) ∧
    (s'.failed = true ↔ s.failed = true ∨ ∃ a ∈ lines, a.2 = .failed)
  attempts : ∀ pn ∈ s'.attempts, pn ∈ s.attempts ∨ pn ∈ l

theorem built_foldl (o : Opts) (w : World) (l : List Str) (s : Building) :
    Built o s l (l.foldl (buildStep o w) s) := by
  induction l using List.reverseRecOn with
  | nil => exact ⟨⟨[], by simp⟩, fun pn h => .inl h⟩
  | append_singleton l pn ih =>
      rw [List.foldl_append, List.foldl_cons, List.foldl_nil]
      generalize l.foldl (buildStep o w) s = s₁ at ih ⊢
      obtain ⟨⟨lines, hst, hmap, hwords, hflag⟩, hatt⟩ := ih
      have hattempt : ∀ q ∈ s₁.attempts ++ [pn], q ∈ s.attempts ∨ q ∈ l ++ [pn] := by
        intro q hq
        rcases List.mem_append.mp hq with hq | hq
        · rcases hatt q hq with hq | hq
          · exact .inl hq
          · exact .inr (List.mem_append_left _ hq)
        · exact .inr (List.mem_append_right _ hq)
      generalize hs₂ : buildStep o w s₁ pn = s₂
      have hcase := buildStep_cases o w s₁ pn
      rw [hs₂] at hcase
      cases hcase with
      | skipped hfailed _ =>
          refine ⟨⟨lines ++ [(pn, .skipped)], by simp [hst], by simp [hmap], ?_, ?_⟩, ?_⟩
          · simpa [or_imp, forall_and] using hwords
          · simpa [or_and_right, exists_or] using hflag
          · exact fun q hq => hattempt q (List.mem_append_left _ hq)
      | ok _ _ =>
          refine ⟨⟨lines ++ [(pn, .ok)], by simp [hst], by simp [hmap], ?_, ?_⟩, hattempt⟩
          · simpa [or_imp, forall_and] using hwords
          · simpa [or_and_right, exists_or] using hflag
      | failed _ e _ =>
          refine ⟨⟨lines ++ [(pn, .failed)], by simp [hst], by simp [hmap], ?_, ?_⟩, hattempt⟩
          · simpa [or_imp, forall_and] using hwords
          · simp

/-- The lines the build loop writes. -/
def buildLines (o : Opts) (w : World) (failed : Bool) (l : List Str) : List (Str × Status) :=
  (l.foldl (buildStep o w) ⟨[], failed, []⟩).status

/-- What the build loop writes does not depend on what has been written, and depends on the
flag only if the loop may skip. -/
theorem buildStep_status {s s' : Building} {st : List (Str × Status)} (pn : Str)
    (hstatus : s.status = st ++ s'.status) (hatt : s.attempts = s'.attempts)
    (hf : s.failed = s'.failed ∨ o.bulkcont = true) :
    (buildStep o w s pn).status = st ++ (buildStep o w s' pn).status ∧
      (buildStep o w s pn).attempts = (buildStep o w s' pn).attempts ∧
      ((buildStep o w s pn).failed = (buildStep o w s' pn).failed ∨ o.bulkcont = true) := by
  have hskip : (s.failed = true ∧ o.bulkcont = false) ↔ (s'.failed = true ∧ o.bulkcont = false) := by
    rcases hf with hf | hf
    · rw [hf]
    · simp [hf]
  unfold buildStep
  by_cases hs : s.failed = true ∧ o.bulkcont = false
  · rw [if_pos hs, if_pos (hskip.mp hs)]
    exact ⟨by simp [hstatus], hatt, hf⟩
  · rw [if_neg hs, if_neg (fun h => hs (hskip.mpr h)), hatt]
    cases w.build s'.attempts pn with
    | ok u => exact ⟨by simp [hstatus], rfl, hf⟩
    | error e => exact ⟨by simp [hstatus], rfl, .inl rfl⟩

theorem foldl_buildStep_status (l : List Str) (s s' : Building) {st : List (Str × Status)}
    (hstatus : s.status = st ++ s'.status) (hatt : s.attempts = s'.attempts)
    (hf : s.failed = s'.failed ∨ o.bulkcont = true) :
    (l.foldl (buildStep o w) s).status = st ++ (l.foldl (buildStep o w) s').status := by
  induction l generalizing s s' with
  | nil => exact hstatus
  | cons pn l ih =>
      obtain ⟨h₁, h₂, h₃⟩ := buildStep_status pn hstatus hatt hf
      exact ih _ _ h₁ h₂ h₃

/-! ## A run put together -/

/-- The third loop is entered. -/
def Proceeds (o : Opts) (b : Parsing) : Prop := b.failed = false ∨ o.bulkcont = true

theorem listing_eq {b : Parsing} (hp : Proceeds o b) (l : List Str) :
    listing o w b l = ⟨b.status ++ (l.filter (isDone o w b.templates)).map (fun pn => (pn, .done)),
      l.filterMap (listed o w b.templates)⟩ := by
  rw [listing, if_pos (show b.failed = false ∨ o.bulkcont = true from hp), foldl_listStep,
    List.nil_append]

theorem listing_stop {b : Parsing} (hp : ¬ Proceeds o b) (l : List Str) :
    listing o w b l = ⟨b.status, []⟩ := if_neg hp

/-- Everything on the list comes from the order and the record. -/
theorem mem_flist (hv : o.doBuild ≠ .print true) (b : Parsing) (l : List Str) (q : Str) :
    q ∈ (listing o w b l).flist ↔ Proceeds o b ∧ q ∈ l ∧ (b.templates.lookup q).isSome = true ∧
      ¬ (o.force = false ∧ w.isBuilt q = true) := by
  by_cases hp : Proceeds o b
  · rw [listing_eq hp]
    simp only [List.mem_filterMap, listed_eq_some_iff hv, hp, true_and]
    constructor
    · intro h
      obtain ⟨a, ha, hqa, hrest⟩ := h
      rw [hqa]
      exact ⟨ha, hrest⟩
    · intro h
      exact ⟨q, h.1, rfl, h.2⟩
  · rw [listing_stop hp]
    simp [hp]

/-- What the build loop adds to a run whose list is made over `l`. -/
theorem finish_lines (o : Opts) (w : World) (b : Parsing) (l : List Str) :
    ∃ lines : List (Str × Status),
      (finish o w b l).status = (listing o w b l).status ++ lines ∧
      (Proceeds o b → o.doBuild = .build →
        lines = buildLines o w b.failed (listing o w b l).flist) ∧
      lines.map Prod.fst = (if o.doBuild = .build then (listing o w b l).flist else []) ∧
      (∀ a ∈ lines, a.2 = .ok ∨ a.2 = .failed ∨ a.2 = .skipped) ∧
      (finish o w b l).ending =
        if b.failed = true ∨ ∃ a ∈ lines, a.2 = .failed then .bulkFailed
        else .returned (decide (o.stage = false ∧ o.doBuild = .build)) := by
  by_cases hgo : (b.failed = false ∨ o.bulkcont = true) ∧ o.doBuild = .build
  · have hbuilding : building o w b (listing o w b l) = (listing o w b l).flist.foldl
        (buildStep o w) ⟨(listing o w b l).status, b.failed, []⟩ := if_pos hgo
    obtain ⟨lines, hstatus, hmap, hwords, hflag⟩ :=
      (built_foldl o w (listing o w b l).flist ⟨(listing o w b l).status, b.failed, []⟩).status
    rw [← hbuilding] at hstatus hflag
    have hlines : lines = buildLines o w b.failed (listing o w b l).flist := by
      have hfrom := foldl_buildStep_status (o := o) (w := w) (listing o w b l).flist
        ⟨(listing o w b l).status, b.failed, []⟩ ⟨[], b.failed, []⟩
        (List.append_nil _).symm rfl (.inl rfl)
      rw [hbuilding] at hstatus
      exact List.append_cancel_left (hstatus.symm.trans hfrom)
    refine ⟨lines, hstatus, fun _ _ => hlines, by rw [if_pos hgo.2, hmap], hwords, ?_⟩
    change (if (building o w b (listing o w b l)).failed = true then _ else _) = _
    simp only [hflag]
  · have hbuilding : building o w b (listing o w b l) =
        ⟨(listing o w b l).status, b.failed, []⟩ := if_neg hgo
    refine ⟨[], ?_, fun hp hb => absurd ⟨hp, hb⟩ hgo, ?_, by simp, ?_⟩
    · change (building o w b (listing o w b l)).status = _
      rw [hbuilding, List.append_nil]
    · by_cases hb : o.doBuild = .build
      · have hno : ¬ Proceeds o b := fun hp => hgo ⟨hp, hb⟩
        rw [if_pos hb, listing_stop hno]
        rfl
      · rw [if_neg hb]
        rfl
    · change (if (building o w b (listing o w b l)).failed = true then _ else _) = _
      rw [hbuilding]
      simp

/-- Only what is on the list is built. -/
theorem mem_attempts (b : Parsing) (l : List Str) (q : Str)
    (h : q ∈ (finish o w b l).attempts) :
    o.doBuild = .build ∧ q ∈ (listing o w b l).flist := by
  change q ∈ (building o w b (listing o w b l)).attempts at h
  unfold building at h
  split at h
  · rename_i hgo
    rcases (built_foldl o w _ _).attempts q h with hq | hq
    · contradiction
    · exact ⟨hgo.2, hq⟩
  · contradiction

theorem lookup_isSome_iff (templates : List (Str × Tmpl)) (q : Str) :
    (templates.lookup q).isSome = true ↔ ∃ t, (q, t) ∈ templates := by
  induction templates with
  | nil => simp
  | cons a l ih =>
      obtain ⟨n, t⟩ := a
      by_cases hq : q = n
      · subst hq
        simp only [List.lookup_cons, BEq.rfl, Option.isSome_some, true_iff]
        exact ⟨t, List.mem_cons_self ..⟩
      · have hne : (q == n) = false := beq_eq_false_iff_ne.mpr hq
        simp [List.lookup_cons, hne, ih, hq]

/-- The ways a run can go once the names are resolved. -/
inductive RunCase (o : Opts) (w : World) (pkgs : List Str) (ordl : Option (List Str)) : Run → Prop
  | baseError (e : Exn) (hbase : w.depTemplate baseCbuild = .error e) :
      RunCase o w pkgs ordl ⟨(resolve o w pkgs).status, [], [], [], [], .baseError e⟩
  | escaped (base : Tmpl) (hbase : w.depTemplate baseCbuild = .ok base)
      (hesc : Escapes o w (resolve o w pkgs)) :
      RunCase o w pkgs ordl ⟨(parseAll o w (resolve o w pkgs) base).status,
        (parseAll o w (resolve o w pkgs) base).templates, [], [], [],
        .depsError (parseAll o w (resolve o w pkgs) base).failed⟩
  | raw (base : Tmpl) (hbase : w.depTemplate baseCbuild = .ok base)
      (hesc : ¬ Escapes o w (resolve o w pkgs)) (hraw : o.doRaw = true) :
      RunCase o w pkgs ordl (finish o w (parseAll o w (resolve o w pkgs) base) pkgs)
  | stopped (base : Tmpl) (hbase : w.depTemplate baseCbuild = .ok base)
      (hesc : ¬ Escapes o w (resolve o w pkgs)) (hraw : o.doRaw = false)
      (hstop : ¬ Proceeds o (parseAll o w (resolve o w pkgs) base)) :
      RunCase o w pkgs ordl (finish o w (parseAll o w (resolve o w pkgs) base) [])
  | cycle (base : Tmpl) (hbase : w.depTemplate baseCbuild = .ok base)
      (hesc : ¬ Escapes o w (resolve o w pkgs)) (hraw : o.doRaw = false)
      (hgo : Proceeds o (parseAll o w (resolve o w pkgs) base)) (hordl : ordl = none) :
      RunCase o w pkgs ordl ⟨(parseAll o w (resolve o w pkgs) base).status,
        (parseAll o w (resolve o w pkgs) base).templates, [], [], [], .cycleError⟩
  | sorted (base : Tmpl) (hbase : w.depTemplate baseCbuild = .ok base)
      (hesc : ¬ Escapes o w (resolve o w pkgs)) (hraw : o.doRaw = false)
      (hgo : Proceeds o (parseAll o w (resolve o w pkgs) base)) (l : List Str)
      (hordl : ordl = some l) :
      RunCase o w pkgs ordl (finish o w (parseAll o w (resolve o w pkgs) base) l)

theorem bulkpkg_cases (o : Opts) (w : World) (pkgs : List Str) (ordl : Option (List Str)) :
    RunCase o w pkgs ordl (bulkpkg o w pkgs ordl) := by
  unfold bulkpkg
  cases hbase : w.depTemplate baseCbuild with
  | error e => exact .baseError e hbase
  | ok base =>
      dsimp only
      by_cases hout : (parseAll o w (resolve o w pkgs) base).escaped = true
      · rw [if_pos hout]
        exact .escaped base hbase ((parseAll_escaped_iff hbase).mp hout)
      rw [if_neg hout]
      have hesc : ¬ Escapes o w (resolve o w pkgs) :=
        fun h => hout ((parseAll_escaped_iff hbase).mpr h)
      by_cases hraw : o.doRaw = true
      · rw [if_pos hraw]
        exact .raw base hbase hesc hraw
      · have hraw' : o.doRaw = false := Bool.eq_false_iff.mpr hraw
        rw [if_neg hraw]
        by_cases hstop : (parseAll o w (resolve o w pkgs) base).failed = true ∧ o.bulkcont = false
        · rw [if_pos hstop]
          refine .stopped base hbase hesc hraw' (fun hgo => ?_)
          rcases hgo with hgo | hgo
          · rw [hstop.1] at hgo
            contradiction
          · rw [hstop.2] at hgo
            contradiction
        · rw [if_neg hstop]
          have hgo : Proceeds o (parseAll o w (resolve o w pkgs) base) := by
            rw [not_and_or, Bool.not_eq_true, Bool.not_eq_false] at hstop
            exact hstop
          cases ordl with
          | none => exact .cycle base hbase hesc hraw' hgo rfl
          | some l => exact .sorted base hbase hesc hraw' hgo l rfl

theorem bulkpkg_templates {base : Tmpl} (hbase : w.depTemplate baseCbuild = .ok base)
    (pkgs : List Str) (ordl : Option (List Str)) :
    (bulkpkg o w pkgs ordl).templates = (parseAll o w (resolve o w pkgs) base).templates := by
  generalize hrun : bulkpkg o w pkgs ordl = run
  have hcase := bulkpkg_cases o w pkgs ordl
  rw [hrun] at hcase
  cases hcase with
  | baseError e he =>
      rw [hbase] at he
      contradiction
  | escaped b hb _ | raw b hb _ _ | stopped b hb _ _ _ | cycle b hb _ _ _ _
  | sorted b hb _ _ _ _ _ =>
      rw [hbase] at hb
      cases hb
      rfl

/-- Only what has been recorded is built. -/
theorem bulkpkg_attempts (pkgs : List Str) (ordl : Option (List Str)) (q : Str)
    (h : q ∈ (bulkpkg o w pkgs ordl).attempts) :
    ∃ t, (q, t) ∈ (bulkpkg o w pkgs ordl).templates := by
  have hfin : ∀ (b : Parsing) (l : List Str), q ∈ (finish o w b l).attempts →
      ∃ t, (q, t) ∈ (finish o w b l).templates := by
    intro b l hq
    obtain ⟨hbuild, hq⟩ := mem_attempts b l q hq
    have hv : o.doBuild ≠ .print true := by
      rw [hbuild]
      exact DoBuild.noConfusion
    exact (lookup_isSome_iff _ q).mp ((mem_flist hv b l q).mp hq).2.2.1
  generalize hrun : bulkpkg o w pkgs ordl = run at h ⊢
  have hcase := bulkpkg_cases o w pkgs ordl
  rw [hrun] at hcase
  cases hcase with
  | baseError e he => contradiction
  | escaped b hb _ => contradiction
  | cycle b hb _ _ _ _ => contradiction
  | raw b hb _ _ | stopped b hb _ _ _ | sorted b hb _ _ _ _ _ => exact hfin _ _ h

end Cbuild.Bulk
