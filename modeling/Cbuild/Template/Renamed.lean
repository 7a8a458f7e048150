import Mathlib.Data.List.Induction

/-! # Renaming in place, each new name once

A text is renamed line by line. On each line all pairs of an old and a new name are
gone through, in one order for the whole text: every occurrence of the old name on the
line becomes the new one, unless it is the same or has been used before. The pairs are
those of the names in the text, in order, so that each occurrence has a pair of its own.
A name may be changed by the pair of another one, and be missed by its own.
-/

namespace Cbuild.Renamed

variable {α : Type*} [DecidableEq α]

/-- The names of a line, and the new names that have been used. -/
structure Line (α : Type*) where
  used : List α
  names : List α

/-- One pair on a line. -/
def pairStep (s : Line α) (p : α × α) : Line α :=
  if p.1 = p.2 ∨ p.2 ∈ s.used then s
  else if p.1 ∈ s.names then
    ⟨p.2 :: s.used, s.names.map fun v => if v = p.1 then p.2 else v⟩
  else s

def lineRun (pairs : List (α × α)) (s : Line α) : Line α := pairs.foldl pairStep s

/-- All lines: what has been used in the end, and the names. -/
def linesRun (pairs : List (α × α)) : List α → List (List α) → List α × List (List α)
  | used, [] => (used, [])
  | used, names :: rest =>
      let s := lineRun pairs ⟨used, names⟩
      let r := linesRun pairs s.used rest
      (r.1, s.names :: r.2)

/-! ## What one line can come to -/

variable {pairs : List (α × α)} {s : Line α} {used : List α}

theorem lineRun_append (d e : List (α × α)) (s : Line α) :
    lineRun (d ++ e) s = lineRun e (lineRun d s) := List.foldl_append

def rename (p : α × α) (v : α) : α := if v = p.1 then p.2 else v

/-- The pair is used on the line. -/
structure Fires (s : Line α) (p : α × α) : Prop where
  ne : p.1 ≠ p.2
  fresh : p.2 ∉ s.used
  mem : p.1 ∈ s.names

theorem pairStep_of_fires {p : α × α} (h : Fires s p) :
    pairStep s p = ⟨p.2 :: s.used, s.names.map (rename p)⟩ := by
  have hgo : ¬ (p.1 = p.2 ∨ p.2 ∈ s.used) := not_or.mpr ⟨h.ne, h.fresh⟩
  unfold pairStep
  rw [if_neg hgo, if_pos h.mem]
  rfl

theorem pairStep_of_not {p : α × α} (h : ¬ Fires s p) : pairStep s p = s := by
  unfold pairStep
  split
  · rfl
  next hgo =>
    rw [not_or] at hgo
    split
    next hmem => exact absurd ⟨hgo.1, hgo.2, hmem⟩ h
    next => rfl

theorem pairStep_used (s : Line α) (p : α × α) : s.used ⊆ (pairStep s p).used := by
  by_cases h : Fires s p
  · rw [pairStep_of_fires h]
    exact List.subset_cons_self _ _
  · rw [pairStep_of_not h]
    exact List.Subset.refl _

theorem lineRun_used (pairs : List (α × α)) (s : Line α) : s.used ⊆ (lineRun pairs s).used := by
  induction pairs generalizing s with
  | nil => exact List.Subset.refl _
  | cons p pairs ih => exact List.Subset.trans (pairStep_used s p) (ih (pairStep s p))

/-- Equal names stay equal, and a name that has been used is not entered any more. -/
theorem lineRun_names (pairs : List (α × α)) (s : Line α) :
    ∃ φ : α → α, (lineRun pairs s).names = s.names.map φ ∧ ∀ v, φ v = v ∨ φ v ∉ s.used := by
  induction pairs generalizing s with
  | nil => exact ⟨id, by simp [lineRun], fun v => Or.inl rfl⟩
  | cons p pairs ih =>
      obtain ⟨φ, hφ, hfresh⟩ := ih (pairStep s p)
      show ∃ ψ, (lineRun pairs (pairStep s p)).names = _ ∧ _
      rw [hφ]
      by_cases h : Fires s p
      · rw [pairStep_of_fires h] at hfresh ⊢
        have hkeep : ∀ w, φ w = w ∨ φ w ∉ s.used := fun w =>
          (hfresh w).imp id fun hnot hw => hnot (List.mem_cons_of_mem _ hw)
        refine ⟨fun v => φ (rename p v), List.map_map, ?_⟩
        intro v
        show φ (rename p v) = v ∨ φ (rename p v) ∉ s.used
        unfold rename
        by_cases hv : v = p.1
        · rw [if_pos hv]
          rcases hkeep p.2 with heq | hnot
          · right
            rw [heq]
            exact h.fresh
          · exact Or.inr hnot
        · rw [if_neg hv]
          exact hkeep v
      · rw [pairStep_of_not h] at hfresh ⊢
        exact ⟨φ, rfl, hfresh⟩

/-- Nothing happens on a line where no pair is used. -/
theorem lineRun_eq_self (h : ∀ p ∈ pairs, ¬ Fires s p) : lineRun pairs s = s := by
  induction pairs with
  | nil => rfl
  | cons p pairs ih =>
      show lineRun pairs (pairStep s p) = s
      rw [pairStep_of_not (h p List.mem_cons_self)]
      exact ih fun q hq => h q (List.mem_cons_of_mem p hq)

/-- Where none of the new names that are needed is used in the end, no pair is. -/
theorem not_fires_of_unused (h : ∀ p ∈ pairs, p.1 ≠ p.2 → p.2 ∉ (lineRun pairs s).used) :
    ∀ p ∈ pairs, ¬ Fires s p := by
  induction pairs generalizing s with
  | nil => simp
  | cons p pairs ih =>
      have hnot : ¬ Fires s p := by
        intro hf
        apply h p List.mem_cons_self hf.ne
        apply lineRun_used pairs (pairStep s p)
        rw [pairStep_of_fires hf]
        exact List.mem_cons_self
      have hrun : lineRun (p :: pairs) s = lineRun pairs s := by
        show lineRun pairs (pairStep s p) = _
        rw [pairStep_of_not hnot]
      rw [hrun] at h
      intro q hq
      rcases List.mem_cons.mp hq with rfl | hq
      · exact hnot
      · exact ih (fun t ht => h t (List.mem_cons_of_mem p ht)) q hq

/-! ## One line with its own pairs -/

/-- What the line looks like after the pairs `d`, if all goes well. -/
def moved (row d : List (α × α)) : List α :=
  row.map fun p => if p.1 ∈ d.map Prod.fst then p.2 else p.1

/-- `u` has the new names of `d` besides those of `used`. -/
def Uses (used : List α) (d : List (α × α)) (u : List α) : Prop :=
  ∀ x, x ∈ u ↔ x ∈ used ∨ ∃ p ∈ d, p.1 ≠ p.2 ∧ p.2 = x

/-- The pairs of a line do not get into each other's way. -/
structure RowOk (used : List α) (row : List (α × α)) : Prop where
  /-- A new name that is needed has not been used on an earlier line. -/
  unused : ∀ p ∈ row, p.1 ≠ p.2 → p.2 ∉ used
  /-- Equal names become equal. -/
  same : ∀ p ∈ row, ∀ q ∈ row, p.1 = q.1 → p.2 = q.2
  /-- Different names do not become equal. -/
  apart : ∀ p ∈ row, ∀ q ∈ row, p.1 ≠ p.2 → q.1 ≠ q.2 → p.2 = q.2 → p.1 = q.1
  /-- A name is not taken for the new name of an earlier one. -/
  order : ∀ d p e, row = d ++ p :: e → p.1 ≠ p.2 → (∃ q ∈ d, q.2 = p.1) → ∃ q ∈ d, q.1 = p.1

variable {row d : List (α × α)} {u : List α}

theorem moved_nil (row : List (α × α)) : moved row [] = row.map Prod.fst := by
  simp [moved]

theorem moved_self (row : List (α × α)) : moved row row = row.map Prod.snd := by
  unfold moved
  apply List.map_congr_left
  intro p hp
  rw [if_pos (List.mem_map_of_mem hp)]

omit [DecidableEq α] in
theorem uses_nil (used : List α) : Uses used [] used := by
  intro x
  simp

omit [DecidableEq α] in
theorem Uses.concat_of_fires {p : α × α} (h : Uses used d u) (hne : p.1 ≠ p.2) :
    Uses used (d ++ [p]) (p.2 :: u) := by
  intro x
  rw [List.mem_cons, h x]
  constructor
  · rintro (rfl | hx | ⟨q, hq, hx⟩)
    · exact Or.inr ⟨p, by simp, hne, rfl⟩
    · exact Or.inl hx
    · exact Or.inr ⟨q, by simp [hq], hx⟩
  · rintro (hx | ⟨q, hq, hqne, rfl⟩)
    · exact Or.inr (Or.inl hx)
    · rcases List.mem_append.mp hq with hq | hq
      · exact Or.inr (Or.inr ⟨q, hq, hqne, rfl⟩)
      · rw [List.mem_singleton.mp hq]
        exact Or.inl rfl

omit [DecidableEq α] in
theorem Uses.concat_of_mem {p : α × α} (h : Uses used d u) (hp : p.1 = p.2 ∨ p.2 ∈ u) :
    Uses used (d ++ [p]) u := by
  intro x
  rw [h x]
  constructor
  · rintro (hx | ⟨q, hq, hx⟩)
    · exact Or.inl hx
    · exact Or.inr ⟨q, by simp [hq], hx⟩
  · rintro (hx | ⟨q, hq, hqne, rfl⟩)
    · exact Or.inl hx
    · rcases List.mem_append.mp hq with hq | hq
      · exact Or.inr ⟨q, hq, hqne, rfl⟩
      · rw [List.mem_singleton.mp hq] at hqne ⊢
        rcases hp with heq | hmem
        · exact absurd heq hqne
        · exact (h _).mp hmem

omit [DecidableEq α] in
theorem mem_fst_concat {p : α × α} {x : α} :
    x ∈ (d ++ [p]).map Prod.fst ↔ x ∈ d.map Prod.fst ∨ x = p.1 := by
  rw [List.map_append, List.mem_append, List.map_singleton, List.mem_singleton]

theorem moved_concat_of_mem {p : α × α} (h : p.1 ∈ d.map Prod.fst) :
    moved row (d ++ [p]) = moved row d := by
  unfold moved
  apply List.map_congr_left
  intro q _
  have hiff : q.1 ∈ (d ++ [p]).map Prod.fst ↔ q.1 ∈ d.map Prod.fst := by
    rw [mem_fst_concat]
    constructor
    · rintro (hq | hq)
      · exact hq
      · rw [hq]
        exact h
    · exact Or.inl
  simp only [hiff]

/-- What a pair meets that does not get into the way of the pairs before it. -/
structure Clear (row d : List (α × α)) (u : List α) (p : α × α) : Prop where
  same : ∀ q ∈ row, q.1 = p.1 → q.2 = p.2
  moved : p.1 ≠ p.2 → p.2 ∈ u → p.1 ∈ d.map Prod.fst
  apart : p.1 ≠ p.2 → p.2 ∉ u → ∀ q ∈ row, q.1 ∈ d.map Prod.fst → q.2 ≠ p.1

/-- One pair of the line. -/
theorem pairStep_moved {p : α × α} (hd : d ⊆ row) (hp : p ∈ row) (hu : Uses used d u)
    (hclear : Clear row d u p) : ∃ u', pairStep ⟨u, moved row d⟩ p = ⟨u', moved row (d ++ [p])⟩ ∧
      Uses used (d ++ [p]) u' := by
  by_cases hne : p.1 = p.2
  · have hnot : ¬ Fires ⟨u, moved row d⟩ p := fun hf => hf.ne hne
    have hsame : moved row (d ++ [p]) = moved row d := by
      unfold moved
      apply List.map_congr_left
      intro q hq
      by_cases hqp : q.1 = p.1
      · have hq2 : q.2 = q.1 := by rw [hclear.same q hq hqp, hqp, hne]
        rw [hq2, ite_self, ite_self]
      · simp only [mem_fst_concat, hqp, or_false]
    refine ⟨u, ?_, hu.concat_of_mem (Or.inl hne)⟩
    rw [pairStep_of_not hnot, hsame]
  · by_cases hmem : p.2 ∈ u
    · have hnot : ¬ Fires ⟨u, moved row d⟩ p := fun hf => hf.fresh hmem
      refine ⟨u, ?_, hu.concat_of_mem (Or.inr hmem)⟩
      rw [pairStep_of_not hnot, moved_concat_of_mem (hclear.moved hne hmem)]
    · have hnotin : p.1 ∉ d.map Prod.fst := by
        intro hin
        obtain ⟨q, hq, hqp⟩ := List.mem_map.mp hin
        have hq2 := hclear.same q (hd hq) hqp
        apply hmem
        rw [hu p.2]
        exact Or.inr ⟨q, hq, by rw [hqp, hq2]; exact hne, hq2⟩
      have hfires : Fires ⟨u, moved row d⟩ p := by
        refine ⟨hne, hmem, ?_⟩
        exact List.mem_map.mpr ⟨p, hp, by rw [if_neg hnotin]⟩
      refine ⟨p.2 :: u, ?_, hu.concat_of_fires hne⟩
      rw [pairStep_of_fires hfires]
      congr 1
      unfold moved
      rw [List.map_map]
      apply List.map_congr_left
      intro q hq
      show rename p (if q.1 ∈ d.map Prod.fst then q.2 else q.1) = _
      by_cases hin : q.1 ∈ d.map Prod.fst
      · have hq2 := hclear.apart hne hmem q hq hin
        rw [if_pos hin, if_pos (mem_fst_concat.mpr (Or.inl hin)), rename, if_neg hq2]
      · rw [if_neg hin, rename]
        by_cases hqp : q.1 = p.1
        · rw [if_pos hqp, if_pos (mem_fst_concat.mpr (Or.inr hqp)), hclear.same q hq hqp]
        · have hout : q.1 ∉ (d ++ [p]).map Prod.fst := by
            rw [mem_fst_concat, not_or]
            exact ⟨hin, hqp⟩
          rw [if_neg hqp, if_neg hout]

/-- The pairs of a line one after the other, where each of them is clear. -/
theorem lineRun_moved (row : List (α × α)) (used : List α)
    (hclear : ∀ d p e u, row = d ++ p :: e → Uses used d u →
      lineRun d ⟨used, row.map Prod.fst⟩ = ⟨u, moved row d⟩ → Clear row d u p) :
    ∀ d e, row = d ++ e → ∃ u, lineRun d ⟨used, row.map Prod.fst⟩ = ⟨u, moved row d⟩ ∧
      Uses used d u := by
  intro d
  induction d using List.reverseRecOn with
  | nil =>
      intro e _
      exact ⟨used, by rw [moved_nil]; rfl, uses_nil used⟩
  | append_singleton d p ih =>
      intro e hrow
      have hrow' : row = d ++ p :: e := by rw [hrow, List.append_assoc]; rfl
      obtain ⟨u, hrun, hu⟩ := ih (p :: e) hrow'
      have hd : d ⊆ row := by
        rw [hrow']
        exact List.subset_append_left _ _
      have hp : p ∈ row := by
        rw [hrow']
        simp
      obtain ⟨u', hstep, hu'⟩ := pairStep_moved hd hp hu (hclear d p e u hrow' hu hrun)
      refine ⟨u', ?_, hu'⟩
      rw [lineRun_append, hrun]
      exact hstep

omit [DecidableEq α] in
theorem RowOk.clear (h : RowOk used row) {p : α × α} {e : List (α × α)} (hrow : row = d ++ p :: e)
    (hu : Uses used d u) : Clear row d u p := by
  have hp : p ∈ row := by
    rw [hrow]
    simp
  have hd : d ⊆ row := by
    rw [hrow]
    exact List.subset_append_left _ _
  constructor
  · intro q hq hqp
    exact h.same q hq p hp hqp
  · intro hne hmem
    rcases (hu p.2).mp hmem with hused | ⟨q, hq, hqne, hqp⟩
    · exact absurd hused (h.unused p hp hne)
    · exact List.mem_map.mpr ⟨q, hq, h.apart q (hd hq) p hp hqne hne hqp⟩
  · intro hne hmem q hq hin heq
    obtain ⟨r, hr, hrq⟩ := List.mem_map.mp hin
    have hr2 : r.2 = p.1 := by rw [h.same r (hd hr) q hq hrq, heq]
    obtain ⟨t, ht, htp⟩ := h.order d p e hrow hne ⟨r, hr, hr2⟩
    have ht2 : t.2 = p.2 := h.same t (hd ht) p hp htp
    apply hmem
    rw [hu p.2]
    exact Or.inr ⟨t, ht, by rw [htp, ht2]; exact hne, ht2⟩

/-- The line comes out right, whatever it has been started with. -/
theorem RowOk.run (h : RowOk used row) : ∃ u, lineRun row ⟨used, row.map Prod.fst⟩ =
    ⟨u, row.map Prod.snd⟩ ∧ Uses used row u := by
  obtain ⟨u, hrun, hu⟩ := lineRun_moved row used (fun d p e u hrow hu _ => h.clear hrow hu) row []
    (by rw [List.append_nil])
  rw [moved_self] at hrun
  exact ⟨u, hrun, hu⟩

/-! ## A line that comes out right -/

/-- Names that are equal now are to be equal in the end, and what is still to be entered has not
been used. -/
theorem names_of_run {f : α × α → α}
    (hrun : (lineRun pairs ⟨u, row.map f⟩).names = row.map Prod.snd) :
    (∀ p ∈ row, ∀ q ∈ row, f p = f q → p.2 = q.2) ∧ ∀ p ∈ row, f p ≠ p.2 → p.2 ∉ u := by
  obtain ⟨φ, hφ, hfresh⟩ := lineRun_names pairs ⟨u, row.map f⟩
  rw [hrun, List.map_map] at hφ
  have hval : ∀ p ∈ row, p.2 = φ (f p) := List.map_inj_left.mp hφ
  constructor
  · intro p hp q hq heq
    rw [hval p hp, hval q hq, heq]
  · intro p hp hne
    rcases hfresh (f p) with h | h
    · exact absurd (h.symm.trans (hval p hp).symm) hne
    · rw [hval p hp]
      exact h

/-- In a line that comes out right each pair is clear. -/
theorem clear_of_run (hrun : (lineRun row ⟨used, row.map Prod.fst⟩).names = row.map Prod.snd)
    {p : α × α} {e : List (α × α)} (hrow : row = d ++ p :: e) (hu : Uses used d u)
    (hd : lineRun d ⟨used, row.map Prod.fst⟩ = ⟨u, moved row d⟩) : Clear row d u p := by
  have hp : p ∈ row := by
    rw [hrow]
    simp
  have hdrow : d ⊆ row := by
    rw [hrow]
    exact List.subset_append_left _ _
  have hrest : (lineRun (p :: e) ⟨u, moved row d⟩).names = row.map Prod.snd := by
    rw [← hd, ← lineRun_append, ← hrow]
    exact hrun
  obtain ⟨hequal, hlate⟩ := names_of_run hrest
  have hstart := (names_of_run hrun).1
  constructor
  · intro q hq hqp
    exact hstart q hq p hp hqp
  · intro hne hmem
    by_contra hin
    apply hlate p hp _ hmem
    rw [if_neg hin]
    exact hne
  · intro hne hmem q hq hin heq
    have hpin : p.1 ∉ d.map Prod.fst := by
      intro hpin
      obtain ⟨r, hr, hrp⟩ := List.mem_map.mp hpin
      have hr2 : r.2 = p.2 := hstart r (hdrow hr) p hp hrp
      apply hmem
      rw [hu p.2]
      exact Or.inr ⟨r, hr, by rw [hrp, hr2]; exact hne, hr2⟩
    have hqp := hequal q hq p hp (by rw [if_pos hin, if_neg hpin, heq])
    exact hne (heq.symm.trans hqp)

/-- The pairs before a place are clear, and what follows them comes out right as well. -/
theorem rest_of_run (hrun : (lineRun row ⟨used, row.map Prod.fst⟩).names = row.map Prod.snd)
    {e : List (α × α)} (hrow : row = d ++ e) : ∃ u, Uses used d u ∧
      (lineRun e ⟨u, moved row d⟩).names = row.map Prod.snd := by
  obtain ⟨u, hd, hu⟩ := lineRun_moved row used
    (fun d p e u hrow hu hd => clear_of_run hrun hrow hu hd) d e hrow
  refine ⟨u, hu, ?_⟩
  rw [← hd, ← lineRun_append, ← hrow]
  exact hrun

/-- Once a new name is used, nothing else can become it. -/
theorem mem_of_run (hrun : (lineRun row ⟨used, row.map Prod.fst⟩).names = row.map Prod.snd)
    {p q : α × α} (hp : p ∈ row) (hq : q ∈ row) (hpne : p.1 ≠ p.2) (hqne : q.1 ≠ q.2)
    (heq : p.2 = q.2) {e : List (α × α)} (hrow : row = d ++ e) (hin : p.1 ∈ d.map Prod.fst) :
    q.1 ∈ d.map Prod.fst := by
  obtain ⟨u, hu, hrest⟩ := rest_of_run hrun hrow
  by_contra hout
  obtain ⟨r, hr, hrp⟩ := List.mem_map.mp hin
  have hrrow : r ∈ row := by
    rw [hrow]
    exact List.mem_append_left _ hr
  have hr2 : r.2 = p.2 := (names_of_run hrun).1 r hrrow p hp hrp
  apply (names_of_run hrest).2 q hq
  · rw [if_neg hout]
    exact hqne
  · rw [hu q.2]
    exact Or.inr ⟨r, hr, by rw [hrp, hr2]; exact hpne, hr2.trans heq⟩

/-- The first pair on a line with one of two old names. -/
theorem exists_first {p : α × α} (hp : p ∈ row) (y : α) :
    ∃ d r e, row = d ++ r :: e ∧ (r.1 = p.1 ∨ r.1 = y) ∧
      ∀ x, (x = p.1 ∨ x = y) → x ∉ d.map Prod.fst := by
  have hex : ∃ t ∈ row, decide (t.1 = p.1 ∨ t.1 = y) = true := ⟨p, hp, by simp⟩
  obtain ⟨r, hfind⟩ := Option.isSome_iff_exists.mp (List.find?_isSome.mpr hex)
  obtain ⟨hr, d, e, hrow, hd⟩ := List.find?_eq_some_iff_append.mp hfind
  refine ⟨d, r, e, hrow, by simpa using hr, fun x hx hmem => ?_⟩
  obtain ⟨t, ht, rfl⟩ := List.mem_map.mp hmem
  have hno : ¬ (t.1 = p.1 ∨ t.1 = y) := by simpa using hd t ht
  exact hno hx

/-- The first of two old names of one new name on the line is that of both. -/
theorem apart_of_run (hrun : (lineRun row ⟨used, row.map Prod.fst⟩).names = row.map Prod.snd)
    {p q : α × α} (hp : p ∈ row) (hq : q ∈ row) (hpne : p.1 ≠ p.2) (hqne : q.1 ≠ q.2)
    (heq : p.2 = q.2) : p.1 = q.1 := by
  obtain ⟨d, r, e, hrow, hr, hnotin⟩ := exists_first hp q.1
  have hrow' : row = (d ++ [r]) ++ e := by rw [hrow, List.append_assoc]; rfl
  rcases hr with hr | hr
  · have hq' := mem_of_run hrun hp hq hpne hqne heq hrow' (mem_fst_concat.mpr (Or.inr hr.symm))
    rcases mem_fst_concat.mp hq' with h | h
    · exact absurd h (hnotin _ (Or.inr rfl))
    · exact hr.symm.trans h.symm
  · have hp' := mem_of_run hrun hq hp hqne hpne heq.symm hrow'
      (mem_fst_concat.mpr (Or.inr hr.symm))
    rcases mem_fst_concat.mp hp' with h | h
    · exact absurd h (hnotin _ (Or.inl rfl))
    · exact h.trans hr

theorem order_of_run (hrun : (lineRun row ⟨used, row.map Prod.fst⟩).names = row.map Prod.snd)
    {p : α × α} {e : List (α × α)} (hrow : row = d ++ p :: e) (hne : p.1 ≠ p.2)
    (hex : ∃ q ∈ d, q.2 = p.1) : ∃ q ∈ d, q.1 = p.1 := by
  obtain ⟨q, hq, hqp⟩ := hex
  obtain ⟨u, _, hrest⟩ := rest_of_run hrun hrow
  have hp : p ∈ row := by
    rw [hrow]
    simp
  have hqrow : q ∈ row := by
    rw [hrow]
    exact List.mem_append_left _ hq
  by_contra hnone
  have hpin : p.1 ∉ d.map Prod.fst := by
    intro hpin
    obtain ⟨r, hr, hrp⟩ := List.mem_map.mp hpin
    exact hnone ⟨r, hr, hrp⟩
  have hqp2 := (names_of_run hrest).1 q hqrow p hp
    (by rw [if_pos (List.mem_map_of_mem hq), if_neg hpin, hqp])
  exact hne (hqp.symm.trans hqp2)

theorem rowOk_of_run (hrun : (lineRun row ⟨used, row.map Prod.fst⟩).names = row.map Prod.snd) :
    RowOk used row where
  unused := (names_of_run hrun).2
  same := (names_of_run hrun).1
  apart := fun _ hp _ hq hpne hqne heq => apart_of_run hrun hp hq hpne hqne heq
  order := fun _ _ _ hrow hne hex => order_of_run hrun hrow hne hex

/-! ## All lines -/

/-- The pairs of no line get into the way of those of another. -/
structure RowsOk (rows : List (List (α × α))) : Prop where
  row : ∀ r ∈ rows, RowOk [] r
  /-- A name that is to be changed is not there as a new name before, and its new name is not
  needed on two lines. -/
  later : rows.Pairwise fun r r' => ∀ p ∈ r, ∀ q ∈ r', q.1 ≠ q.2 →
    p.2 ≠ q.1 ∧ (p.1 ≠ p.2 → p.2 ≠ q.2)

def olds (rows : List (List (α × α))) : List (List α) := rows.map fun r => r.map Prod.fst

def news (rows : List (List (α × α))) : List (List α) := rows.map fun r => r.map Prod.snd

variable {rows : List (List (α × α))}

/-- What has been used before is not needed any more where the lines come out right. -/
theorem unused_of_linesRun (h : (linesRun pairs u (olds rows)).2 = news rows) :
    ∀ q ∈ rows.flatten, q.1 ≠ q.2 → q.2 ∉ u := by
  induction rows generalizing u with
  | nil => simp
  | cons r rows ih =>
      have hcons := List.cons.inj h
      intro q hq hne
      rcases List.mem_append.mp hq with hq | hq
      · exact (names_of_run hcons.1).2 q hq hne
      · intro hmem
        exact ih hcons.2 q hq hne (lineRun_used pairs _ hmem)

omit [DecidableEq α] in
theorem Uses.append {u' : List α} {e : List (α × α)} (h : Uses used d u) (h' : Uses u e u') :
    Uses used (d ++ e) u' := by
  intro x
  rw [h' x, h x]
  simp only [List.mem_append, or_and_right, exists_or, or_assoc]

/-- On a line the pairs of earlier lines are not used any more. -/
theorem lineRun_of_uses (hu : Uses [] d u) (r : List (α × α)) (rest : List (List (α × α)))
    (names : List α) : lineRun (d ++ (r :: rest).flatten) ⟨u, names⟩ =
      lineRun rest.flatten (lineRun r ⟨u, names⟩) := by
  have hearly : lineRun d ⟨u, names⟩ = ⟨u, names⟩ := by
    apply lineRun_eq_self
    intro p hp hf
    exact hf.fresh ((hu p.2).mpr (Or.inr ⟨p, hp, hf.ne, rfl⟩))
  rw [List.flatten_cons, ← List.append_assoc, lineRun_append, lineRun_append, hearly]

/-- The lines that are left come out right after the pairs `d` of those before. -/
theorem linesRun_of_ok (rest : List (List (α × α))) (hu : Uses [] d u) (hrows : RowsOk rest)
    (hapart : ∀ p ∈ d, ∀ q ∈ rest.flatten, p.1 ≠ p.2 → q.1 ≠ q.2 → p.2 ≠ q.2) :
    ∃ u', linesRun (d ++ rest.flatten) u (olds rest) = (u', news rest) ∧
      Uses [] (d ++ rest.flatten) u' := by
  induction rest generalizing d u with
  | nil =>
      refine ⟨u, rfl, ?_⟩
      rw [List.flatten_nil, List.append_nil]
      exact hu
  | cons r rest ih =>
      have hfirst := List.pairwise_cons.mp hrows.later
      have hok : RowOk u r := by
        have hr := hrows.row r List.mem_cons_self
        refine ⟨?_, hr.same, hr.apart, hr.order⟩
        intro q hq hne hmem
        rcases (hu q.2).mp hmem with hnil | ⟨p, hp, hpne, heq⟩
        · cases hnil
        · exact hapart p hp q (List.mem_append_left _ hq) hpne hne heq
      obtain ⟨v, hrun, hv⟩ := hok.run
      have hlate : lineRun rest.flatten ⟨v, r.map Prod.snd⟩ = ⟨v, r.map Prod.snd⟩ := by
        apply lineRun_eq_self
        intro q hq hf
        obtain ⟨r', hr', hqr'⟩ := List.mem_flatten.mp hq
        obtain ⟨p, hp, heq⟩ := List.mem_map.mp hf.mem
        exact (hfirst.1 r' hr' p hp q hqr' hf.ne).1 heq
      have hrest : RowsOk rest := ⟨fun r' hr' => hrows.row r' (List.mem_cons_of_mem r hr'), hfirst.2⟩
      have hapart' : ∀ p ∈ d ++ r, ∀ q ∈ rest.flatten, p.1 ≠ p.2 → q.1 ≠ q.2 → p.2 ≠ q.2 := by
        intro p hp q hq hpne hqne
        rcases List.mem_append.mp hp with hp | hp
        · exact hapart p hp q (List.mem_append_right r hq) hpne hqne
        · obtain ⟨r', hr', hqr'⟩ := List.mem_flatten.mp hq
          exact (hfirst.1 r' hr' p hp q hqr' hqne).2 hpne
      obtain ⟨u', hlines, hu'⟩ := ih (hu.append hv) hrest hapart'
      have hpairs : d ++ (r :: rest).flatten = (d ++ r) ++ rest.flatten := by
        rw [List.flatten_cons, List.append_assoc]
      refine ⟨u', ?_, by rw [hpairs]; exact hu'⟩
      have hline : lineRun (d ++ (r :: rest).flatten) ⟨u, r.map Prod.fst⟩ =
          ⟨v, r.map Prod.snd⟩ := by rw [lineRun_of_uses hu, hrun, hlate]
      show ((linesRun _ (lineRun _ ⟨u, r.map Prod.fst⟩).used (olds rest)).1,
        (lineRun _ ⟨u, r.map Prod.fst⟩).names ::
          (linesRun _ (lineRun _ ⟨u, r.map Prod.fst⟩).used (olds rest)).2) =
        (u', r.map Prod.snd :: news rest)
      rw [hline, hpairs, hlines]

/-- If they do come out right, no pairs get into each other's way. -/
theorem ok_of_linesRun (rest : List (List (α × α))) (hu : Uses [] d u)
    (h : (linesRun (d ++ rest.flatten) u (olds rest)).2 = news rest) :
    RowsOk rest ∧ ∀ p ∈ d, ∀ q ∈ rest.flatten, p.1 ≠ p.2 → q.1 ≠ q.2 → p.2 ≠ q.2 := by
  induction rest generalizing d u with
  | nil => exact ⟨⟨by simp, List.Pairwise.nil⟩, by simp⟩
  | cons r rest ih =>
      have hpairs : d ++ (r :: rest).flatten = (d ++ r) ++ rest.flatten := by
        rw [List.flatten_cons, List.append_assoc]
      obtain ⟨hnames, hrest⟩ := List.cons.inj h
      rw [lineRun_of_uses hu, hpairs] at hrest
      rw [lineRun_of_uses hu] at hnames
      -- what later lines still need is not used on this one
      have hunused := unused_of_linesRun hrest
      have hnot := not_fires_of_unused hunused
      rw [lineRun_eq_self hnot] at hnames hrest hunused
      have hok : RowOk u r := rowOk_of_run hnames
      obtain ⟨v, hrun, hv⟩ := hok.run
      rw [hrun] at hrest hunused hnot
      obtain ⟨hrows, hapart⟩ := ih (hu.append hv) hrest
      refine ⟨⟨?_, List.pairwise_cons.mpr ⟨?_, hrows.later⟩⟩, ?_⟩
      · intro r' hr'
        rcases List.mem_cons.mp hr' with rfl | hr'
        · exact ⟨by simp, hok.same, hok.apart, hok.order⟩
        · exact hrows.row r' hr'
      · intro r' hr' p hp q hq hne
        have hqrest : q ∈ rest.flatten := List.mem_flatten.mpr ⟨r', hr', hq⟩
        constructor
        · intro heq
          exact hnot q hqrest ⟨hne, hunused q hqrest hne, List.mem_map.mpr ⟨p, hp, heq⟩⟩
        · intro hpne
          exact hapart p (List.mem_append_right d hp) q hqrest hpne hne
      · intro p hp q hq hpne hqne heq
        rcases List.mem_append.mp hq with hq | hq
        · apply hok.unused q hq hqne
          rw [hu q.2]
          exact Or.inr ⟨p, hp, hpne, heq⟩
        · exact hapart p (List.mem_append_left r hp) q hq hpne hqne heq

/-- All lines come out right exactly if no pairs get into each other's way. -/
theorem linesRun_iff (rows : List (List (α × α))) :
    (linesRun rows.flatten [] (olds rows)).2 = news rows ↔ RowsOk rows := by
  constructor
  · intro h
    exact (ok_of_linesRun rows (uses_nil []) h).1
  · intro h
    obtain ⟨u, hrun, -⟩ := linesRun_of_ok rows (uses_nil []) h (by simp)
    rw [List.nil_append] at hrun
    rw [hrun]

/-- In the end every pair has been used that is to change anything. -/
theorem linesRun_used (h : RowsOk rows) :
    ∀ p ∈ rows.flatten, p.1 ≠ p.2 → p.2 ∈ (linesRun rows.flatten [] (olds rows)).1 := by
  intro p hp hne
  obtain ⟨u, hrun, hu⟩ := linesRun_of_ok rows (uses_nil []) h (by simp)
  rw [List.nil_append] at hrun hu
  rw [hrun]
  exact (hu p.2).mpr (Or.inr ⟨p, hp, hne, rfl⟩)

end Cbuild.Renamed
