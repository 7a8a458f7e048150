import Cbuild.Stage.Unstage

/-! # The same rows in another order

What `apk` lists is put into a map from packages and repositories, the last row for a package and
a repository being the one that counts. From a list with the same rows in another order the map has
what some row of the first one says, for the same packages and repositories.
-/

namespace Cbuild.Stage

open Lib

def Row.Same (row row' : Row) : Prop :=
  row.name = row'.name ∧ row.values.Perm row'.values ∧ row.repositories.Perm row'.repositories

/-- Every row of either list is in the other one, what it lists in some order. -/
def Relisted (rows rows' : List Row) : Prop :=
  (∀ row ∈ rows, ∃ row' ∈ rows', row.Same row') ∧ ∀ row' ∈ rows', ∃ row ∈ rows, row.Same row'

/-- The same answers, listed in another order, also where the names in the question are. -/
structure Reordered (q q' : ApkAnswers) : Prop where
  providers : ∀ srs, Relisted (q.providers srs) (q'.providers srs)
  rdepends : ∀ l l', l.Perm l' → (q.rdepends l).Perm (q'.rdepends l')
  depends : ∀ l l', l.Perm l' → Relisted (q.depends l) (q'.depends l')
  search : ∀ d, (q.search d).Perm (q'.search d)

/-- Some row lists the package in the repository. -/
def Lists (rows : List Row) (p repo : Str) : Prop :=
  ∃ row ∈ rows, row.name = p ∧ repo ∈ row.repositories

instance (rows : List Row) (p repo : Str) : Decidable (Lists rows p repo) :=
  inferInstanceAs (Decidable (∃ row ∈ rows, _))

/-- The rows that list the package in the repository. -/
def rowsAt (rows : List Row) (p repo : Str) : List Row :=
  rows.filter fun row => row.name = p ∧ repo ∈ row.repositories

theorem mem_rowsAt {rows : List Row} {p repo : Str} {row : Row} :
    row ∈ rowsAt rows p repo ↔ row ∈ rows ∧ row.name = p ∧ repo ∈ row.repositories := by
  unfold rowsAt
  rw [List.mem_filter, decide_eq_true_iff]

theorem lists_of_mem_rowsAt {rows : List Row} {p repo : Str} {row : Row}
    (h : row ∈ rowsAt rows p repo) : Lists rows p repo :=
  ⟨row, mem_rowsAt.mp h⟩

theorem pySorted_eq_of_perm {l l' : List Str} (h : l.Perm l') : pySorted l = pySorted l' := by
  have hsorted : ∀ l : List Str, (pySorted l).Pairwise (· ≤ ·) := fun l =>
    List.pairwise_mergeSort' (· ≤ ·) l
  have hperm : (pySorted l).Perm (pySorted l') :=
    (List.mergeSort_perm l _).trans (h.trans (List.mergeSort_perm l' _).symm)
  exact hperm.eq_of_pairwise' (hsorted l) (hsorted l')

/-! ## The map of the rows -/

section

variable {rows rows' : List Row} {m : ByRepo}

/-- What the map has for a package and a repository. -/
def ByRepo.at (m : ByRepo) (p repo : Str) : Option (List Str) := (m.get p).bind fun x => x.get repo

theorem foldl_set_get (repos : List Str) (v : List Str) (x : Dict Str (List Str)) (repo : Str) :
    Dict.get (repos.foldl (fun x repo => x.set repo v) x) repo =
      if repo ∈ repos then some v else x.get repo := by
  induction repos generalizing x with
  | nil => simp
  | cons r repos ih =>
      rw [List.foldl_cons, ih, Dict.get_set]
      by_cases hmem : repo ∈ repos
      · simp [hmem]
      · by_cases hr : r = repo
        · simp [hr]
        · simp [hmem, hr, Ne.symm hr]

theorem addRow_at (m : ByRepo) (row : Row) (p repo : Str) : ByRepo.at (addRow m row) p repo =
    if row.name = p ∧ repo ∈ row.repositories then some (pySorted row.values)
    else ByRepo.at m p repo := by
  unfold ByRepo.at addRow
  rw [Dict.get_set]
  by_cases hp : row.name = p
  · subst hp
    rw [if_pos rfl, Option.bind_some, foldl_set_get]
    by_cases hrepo : repo ∈ row.repositories
    · simp [hrepo]
    · cases hget : m.get row.name <;> simp [hrepo]
  · simp [hp]

theorem foldl_addRow_at (rows : List Row) (m : ByRepo) (p repo : Str) :
    ByRepo.at (rows.foldl addRow m) p repo =
      ((rows.reverse.find? fun row => row.name = p ∧ repo ∈ row.repositories).map
        fun row => pySorted row.values).or (ByRepo.at m p repo) := by
  induction rows generalizing m with
  | nil => simp
  | cons row rows ih =>
      rw [List.foldl_cons, ih, addRow_at, List.reverse_cons, List.find?_append]
      cases rows.reverse.find? fun row => row.name = p ∧ repo ∈ row.repositories with
      | some row' => simp
      | none =>
          by_cases h : row.name = p ∧ repo ∈ row.repositories
          · simp [h]
          · simp [h]

theorem byRepo_at_eq_find (rows : List Row) (p repo : Str) : ByRepo.at (byRepo rows) p repo =
    (rows.reverse.find? fun row => row.name = p ∧ repo ∈ row.repositories).map
      fun row => pySorted row.values := by
  unfold byRepo
  rw [foldl_addRow_at]
  exact Option.or_none

/-- What the map has comes from a row. -/
theorem byRepo_at_row {p repo : Str} {v : List Str} (hv : ByRepo.at (byRepo rows) p repo = some v) :
    ∃ row ∈ rows, row.name = p ∧ repo ∈ row.repositories ∧ v = pySorted row.values := by
  rw [byRepo_at_eq_find] at hv
  obtain ⟨row, hfind, rfl⟩ := Option.map_eq_some_iff.mp hv
  have hrow := List.find?_some hfind
  rw [decide_eq_true_iff] at hrow
  exact ⟨row, List.mem_reverse.mp (List.mem_of_find?_eq_some hfind), hrow.1, hrow.2, rfl⟩

theorem byRepo_at_isSome (rows : List Row) (p repo : Str) :
    (ByRepo.at (byRepo rows) p repo).isSome = true ↔ Lists rows p repo := by
  constructor
  · intro h
    obtain ⟨v, hv⟩ := Option.isSome_iff_exists.mp h
    obtain ⟨row, hrow, hname, hrepo, -⟩ := byRepo_at_row hv
    exact ⟨row, hrow, hname, hrepo⟩
  · intro h
    obtain ⟨row, hrow, hname, hrepo⟩ := h
    rw [byRepo_at_eq_find, Option.isSome_map, List.find?_isSome]
    exact ⟨row, List.mem_reverse.mpr hrow, decide_eq_true ⟨hname, hrepo⟩⟩

theorem foldl_addRow_keys (rows : List Row) (m : ByRepo) (hm : (Dict.keys m).Nodup) :
    (Dict.keys (rows.foldl addRow m)).Nodup ∧ ∀ p, p ∈ Dict.keys (rows.foldl addRow m) ↔
      (∃ row ∈ rows, row.name = p) ∨ p ∈ Dict.keys m := by
  induction rows generalizing m with
  | nil => exact ⟨hm, by simp⟩
  | cons row rows ih =>
      obtain ⟨hnodup, hkeys⟩ := ih (addRow m row) (Dict.nodup_set hm)
      refine ⟨hnodup, fun p => ?_⟩
      rw [List.foldl_cons, hkeys, addRow, Dict.mem_keys_set]
      simp only [List.mem_cons, exists_eq_or_imp, eq_comm (a := p)]
      rw [or_left_comm, ← or_assoc]

theorem byRepo_keys (rows : List Row) : (Dict.keys (byRepo rows)).Nodup ∧
    ∀ p, p ∈ Dict.keys (byRepo rows) ↔ ∃ row ∈ rows, row.name = p := by
  obtain ⟨hnodup, hkeys⟩ := foldl_addRow_keys rows [] List.nodup_nil
  refine ⟨hnodup, fun p => ?_⟩
  unfold byRepo
  rw [hkeys]
  simp [Dict.keys]

theorem Row.Same.symm {row row' : Row} (h : row.Same row') : row'.Same row :=
  ⟨h.1.symm, h.2.1.symm, h.2.2.symm⟩

theorem Relisted.symm (h : Relisted rows rows') : Relisted rows' rows := by
  constructor
  · intro row' hrow'
    obtain ⟨row, hrow, hsame⟩ := h.2 row' hrow'
    exact ⟨row, hrow, hsame.symm⟩
  · intro row hrow
    obtain ⟨row', hrow', hsame⟩ := h.1 row hrow
    exact ⟨row', hrow', hsame.symm⟩

theorem lists_iff (hr : Relisted rows rows') (p repo : Str) :
    Lists rows p repo ↔ Lists rows' p repo := by
  constructor
  · intro h
    obtain ⟨row, hrow, hname, hrepo⟩ := h
    obtain ⟨row', hrow', hsame⟩ := hr.1 row hrow
    exact ⟨row', hrow', hsame.1.symm.trans hname, hsame.2.2.mem_iff.mp hrepo⟩
  · intro h
    obtain ⟨row', hrow', hname, hrepo⟩ := h
    obtain ⟨row, hrow, hsame⟩ := hr.2 row' hrow'
    exact ⟨row, hrow, hsame.1.trans hname, hsame.2.2.mem_iff.mpr hrepo⟩

/-- What a map has for a package and a repository is what a row says, and there is a row if and
only if the map has something. -/
inductive Told (rows : List Row) (p repo : Str) (x : Dict Str (List Str)) : Prop
  | unlisted (h : ¬ Lists rows p repo) (hx : x.get repo = none)
  | listed (row : Row) (h : row ∈ rowsAt rows p repo) (hx : x.get repo = some (pySorted row.values))

theorem byRepo_told (hr : Relisted rows rows') {p : Str} {x : Dict Str (List Str)}
    (hx : (byRepo rows').get p = some x) (repo : Str) : Told rows p repo x := by
  have hat : ByRepo.at (byRepo rows') p repo = x.get repo := by
    rw [ByRepo.at, hx, Option.bind_some]
  cases hv : x.get repo with
  | none =>
      refine .unlisted (fun hl => ?_) hv
      rw [lists_iff hr, ← byRepo_at_isSome, hat, hv] at hl
      exact Bool.false_ne_true hl
  | some v =>
      obtain ⟨row', hrow', hname, hrepo, rfl⟩ := byRepo_at_row (hat.trans hv)
      obtain ⟨row, hrow, hsame⟩ := hr.2 row' hrow'
      have hat := mem_rowsAt.mpr ⟨hrow, hsame.1.trans hname, hsame.2.2.mem_iff.mpr hrepo⟩
      refine .listed row hat ?_
      rw [hv, pySorted_eq_of_perm hsame.2.1]

theorem Relisted.refl (rows : List Row) : Relisted rows rows :=
  have hsame : ∀ row ∈ rows, ∃ row' ∈ rows, row.Same row' :=
    fun row hrow => ⟨row, hrow, rfl, .refl _, .refl _⟩
  ⟨hsame, fun row hrow => ⟨row, hrow, rfl, .refl _, .refl _⟩⟩

theorem byRepo_get_isSome (hr : Relisted rows rows') (p : Str) :
    ((byRepo rows).get p).isSome = ((byRepo rows').get p).isSome := by
  rw [Bool.eq_iff_iff, Dict.get_isSome_iff, Dict.get_isSome_iff, (byRepo_keys rows).2,
    (byRepo_keys rows').2]
  constructor
  · intro h
    obtain ⟨row, hrow, rfl⟩ := h
    obtain ⟨row', hrow', hsame⟩ := hr.1 row hrow
    exact ⟨row', hrow', hsame.1.symm⟩
  · intro h
    obtain ⟨row', hrow', rfl⟩ := h
    obtain ⟨row, hrow, hsame⟩ := hr.2 row' hrow'
    exact ⟨row, hrow, hsame.1⟩

/-- Maps of the same rows have the same packages, and what either has of them is in the rows. -/
theorem byRepo_mem {rows₁ rows₂ : List Row} (h₁ : Relisted rows rows₁) (h₂ : Relisted rows rows₂)
    {p : Package} (hp : p ∈ byRepo rows₁) : ∃ x, (p.1, x) ∈ byRepo rows₂ ∧
      (∀ repo, Told rows p.1 repo p.2) ∧ ∀ repo, Told rows p.1 repo x := by
  have hget := Dict.get_of_mem (byRepo_keys rows₁).1 hp
  have hsome := (byRepo_get_isSome h₁ p.1).symm.trans (byRepo_get_isSome h₂ p.1)
  rw [hget] at hsome
  obtain ⟨x, hx⟩ := Option.isSome_iff_exists.mp hsome.symm
  exact ⟨x, Dict.mem_of_get hx, byRepo_told h₁ hget, byRepo_told h₂ hx⟩

end

end Cbuild.Stage
