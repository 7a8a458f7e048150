import Cbuild.Lib.Files

/-! # Trees that are moved in

A directory with what is below it that comes from elsewhere, and the tree after it has been renamed
to a place.
-/

namespace Cbuild.Lib

namespace Fs

variable {N C : Type} [DecidableEq N]

/-- Everything is in a directory. -/
def Closed (fs : Fs N C) : Prop := ∀ q n, (fs.node (q ++ [n])).isSome = true → fs.node q = some .dir

/-- What is below a place, seen from there. -/
def subtree (fs : Fs N C) (q : List N) : Fs N C :=
  (fs.filter fun e => q <+: e.1).map fun e => (e.1.drop q.length, e.2)

/-- A directory and what is below it, in place of what was there. -/
def graft (fs : Fs N C) (t : List N) (tree : Fs N C) : Fs N C :=
  (t, .dir) :: (tree.map fun e => (t ++ e.1, e.2)) ++ fs.removeTree t

/-- `rename` of a directory from elsewhere in the file system; `tree` is what is below it. -/
def moveIn (fs : Fs N C) (tree : Fs N C) (dst : List (Comp N)) : Except Errno (Fs N C) :=
  match fs.place dst with
  | .error e => .error e
  | .ok t =>
      match fs.node t with
      | none => .ok (fs.graft t tree)
      | some .dir => if (fs.names t).isEmpty then .ok (fs.graft t tree) else .error .notempty
      | some _ => .error .notdir

/-- `unlink` of what is no directory, all that is below it otherwise. -/
def rm (fs : Fs N C) (p : List (Comp N)) : Except Errno (Fs N C) :=
  match fs.place p with
  | .error e => .error e
  | .ok q => if (fs.node q).isSome then .ok (fs.removeTree q) else .error .noent

/-- Nothing is there, or an empty directory. -/
def Vacant (fs : Fs N C) (q : List N) : Prop :=
  fs.node q = none ∨ fs.node q = some .dir ∧ ∀ n, fs.node (q ++ [n]) = none

/-- What is there remains there. -/
def Extends (fs fs' : Fs N C) : Prop := ∀ q v, fs.node q = some v → fs'.node q = some v

end Fs

/-- The contents of a directory. -/
structure Tree (N C : Type) [DecidableEq N] where
  fs : Fs N C
  closed : fs.Closed

namespace Fs

variable {N C : Type} [DecidableEq N] {fs fs' tree : Fs N C} {q q' t d : List N} {n : N}
  {v : Node N C} {p : List (Comp N)}

theorem Extends.refl (fs : Fs N C) : fs.Extends fs := fun _ _ h => h

theorem Extends.trans {fs'' : Fs N C} (h : fs.Extends fs') (h' : fs'.Extends fs'') :
    fs.Extends fs'' := fun q v hv => h' q v (h q v hv)

theorem Extends.stat (h : fs.Extends fs') (hq : fs.stat p = .ok q) : fs'.stat p = .ok q :=
  walk_mono h hq

/-! ## Nodes -/

theorem get_removeTree : Dict.get (fs.removeTree q) q' =
    if q <+: q' then none else Dict.get fs q' := by
  unfold removeTree
  induction fs with
  | nil =>
      split
      · rfl
      · rfl
  | cons e fs ih =>
      by_cases he : q <+: e.1
      · rw [List.filter_cons_of_neg (by simpa using he), ih, Dict.get_cons]
        by_cases hq : q <+: q'
        · rw [if_pos hq, if_pos hq]
        · rw [if_neg hq, if_neg hq, if_neg]
          rintro rfl
          exact hq he
      · rw [List.filter_cons_of_pos (by simpa using he), Dict.get_cons, Dict.get_cons, ih]
        by_cases hk : e.1 = q'
        · rw [if_pos hk, if_pos hk, if_neg (hk ▸ he)]
        · rw [if_neg hk, if_neg hk]

theorem get_map_append (r : List N) :
    Dict.get (tree.map fun e => (t ++ e.1, e.2)) (t ++ r) = Dict.get tree r := by
  induction tree with
  | nil => rfl
  | cons e tree ih =>
      rw [List.map_cons, Dict.get_cons, Dict.get_cons, ih]
      by_cases he : e.1 = r
      · rw [if_pos he, if_pos (congrArg (t ++ ·) he)]
      · rw [if_neg he, if_neg fun heq => he (List.append_cancel_left heq)]

theorem get_map_append_of_not (h : ¬ t <+: q) :
    Dict.get (tree.map fun e => (t ++ e.1, e.2)) q = none := by
  rw [Dict.get_eq_none_iff]
  intro hmem
  obtain ⟨e', he', rfl⟩ := List.mem_map.mp hmem
  obtain ⟨e, _, rfl⟩ := List.mem_map.mp he'
  exact h (List.prefix_append t e.1)

theorem node_graft (h : t ≠ []) : (fs.graft t tree).node q =
    if t <+: q then tree.node (q.drop t.length) else fs.node q := by
  by_cases hq : q = []
  · rw [hq, if_neg fun hpre => h (List.prefix_nil.mp hpre)]
    rfl
  rw [node_of_ne_nil hq]
  unfold graft
  rw [List.cons_append, Dict.get_cons, Dict.get_append]
  by_cases hpre : t <+: q
  · obtain ⟨r, rfl⟩ := hpre
    rw [if_pos (List.prefix_append t r), List.drop_left, get_map_append, get_removeTree,
      if_pos (List.prefix_append t r), Option.or_none]
    by_cases hr : r = []
    · rw [hr, List.append_nil, if_pos rfl]
      rfl
    · rw [node_of_ne_nil hr, if_neg]
      intro heq
      exact hr (List.self_eq_append_right.mp heq)
  · rw [if_neg hpre, if_neg fun heq : t = q => hpre (heq ▸ List.prefix_refl _), get_map_append_of_not hpre,
      get_removeTree, if_neg hpre, Option.none_or, node_of_ne_nil hq]

theorem node_graft_append (fs tree : Fs N C) (h : t ≠ []) (r : List N) :
    (fs.graft t tree).node (t ++ r) = tree.node r := by
  rw [node_graft h, if_pos (List.prefix_append t r), List.drop_left]

theorem get_subtree (r : List N) : Dict.get (fs.subtree q) r = Dict.get fs (q ++ r) := by
  unfold subtree
  induction fs with
  | nil => rfl
  | cons e fs ih =>
      rw [Dict.get_cons]
      by_cases he : q <+: e.1
      · obtain ⟨k, hk⟩ := he
        rw [List.filter_cons_of_pos (by simp [← hk]), List.map_cons, Dict.get_cons, ih, ← hk,
          List.drop_left]
        by_cases hr : k = r
        · rw [if_pos hr, if_pos (congrArg (q ++ ·) hr)]
        · rw [if_neg hr, if_neg fun heq => hr (List.append_cancel_left heq)]
      · rw [List.filter_cons_of_neg (by simpa using he), ih, if_neg]
        intro heq
        exact he (heq ▸ List.prefix_append q r)

theorem node_subtree (h : fs.node q = some .dir) (r : List N) :
    (fs.subtree q).node r = fs.node (q ++ r) := by
  by_cases hr : r = []
  · rw [hr, List.append_nil, h]
    rfl
  · rw [node_of_ne_nil hr, get_subtree, node_of_ne_nil]
    exact fun heq => hr (List.append_eq_nil_iff.mp heq).2

/-! ## Everything is in a directory -/

theorem closed_singleton (n : N) (v : Node N C) : Closed [([n], v)] := by
  intro q m h
  cases q with
  | nil => rfl
  | cons k q =>
      rw [node_of_ne_nil (List.append_ne_nil_of_right_ne_nil _ (List.cons_ne_nil m [])),
        Dict.get_cons, if_neg] at h
      · cases h
      · intro heq
        cases q
        · cases heq
        · cases heq

theorem Closed.none_below (h : fs.Closed) (hq : fs.node q = none) (r : List N) :
    fs.node (q ++ r) = none := by
  induction r using List.reverseRecOn with
  | nil => rwa [List.append_nil]
  | append_singleton r n ih =>
      cases hv : fs.node (q ++ (r ++ [n])) with
      | none => rfl
      | some v =>
          rw [← List.append_assoc] at hv
          have hdir := h (q ++ r) n (by rw [hv]; rfl)
          rw [ih] at hdir
          cases hdir

theorem Closed.dir_above (h : fs.Closed) {r : List N} (hr : r ≠ [])
    (hv : fs.node (q ++ r) = some v) : fs.node q = some .dir := by
  induction r using List.reverseRecOn generalizing v with
  | nil => exact absurd rfl hr
  | append_singleton r n ih =>
      rw [← List.append_assoc] at hv
      have hdir := h (q ++ r) n (by rw [hv]; rfl)
      by_cases hnil : r = []
      · rw [hnil, List.append_nil] at hdir
        exact hdir
      · exact ih hnil hdir

/-- Nothing is below what is vacant. -/
theorem Vacant.none_below (h : fs.Vacant q) (hclosed : fs.Closed) {r : List N} (hr : r ≠ []) :
    fs.node (q ++ r) = none := by
  rcases h with hnone | ⟨_, hempty⟩
  · exact hclosed.none_below hnone r
  · obtain ⟨n, r, rfl⟩ := List.exists_cons_of_ne_nil hr
    have hnone := hclosed.none_below (hempty n) r
    rwa [List.append_assoc] at hnone

theorem not_vacant (hclosed : fs.Closed) (h : (fs.node (q ++ [n])).isSome = true) :
    ¬ fs.Vacant q := by
  intro hvacant
  rw [hvacant.none_below hclosed (List.cons_ne_nil n [])] at h
  cases h

theorem closed_of_keys (h : ∀ e ∈ fs, fs.node e.1.dropLast = some .dir) : fs.Closed := by
  intro q n hsome
  rw [node_of_ne_nil (List.append_ne_nil_of_right_ne_nil q (List.cons_ne_nil n []))] at hsome
  obtain ⟨e, he, heq⟩ := List.mem_map.mp (Dict.get_isSome_iff.mp hsome)
  have hdir := h e he
  rw [heq, List.dropLast_concat] at hdir
  exact hdir

theorem closed_set (hclosed : fs.Closed) (hd : fs.node d = some .dir)
    (hnone : fs.node (d ++ [n]) = none) : Closed (Dict.set fs (d ++ [n]) .dir) := by
  have hne : d ++ [n] ≠ [] := List.append_ne_nil_of_right_ne_nil d (List.cons_ne_nil n [])
  intro q m h
  rw [node_set hne] at h ⊢
  split at h
  · rename_i heq
    obtain ⟨rfl, _⟩ := List.append_singleton_inj.mp heq
    rw [if_neg, hd]
    intro hself
    rw [hself, hd] at hnone
    cases hnone
  · split
    · rfl
    · exact hclosed q m h

theorem closed_mkdir (hclosed : fs.Closed) (h : fs.mkdir p = .ok fs') : fs'.Closed := by
  obtain ⟨p', n, d, _, _, hd, hnone, rfl⟩ := mkdir_spec h
  exact closed_set hclosed hd hnone

theorem mkdirs_extends (h : fs.mkdirs p = .ok fs') : fs.Extends fs' :=
  (mkdirs_spec (I := fs.Extends) (Extends.refl fs)
    (fun _ _ _ _ hext h => hext.trans fun _ _ hv => mkdir_mono h hv) h).1

/-- Only what was there is left. -/
theorem node_of_removeTree (h : (fs.removeTree q).node q' = some v) : fs.node q' = some v := by
  by_cases hq' : q' = []
  · rw [hq'] at h ⊢
    exact h
  · rw [node_of_ne_nil hq', get_removeTree] at h
    rw [node_of_ne_nil hq']
    split at h
    · cases h
    · exact h

theorem closed_removeTree (hclosed : fs.Closed) : (fs.removeTree q).Closed := by
  intro r n h
  have hne : r ++ [n] ≠ [] := List.append_ne_nil_of_right_ne_nil r (List.cons_ne_nil n [])
  rw [node_of_ne_nil hne, get_removeTree] at h
  split at h
  · cases h
  · rename_i hnot
    rw [← node_of_ne_nil hne] at h
    have hdir := hclosed r n h
    by_cases hr : r = []
    · rw [hr]
      rfl
    · rw [node_of_ne_nil hr] at hdir ⊢
      rw [get_removeTree, if_neg, hdir]
      exact fun hpre => hnot (hpre.trans (List.prefix_append r [n]))

theorem closed_graft (hclosed : fs.Closed) (htree : tree.Closed) (hd : fs.node d = some .dir) :
    (fs.graft (d ++ [n]) tree).Closed := by
  have hne : d ++ [n] ≠ [] := List.append_ne_nil_of_right_ne_nil d (List.cons_ne_nil n [])
  intro q m h
  by_cases hpre : d ++ [n] <+: q
  · obtain ⟨r, rfl⟩ := hpre
    rw [List.append_assoc, node_graft_append fs tree hne] at h
    rw [node_graft_append fs tree hne]
    exact htree r m h
  · rw [node_graft hne, if_neg hpre]
    by_cases heq : d ++ [n] = q ++ [m]
    · obtain ⟨rfl, _⟩ := List.append_singleton_inj.mp heq
      exact hd
    · rw [node_graft hne, if_neg] at h
      · exact hclosed q m h
      · intro hpre'
        rcases List.prefix_concat_iff.mp hpre' with hself | hbelow
        · exact heq hself
        · exact hpre hbelow

theorem closed_subtree (hclosed : fs.Closed) (h : fs.node q = some .dir) :
    (fs.subtree q).Closed := by
  intro r n hr
  rw [node_subtree h, ← List.append_assoc] at hr
  rw [node_subtree h]
  exact hclosed _ _ hr

/-! ## Paths of names -/

/-- A walk over names none of which is anything but a directory. -/
theorem walk_names_ok {links : Nat} {cur ms : List N}
    (h : fs.walk links cur (ms.map .down ++ p) = .ok d)
    (hdirs : ∀ q, q <+: ms → ∀ v, fs.node (cur ++ q) = some v → v = .dir) :
    (∀ q, q <+: ms → q ≠ [] → fs.node (cur ++ q) = some .dir) ∧
      fs.walk links (cur ++ ms) p = .ok d := by
  induction ms generalizing cur with
  | nil =>
      rw [List.append_nil]
      exact ⟨fun q hq hne => absurd (List.prefix_nil.mp hq) hne, h⟩
  | cons m ms ih =>
      rw [List.map_cons, List.cons_append, walk_down] at h
      have hm : fs.node (cur ++ [m]) = some .dir := by
        cases hv : fs.node (cur ++ [m]) with
        | none =>
            rw [hv] at h
            cases h
        | some v =>
            rw [hdirs [m] (List.cons_prefix_cons.mpr ⟨rfl, List.nil_prefix⟩) v hv]
      rw [hm] at h
      obtain ⟨hbelow, hwalk⟩ := ih h fun q hq v hv => by
        rw [List.append_assoc] at hv
        exact hdirs (m :: q) (List.cons_prefix_cons.mpr ⟨rfl, hq⟩) v hv
      rw [List.append_assoc] at hwalk
      refine ⟨fun q hq hne => ?_, hwalk⟩
      obtain ⟨n, q, rfl⟩ := List.exists_cons_of_ne_nil hne
      obtain ⟨rfl, htail⟩ := List.cons_prefix_cons.mp hq
      by_cases hnil : q = []
      · rw [hnil]
        exact hm
      · have hq' := hbelow q htail hnil
        rwa [List.append_assoc] at hq'

/-- Directories all the way. -/
def DirsTo (fs : Fs N C) (q : List N) : Prop := ∀ q', q' <+: q → fs.node q' = some .dir

theorem DirsTo.stat (h : fs.DirsTo q) (p : List (Comp N)) :
    fs.stat (q.map .down ++ p) = fs.walk 40 q p := by
  have hwalk := walk_names fs 40 [] q (fun q' hq' _ => h q' hq') p
  rwa [List.nil_append] at hwalk

theorem DirsTo.stat_self (h : fs.DirsTo q) : fs.stat (q.map .down) = .ok q := by
  have hstat := h.stat []
  rwa [List.append_nil, walk_nil] at hstat

theorem DirsTo.place (h : fs.DirsTo q) (n : N) :
    fs.place ((q ++ [n]).map .down) = .ok (q ++ [n]) := by
  rw [List.map_append]
  exact place_snoc h.stat_self (h q (List.prefix_refl q)) n

theorem DirsTo.isDir (h : fs.DirsTo q) : fs.isDir (q.map .down) = true :=
  isDir_iff.mpr ⟨q, h.stat_self, h q (List.prefix_refl q)⟩

/-- There is nothing to be made. -/
theorem DirsTo.mkdirs (h : fs.DirsTo q) : fs.mkdirs (q.map .down) = .ok fs := by
  have hok : fs.mkdirOk (q.map .down) = .ok fs := by
    unfold mkdirOk
    cases hmk : fs.mkdir (q.map .down) with
    | ok fs' =>
        obtain ⟨q', hplace, hnone, _⟩ := mkdir_node hmk
        obtain rfl | ⟨q, n, rfl⟩ := List.eq_nil_or_concat' q
        · cases hmk
        · have hq : fs.DirsTo q := fun q' hq' => h q' (hq'.trans (List.prefix_append q [n]))
          rw [hq.place n] at hplace
          cases hplace
          rw [h _ (List.prefix_refl _)] at hnone
          cases hnone
    | error e => exact if_pos h.isDir
  unfold Fs.mkdirs
  obtain rfl | ⟨q, n, rfl⟩ := List.eq_nil_or_concat' q
  · exact hok
  · have hq : fs.DirsTo q := fun q' hq' => h q' (hq'.trans (List.prefix_append q [n]))
    have hmk : fs.mkdir ((q ++ [n]).map .down) = .error .exist := by
      unfold Fs.mkdir
      rw [hq.place n]
      dsimp only
      rw [h _ (List.prefix_refl _)]
      split
      · rename_i heq
        cases heq
      · rfl
    rw [List.map_append, List.map_singleton] at hmk hok
    rw [List.map_append, List.map_singleton, List.reverse_append, List.reverse_singleton,
      List.singleton_append, mkdirsRev, List.reverse_cons, List.reverse_reverse, hmk]
    exact hok

/-! ## Moving in -/

theorem moveIn_spec (h : fs.moveIn tree p = .ok fs') :
    ∃ t, fs.place p = .ok t ∧ fs.Vacant t ∧ fs' = fs.graft t tree := by
  unfold moveIn at h
  cases hplace : fs.place p with
  | error e =>
      rw [hplace] at h
      cases h
  | ok t =>
      rw [hplace] at h
      dsimp only at h
      split at h
      · rename_i hnone
        cases h
        exact ⟨t, rfl, Or.inl hnone, rfl⟩
      · rename_i hdir
        split at h
        · rename_i hempty
          cases h
          exact ⟨t, rfl, Or.inr ⟨hdir, names_isEmpty.mp hempty⟩, rfl⟩
        · cases h
      · cases h

theorem moveIn_of_vacant (hplace : fs.place p = .ok t) (h : fs.Vacant t) (tree : Fs N C) :
    fs.moveIn tree p = .ok (fs.graft t tree) := by
  unfold moveIn
  rw [hplace]
  dsimp only
  rcases h with hnone | ⟨hdir, hempty⟩
  · rw [hnone]
  · rw [hdir]
    dsimp only
    rw [if_pos (names_isEmpty.mpr hempty)]

/-- Nothing is lost where a directory is moved to a vacant place. -/
theorem Vacant.graft_extends (h : fs.Vacant t) (hclosed : fs.Closed) (ht : t ≠ [])
    (tree : Fs N C) : fs.Extends (fs.graft t tree) := by
  intro q v hv
  by_cases hpre : t <+: q
  · obtain ⟨r, rfl⟩ := hpre
    rw [node_graft_append fs tree ht]
    by_cases hr : r = []
    · subst hr
      rw [List.append_nil] at hv
      rcases h with hnone | ⟨hdir, _⟩
      · rw [hnone] at hv
        cases hv
      · rw [hdir] at hv
        exact hv
    · rw [h.none_below hclosed hr] at hv
      cases hv
  · rwa [node_graft ht, if_neg hpre]

end Fs

end Cbuild.Lib
