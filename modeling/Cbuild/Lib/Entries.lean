import Cbuild.Lib.Trees

/-! # Calls on single entries

Paths of names that meet no link lead where they say or nowhere. In such a tree the calls that
change one entry, and the renaming of a tree, are known by the places they are given.
-/

namespace Cbuild.Lib.Fs

variable {N C : Type} [DecidableEq N]

/-- The path through these names. -/
def path (q : List N) : List (Comp N) := q.map .down

/-! ## Changes -/

def unlink (fs : Fs N C) (p : List (Comp N)) : Except Errno (Fs N C) :=
  match fs.place p with
  | .error e => .error e
  | .ok q =>
      match fs.node q with
      | none => .error .noent
      | some .dir => .error .isdir
      | some _ => .ok (Dict.erase fs q)

/-- `missing_ok=True` -/
def unlinkOk (fs : Fs N C) (p : List (Comp N)) : Except Errno (Fs N C) :=
  match fs.unlink p with
  | .error .noent => .ok fs
  | r => r

/-- The file is made, or replaced as a whole. -/
def replaceFile (fs : Fs N C) (p : List (Comp N)) (content : C) : Except Errno (Fs N C) :=
  match fs.place p with
  | .error e => .error e
  | .ok q => if fs.dirAt q then .error .isdir else .ok (Dict.set fs q (.file content))

/-- A hard link of a file that is not written to. -/
def hardlinkTo (fs : Fs N C) (p target : List (Comp N)) : Except Errno (Fs N C) :=
  match fs.place p, fs.stat target with
  | .error e, _ => .error e
  | _, .error e => .error e
  | .ok q, .ok t =>
      match fs.node q, fs.node t with
      | none, some (.file content) => .ok (Dict.set fs q (.file content))
      | _, _ => .error .exist

/-- A link with a relative target. -/
def symlinkTo (fs : Fs N C) (p target : List (Comp N)) : Except Errno (Fs N C) :=
  match fs.place p with
  | .error e => .error e
  | .ok q =>
      match fs.node q with
      | none => .ok (Dict.set fs q (.link false target))
      | some _ => .error .exist

def fileAt (fs : Fs N C) (q : List N) : Bool :=
  match fs.node q with
  | some (.file _) => true
  | _ => false

def isFile (fs : Fs N C) (p : List (Comp N)) : Bool :=
  match fs.stat p with
  | .error _ => false
  | .ok q => fs.fileAt q

variable {fs fs' : Fs N C} {q q' s t d : List N} {n : N} {v : Node N C} {content : C}

/-! ## Paths of names -/

/-- No link is on the way to the place, nor at it. -/
def NoLink (fs : Fs N C) (q : List N) : Prop :=
  ∀ q', q' <+: q → ∀ absolute target, fs.node q' ≠ some (.link absolute target)

theorem NoLink.above (h : fs.NoLink q) (hq : q' <+: q) : fs.NoLink q' :=
  fun q'' hq'' => h q'' (hq''.trans hq)

theorem noLink_of_forall (h : ∀ e ∈ fs, e.2.isLink = false) : fs.NoLink q := by
  intro q' _ absolute target hnode
  by_cases hnil : q' = []
  · rw [hnil, node_nil] at hnode
    nomatch hnode
  · rw [node_of_ne_nil hnil] at hnode
    have hlink := h _ (Dict.mem_of_get hnode)
    nomatch hlink

theorem walk_arrives {links : Nat} {cur ms : List N}
    (hlink : ∀ q, q <+: ms → ∀ absolute target,
      fs.node (cur ++ q) ≠ some (.link absolute target))
    (h : fs.walk links cur (path ms) = .ok d) : d = cur ++ ms := by
  induction ms generalizing cur with
  | nil =>
      rw [path, List.map_nil, walk_nil] at h
      cases h
      exact (List.append_nil _).symm
  | cons m ms ih =>
      rw [path, List.map_cons, walk_down] at h
      have hm : [m] <+: m :: ms := List.cons_prefix_cons.mpr ⟨rfl, List.nil_prefix⟩
      cases hv : fs.node (cur ++ [m]) with
      | none =>
          rw [hv] at h
          nomatch h
      | some v =>
          rw [hv] at h
          cases v with
          | link absolute target => exact absurd hv (hlink [m] hm absolute target)
          | file content =>
              dsimp only at h
              split at h
              · rename_i hnil
                obtain rfl := List.map_eq_nil_iff.mp hnil
                cases h
                rfl
              · nomatch h
          | dir =>
              have hd := ih (by
                intro q hq absolute target
                rw [List.append_assoc]
                exact hlink (m :: q) (List.cons_prefix_cons.mpr ⟨rfl, hq⟩) absolute target) h
              rwa [List.append_assoc] at hd

theorem stat_names (hlink : fs.NoLink q) (h : fs.stat (path q) = .ok d) : d = q := by
  have harrives := fun hlink' => walk_arrives hlink' (show fs.walk 40 [] (path q) = .ok d from h)
  exact harrives hlink

/-- The last name is not followed. -/
theorem place_names (hlink : fs.NoLink q) (h : fs.place (path (q ++ [n])) = .ok d) :
    d = q ++ [n] ∧ fs.node q = some .dir := by
  rw [path, List.map_append, List.map_singleton] at h
  obtain ⟨p', n', d', hp, hstat, hdir, rfl⟩ | ⟨hno, -⟩ := place_cases h
  · obtain ⟨rfl, hn⟩ := List.append_inj' hp rfl
    cases hn
    obtain rfl := stat_names hlink hstat
    exact ⟨rfl, hdir⟩
  · exact absurd List.getLast?_concat (hno n)

/-- In a tree that is closed a directory is reached by its names. -/
theorem Closed.dirsTo (hclosed : fs.Closed) (h : fs.node q = some .dir) : fs.DirsTo q := by
  rintro q' ⟨r, rfl⟩
  by_cases hr : r = []
  · rwa [hr, List.append_nil] at h
  · exact hclosed.dir_above hr h

theorem fileAt_iff : fs.fileAt q = true ↔ ∃ content, fs.node q = some (.file content) := by
  unfold fileAt
  split
  · rename_i content h
    exact iff_of_true rfl ⟨content, h⟩
  · rename_i h
    exact iff_of_false Bool.false_ne_true fun ⟨content, h'⟩ => h content h'

/-- What is at a place in a directory, seen by its path. -/
theorem DirsTo.isLink (h : fs.DirsTo q) (n : N) :
    fs.isLink (path (q ++ [n])) = (fs.node (q ++ [n])).any Node.isLink := by
  unfold Fs.isLink
  rw [path, h.place]

theorem DirsTo.stat_snoc (h : fs.DirsTo q) (n : N)
    (hlink : ∀ absolute target, fs.node (q ++ [n]) ≠ some (.link absolute target)) :
    fs.stat (path (q ++ [n])) =
      if (fs.node (q ++ [n])).isSome then .ok (q ++ [n]) else .error .noent := by
  rw [path, List.map_append]
  exact Fs.stat_snoc h.stat_self (h q (List.prefix_refl q)) n hlink

theorem DirsTo.isFile (h : fs.DirsTo q) (n : N)
    (hlink : ∀ absolute target, fs.node (q ++ [n]) ≠ some (.link absolute target)) :
    fs.isFile (path (q ++ [n])) = fs.fileAt (q ++ [n]) := by
  unfold Fs.isFile
  rw [h.stat_snoc n hlink]
  cases hv : fs.node (q ++ [n]) with
  | none => simp [fileAt, hv]
  | some v => rfl

theorem DirsTo.iterdir (h : fs.DirsTo q) : fs.iterdir (path q) = .ok (fs.names q) := by
  unfold Fs.iterdir
  rw [path, h.stat_self]
  dsimp only
  rw [if_pos (dirAt_iff.mpr (h q (List.prefix_refl q)))]

/-- Through a link to an entry of the same directory. -/
theorem DirsTo.stat_sibling (h : fs.DirsTo q) {m : N}
    (hlink : fs.node (q ++ [n]) = some (.link false [.down m]))
    (hm : fs.node (q ++ [m]) = some .dir) (p : List (Comp N)) :
    fs.stat (path (q ++ [n]) ++ p) = fs.walk 39 (q ++ [m]) p := by
  rw [path, List.map_append, List.append_assoc, h.stat]
  show fs.walk 40 q (.down n :: p) = _
  rw [walk_down, hlink]
  show fs.walk 39 q (.down m :: p) = _
  rw [walk_down, hm]

/-! ## One entry -/

/-- Only the entry at the place is another one. -/
def Differs (fs fs' : Fs N C) (q : List N) (o : Option (Node N C)) : Prop :=
  ∀ q', fs'.node q' = if q = q' then o else fs.node q'

theorem Differs.self {o : Option (Node N C)} (h : Differs fs fs' q o) : fs'.node q = o := by
  rw [h, if_pos rfl]

theorem Differs.of_ne {o : Option (Node N C)} (h : Differs fs fs' q o) (hq : q ≠ q') :
    fs'.node q' = fs.node q' := by
  rw [h, if_neg hq]

theorem differs_erase (fs : Fs N C) (hq : q ≠ []) : Differs fs (Dict.erase fs q) q none :=
  fun _ => node_erase hq

theorem differs_set (fs : Fs N C) (hq : q ≠ []) (v : Node N C) :
    Differs fs (Dict.set fs q v) q (some v) :=
  fun _ => node_set hq

theorem Closed.none_below_of_not_dir (hclosed : fs.Closed) (h : fs.node q ≠ some .dir) (n : N) :
    fs.node (q ++ [n]) = none := by
  by_contra hne
  exact h (hclosed q n (Option.isSome_iff_ne_none.mpr hne))

/-- A tree stays closed if nothing is below an entry that is no directory any more. -/
theorem Differs.closed {o : Option (Node N C)} (h : Differs fs fs' (d ++ [n]) o)
    (hclosed : fs.Closed) (hd : fs.node d = some .dir)
    (hbelow : o = some .dir ∨ ∀ m, fs.node (d ++ [n] ++ [m]) = none) : fs'.Closed := by
  have hne : d ++ [n] ≠ d := by
    intro heq
    simpa using congrArg List.length heq
  intro q m hq
  by_cases hself : d ++ [n] = q ++ [m]
  · obtain ⟨rfl, -⟩ := List.append_singleton_inj.mp hself
    rw [h.of_ne hne]
    exact hd
  · rw [h.of_ne hself] at hq
    by_cases hq' : d ++ [n] = q
    · subst hq'
      rcases hbelow with rfl | hnone
      · exact h.self
      · rw [hnone m] at hq
        nomatch hq
    · rw [h.of_ne hq']
      exact hclosed q m hq

theorem rmdir_differs (hlink : fs.NoLink q) (h : fs.rmdir (path (q ++ [n])) = .ok fs') :
    fs.node q = some .dir ∧ fs.node (q ++ [n]) = some .dir ∧
      (∀ m, fs.node (q ++ [n] ++ [m]) = none) ∧ Differs fs fs' (q ++ [n]) none := by
  obtain ⟨q', hplace, hdir, hempty, rfl⟩ := rmdir_spec h
  obtain ⟨rfl, hq⟩ := place_names hlink hplace
  exact ⟨hq, hdir, hempty, differs_erase fs (by simp)⟩

theorem mkdir_differs (hlink : fs.NoLink q) (h : fs.mkdir (path q) = .ok fs') :
    ∃ d n, q = d ++ [n] ∧ fs.node d = some .dir ∧ fs.node q = none ∧
      Differs fs fs' q (some .dir) := by
  obtain ⟨p', n, d, hp', hstat, hdir, hnone, rfl⟩ := mkdir_spec h
  obtain ⟨r, c, rfl⟩ := (List.eq_nil_or_concat' q).resolve_left (by
    rintro rfl
    simp [path] at hp')
  rw [path, List.map_append, List.map_singleton] at hp'
  obtain ⟨rfl, hc⟩ := List.append_inj' hp' rfl
  cases hc
  obtain rfl := stat_names (hlink.above (List.prefix_append _ _)) hstat
  exact ⟨d, n, rfl, hdir, hnone, differs_set fs (by simp) .dir⟩

theorem unlinkOk_differs (hlink : fs.NoLink q) (h : fs.unlinkOk (path (q ++ [n])) = .ok fs') :
    fs' = fs ∨ fs.node q = some .dir ∧ fs.node (q ++ [n]) ≠ some .dir ∧
      Differs fs fs' (q ++ [n]) none := by
  unfold unlinkOk unlink at h
  cases hplace : fs.place (path (q ++ [n])) with
  | error e =>
      rw [hplace] at h
      cases e <;> first | (cases h; exact Or.inl rfl) | nomatch h
  | ok q' =>
      obtain ⟨rfl, hq⟩ := place_names hlink hplace
      rw [hplace] at h
      dsimp only at h
      cases hv : fs.node (q ++ [n]) with
      | none =>
          rw [hv] at h
          cases h
          exact Or.inl rfl
      | some v =>
          rw [hv] at h
          cases v with
          | dir => nomatch h
          | file content =>
              cases h
              exact Or.inr ⟨hq, nofun, differs_erase fs (by simp)⟩
          | link absolute target =>
              cases h
              exact Or.inr ⟨hq, nofun, differs_erase fs (by simp)⟩

theorem replaceFile_differs (hlink : fs.NoLink q)
    (h : fs.replaceFile (path (q ++ [n])) content = .ok fs') :
    fs.node q = some .dir ∧ fs.node (q ++ [n]) ≠ some .dir ∧
      Differs fs fs' (q ++ [n]) (some (.file content)) := by
  unfold replaceFile at h
  cases hplace : fs.place (path (q ++ [n])) with
  | error e =>
      rw [hplace] at h
      cases h
  | ok q' =>
      obtain ⟨rfl, hq⟩ := place_names hlink hplace
      rw [hplace] at h
      dsimp only at h
      split at h
      · cases h
      · rename_i hdir
        cases h
        exact ⟨hq, fun heq => hdir (dirAt_iff.mpr heq), differs_set fs (by simp) _⟩

theorem hardlinkTo_differs {target : List (Comp N)} (hlink : fs.NoLink q)
    (h : fs.hardlinkTo (path (q ++ [n])) target = .ok fs') :
    fs.node q = some .dir ∧ fs.node (q ++ [n]) = none ∧
      ∃ content, Differs fs fs' (q ++ [n]) (some (.file content)) := by
  unfold hardlinkTo at h
  cases hplace : fs.place (path (q ++ [n])) with
  | error e =>
      rw [hplace] at h
      nomatch h
  | ok q' =>
      obtain ⟨rfl, hq⟩ := place_names hlink hplace
      rw [hplace] at h
      cases ht : fs.stat target with
      | error e =>
          rw [ht] at h
          nomatch h
      | ok t =>
          rw [ht] at h
          dsimp only at h
          split at h
          · rename_i content hnone _
            cases h
            exact ⟨hq, hnone, content, differs_set fs (by simp) _⟩
          · nomatch h

/-! ## Trees -/

theorem closed_moveTree (hclosed : fs.Closed) (hst : ¬ s <+: d ++ [n]) (hts : ¬ d ++ [n] <+: s)
    (hd : fs.node d = some .dir) : (fs.moveTree s (d ++ [n])).Closed := by
  intro q m hq
  rw [node_moveTree hst hts] at hq ⊢
  by_cases hin : d ++ [n] <+: q
  · -- below the place that it went to
    obtain ⟨r, rfl⟩ := hin
    rw [List.append_assoc, if_pos (List.prefix_append _ _), List.drop_left, ← List.append_assoc] at hq
    rw [if_pos (List.prefix_append _ _), List.drop_left]
    exact hclosed _ m hq
  · rw [if_neg hin]
    by_cases hself : d ++ [n] <+: q ++ [m]
    · -- the place itself
      have heq : d ++ [n] = q ++ [m] := (List.prefix_concat_iff.mp hself).resolve_right hin
      obtain ⟨rfl, -⟩ := List.append_singleton_inj.mp heq
      rw [if_neg fun hpre => hst (hpre.trans (List.prefix_append d [n])), hd]
    · rw [if_neg hself] at hq
      by_cases hs : s <+: q ++ [m]
      · rw [if_pos hs] at hq
        nomatch hq
      · rw [if_neg hs] at hq
        rw [if_neg fun hpre => hs (hpre.trans (List.prefix_append q [m]))]
        exact hclosed q m hq

/-- What a successful renaming between two places moves. -/
theorem rename_names {m : N} (hlink : fs.NoLink q) (hlink' : fs.NoLink q')
    (h : fs.rename (path (q ++ [n])) (path (q' ++ [m])) = .ok fs') (hne : q ++ [n] ≠ q' ++ [m]) :
    fs.node q' = some .dir ∧ (fs.node (q ++ [n])).isSome = true ∧ ¬ q ++ [n] <+: q' ++ [m] ∧
      (fs.node (q ++ [n]) = some .dir → fs.node (q' ++ [m]) = none ∨
        fs.node (q' ++ [m]) = some .dir) ∧ fs' = fs.moveTree (q ++ [n]) (q' ++ [m]) := by
  obtain ⟨s, t, v, hs, ht, hv, hcases⟩ := rename_spec h
  obtain ⟨rfl, -⟩ := place_names hlink hs
  obtain ⟨rfl, hdir⟩ := place_names hlink' ht
  rcases hcases with ⟨heq, -⟩ | ⟨hpre, rfl⟩
  · exact absurd heq hne
  · refine ⟨hdir, by rw [hv]; rfl, hpre, ?_, rfl⟩
    intro hsdir
    unfold rename at h
    rw [hs, ht] at h
    dsimp only at h
    rw [hsdir] at h
    dsimp only at h
    rw [if_neg hne, if_neg hpre] at h
    cases hm : fs.node (q' ++ [m]) with
    | none => exact Or.inl rfl
    | some w =>
        rw [hm] at h
        cases w with
        | dir => exact Or.inr rfl
        | file content => nomatch h
        | link absolute target => nomatch h

end Cbuild.Lib.Fs
