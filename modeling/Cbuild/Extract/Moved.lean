import Cbuild.Extract.Sources

/-! # What is moved into place

What one directory that is moved leaves, and all of them in their order.
-/

namespace Cbuild.Extract

open Lib Fs

variable {C : Type} {pkg : Pkg} {fs fs₁ fs₂ fs' : Fs Str C} {tree : Tree Str C}
  {wpath : List (Comp Str)} {replace : Bool} {edirs : List (EDir C)} {ed : EDir C} {t : List Str}
  {n : Str} {ns : List Str}

/-- A path within the source directory, which may come after a plus. -/
def Within (sp : Str) : Prop :=
  (if replaces sp then sp.drop 1 else sp).head? ≠ some '/' ∧
    ∃ n ns, parts (if replaces sp then sp.drop 1 else sp) = (n :: ns).map Comp.down

theorem target_of_within (pkg : Pkg) {sp : Str} (h : Within sp) :
    ∃ n ns, target pkg.wpath sp = (pkg.srcdir ++ n :: ns).map .down := by
  obtain ⟨hhead, n, ns, hparts⟩ := h
  refine ⟨n, ns, ?_⟩
  unfold target join
  rw [if_neg hhead, hparts, List.map_append]
  rfl

theorem map_down_append (q : List Str) (n : Str) (ns : List Str) :
    (q ++ n :: ns).map Comp.down = (q ++ (n :: ns).dropLast).map .down ++
      [.down ((n :: ns).getLast (List.cons_ne_nil n ns))] := by
  rw [← List.map_singleton, ← List.map_append, List.append_assoc, List.dropLast_append_getLast]

/-! ## The contents -/

theorem closed_flattened (tree : Tree Str C) : (flattened tree).Closed := by
  unfold flattened
  split
  · split
    · rename_i hdir
      exact closed_subtree tree.closed (dirAt_iff.mp hdir)
    · exact tree.closed
  · exact tree.closed

/-! ## One directory -/

/-- The target is cleared if it is to be replaced, what is above it is made, and then there is at
most an empty directory at its place. -/
structure Placeable (wpath : List (Comp Str)) (replace : Bool) (fs fs₂ : Fs Str C) (t : List Str) :
    Prop where
  absent : fs.pathExists wpath = true → replace = true
  above : ∃ fs₁, (if fs.pathExists wpath then fs.rm wpath else .ok fs) = .ok fs₁ ∧
    fs₁.mkdirs wpath.dropLast = .ok fs₂
  place : fs₂.place wpath = .ok t
  vacant : fs₂.Vacant t

theorem renameEdir_blank (h : Blank tree) : renameEdir tree wpath replace fs = (.ok (), fs) := if_pos h

theorem renameEdir_of_placeable (hblank : ¬ Blank tree) (h : Placeable wpath replace fs fs₂ t) :
    renameEdir tree wpath replace fs = (.ok (), fs₂.graft t (flattened tree)) := by
  have hnot : ¬ (fs.pathExists wpath = true ∧ replace = false) := by
    intro hboth
    rw [h.absent hboth.1] at hboth
    cases hboth.2
  obtain ⟨fs₁, hrm, hmk⟩ := h.above
  unfold renameEdir
  rw [if_neg hblank, if_neg hnot, hrm]
  dsimp only
  rw [hmk]
  dsimp only
  rw [moveIn_of_vacant h.place h.vacant]

/-- How a directory that is not blank is moved, or is not. -/
theorem renameEdir_cases (hblank : ¬ Blank tree) (wpath : List (Comp Str)) (replace : Bool)
    (fs : Fs Str C) :
    (∃ fs₂ t, Placeable wpath replace fs fs₂ t) ∨
    (fs.pathExists wpath = true ∧
      renameEdir tree wpath replace fs = (.error (.package (.taken wpath)), fs)) ∨
    ∃ e fs', renameEdir tree wpath replace fs = (.error (.os e), fs') := by
  by_cases htaken : fs.pathExists wpath = true ∧ replace = false
  · right
    left
    refine ⟨htaken.1, ?_⟩
    unfold renameEdir
    rw [if_neg hblank, if_pos htaken]
  have habsent : fs.pathExists wpath = true → replace = true := by
    intro hexists
    cases hrep : replace with
    | true => rfl
    | false => exact absurd ⟨hexists, hrep⟩ htaken
  cases hrm : (if fs.pathExists wpath then fs.rm wpath else .ok fs) with
  | error e =>
      refine Or.inr (Or.inr ⟨e, fs, ?_⟩)
      unfold renameEdir
      rw [if_neg hblank, if_neg htaken, hrm]
  | ok fs₁ =>
      cases hmk : fs₁.mkdirs wpath.dropLast with
      | error e =>
          refine Or.inr (Or.inr ⟨e, fs₁, ?_⟩)
          unfold renameEdir
          rw [if_neg hblank, if_neg htaken, hrm]
          dsimp only
          rw [hmk]
      | ok fs₂ =>
          cases hmove : fs₂.moveIn (flattened tree) wpath with
          | error e =>
              refine Or.inr (Or.inr ⟨e, fs₂, ?_⟩)
              unfold renameEdir
              rw [if_neg hblank, if_neg htaken, hrm]
              dsimp only
              rw [hmk]
              dsimp only
              rw [hmove]
          | ok fs₃ =>
              obtain ⟨t, hplace, hvacant, _⟩ := moveIn_spec hmove
              exact Or.inl ⟨fs₂, t, habsent, ⟨fs₁, hrm, hmk⟩, hplace, hvacant⟩

/-! ## The source directory -/

/-- Everything is in a directory, and nothing but directories leads to the source directory. -/
structure Straight (pkg : Pkg) (fs : Fs Str C) : Prop where
  closed : fs.Closed
  dirs : ∀ q, q <+: pkg.srcdir → ∀ v, fs.node q = some v → v = .dir

theorem Straight.removeTree (h : Straight pkg fs) (q : List Str) :
    Straight pkg (fs.removeTree q) where
  closed := closed_removeTree h.closed
  dirs := fun q' hq' v hv => h.dirs q' hq' v (node_of_removeTree hv)

theorem Straight.rm (h : Straight pkg fs) (hrm : fs.rm wpath = .ok fs₁) : Straight pkg fs₁ := by
  unfold Fs.rm at hrm
  split at hrm
  · cases hrm
  · split at hrm
    · cases hrm
      exact h.removeTree _
    · cases hrm

theorem Straight.mkdir (h : Straight pkg fs) (hmk : fs.mkdir wpath = .ok fs') :
    Straight pkg fs' where
  closed := closed_mkdir h.closed hmk
  dirs := by
    obtain ⟨q, _, _, hnode⟩ := mkdir_node hmk
    intro q' hq' v hv
    rw [hnode] at hv
    split at hv
    · cases hv
      rfl
    · exact h.dirs q' hq' v hv

theorem Straight.mkdirs (h : Straight pkg fs) (hmk : fs.mkdirs wpath = .ok fs') :
    Straight pkg fs' :=
  (mkdirs_spec h (fun _ _ _ _ h hmk => h.mkdir hmk) hmk).1

/-- A path within the source directory that leads somewhere leads through it. -/
theorem Straight.stat (h : Straight pkg fs) {q : List Str}
    (hstat : fs.stat ((pkg.srcdir ++ ns).map .down) = .ok q) :
    fs.DirsTo pkg.srcdir ∧ fs.walk 40 pkg.srcdir (ns.map .down) = .ok q := by
  have hwalk : fs.walk 40 [] (pkg.srcdir.map .down ++ ns.map .down) = .ok q := by
    rw [← List.map_append]
    exact hstat
  obtain ⟨hdirs, hrest⟩ := walk_names_ok hwalk h.dirs
  refine ⟨fun q' hq' => ?_, hrest⟩
  by_cases hnil : q' = []
  · rw [hnil]
    rfl
  · exact hdirs q' hq' hnil

theorem isSome_of_walk {links : Nat} {q d : List Str} {p : List (Comp Str)}
    (h : fs.walk links q (.down n :: p) = .ok d) : (fs.node (q ++ [n])).isSome = true := by
  rw [walk_down] at h
  cases hv : fs.node (q ++ [n]) with
  | none =>
      rw [hv] at h
      cases h
  | some v => rfl

theorem pathExists_iff {p : List (Comp Str)} :
    fs.pathExists p = true ↔ ∃ q, fs.stat p = .ok q := by
  unfold pathExists
  cases fs.stat p with
  | error e => exact iff_of_false Bool.false_ne_true fun hex => by cases hex.choose_spec
  | ok q => exact iff_of_true rfl ⟨q, rfl⟩

/-- The source directory is not empty. -/
def Filled (pkg : Pkg) (fs : Fs Str C) : Prop := ∃ n, (fs.node (pkg.srcdir ++ [n])).isSome = true

theorem Straight.not_vacant (h : Straight pkg fs) (hfilled : Filled pkg fs) :
    ¬ fs.Vacant pkg.srcdir := by
  obtain ⟨n, hn⟩ := hfilled
  exact Fs.not_vacant h.closed hn

/-- What is within the source directory fills it. -/
theorem Straight.filled_of_exists (h : Straight pkg fs)
    (hexists : fs.pathExists ((pkg.srcdir ++ n :: ns).map .down) = true) : Filled pkg fs := by
  obtain ⟨q, hq⟩ := pathExists_iff.mp hexists
  exact ⟨n, isSome_of_walk (h.stat hq).2⟩

/-- What is known after a directory has been moved to a place within the source directory. -/
theorem Straight.graft (h : Straight pkg fs)
    (hplace : Placeable ((pkg.srcdir ++ n :: ns).map .down) replace fs fs₂ t) (tree : Tree Str C) :
    Straight pkg (fs₂.graft t (flattened tree)) ∧ Filled pkg (fs₂.graft t (flattened tree)) := by
  obtain ⟨fs₁, hrm, hmk⟩ := hplace.above
  have h₁ : Straight pkg fs₁ := by
    split at hrm
    · exact h.rm hrm
    · cases hrm
      exact h
  have h₂ := h₁.mkdirs hmk
  have hdrop : ((pkg.srcdir ++ n :: ns).map Comp.down).dropLast =
      (pkg.srcdir ++ (n :: ns).dropLast).map .down := by
    rw [← List.map_dropLast, List.dropLast_append_of_ne_nil (List.cons_ne_nil n ns)]
  have hisDir := (mkdirs_spec (I := fun _ => True) trivial (fun _ _ _ _ _ _ => trivial) hmk).2
  rw [hdrop] at hisDir
  obtain ⟨d, hstat, hd⟩ := isDir_iff.mp hisDir
  obtain ⟨hdirs, hwalk⟩ := h₂.stat hstat
  -- the place is an entry of the directory above
  have ht : t = d ++ [(n :: ns).getLast (List.cons_ne_nil n ns)] := by
    have hplace' := hplace.place
    rw [map_down_append, place_snoc hstat hd] at hplace'
    exact (Except.ok.inj hplace').symm
  have hne : t ≠ [] := by
    rw [ht]
    exact List.append_ne_nil_of_right_ne_nil d (List.cons_ne_nil _ [])
  -- a directory that is not vacant is not below the place
  have hkept : fs₂.Extends (fs₂.graft t (flattened tree)) :=
    hplace.vacant.graft_extends h₂.closed hne _
  constructor
  · constructor
    · rw [ht]
      exact closed_graft h₂.closed (closed_flattened tree) hd
    · intro q hq v hv
      rw [hkept q _ (hdirs q hq)] at hv
      exact (Option.some.inj hv).symm
  · refine ⟨n, ?_⟩
    cases ns with
    | nil =>
        have hsrc : d = pkg.srcdir := by
          rw [List.dropLast_singleton, List.map_nil, walk_nil] at hwalk
          exact (Except.ok.inj hwalk).symm
        have ht' : t = pkg.srcdir ++ [n] := by
          rw [ht, hsrc]
          rfl
        have hroot := node_graft_append fs₂ (flattened tree) hne []
        rw [List.append_nil, ht'] at hroot
        rw [ht', hroot]
        rfl
    | cons m ns =>
        have hn : (fs₂.node (pkg.srcdir ++ [n])).isSome = true := isSome_of_walk hwalk
        obtain ⟨v, hv⟩ := Option.isSome_iff_exists.mp hn
        rw [hkept _ v hv]
        rfl

/-! ## All directories -/

/-- There is room for each of the directories when its turn comes. -/
inductive Room (wpath : List (Comp Str)) : List (EDir C) → Fs Str C → Prop
  | nil (fs : Fs Str C) : Room wpath [] fs
  | blank {ed : EDir C} {edirs : List (EDir C)} {fs : Fs Str C} (hblank : Blank ed.tree)
      (hroom : Room wpath edirs fs) : Room wpath (ed :: edirs) fs
  | placed {ed : EDir C} {edirs : List (EDir C)} {fs fs₂ : Fs Str C} {t : List Str}
      (hblank : ¬ Blank ed.tree)
      (hplace : Placeable (target wpath ed.sp) (replaces ed.sp) fs fs₂ t)
      (hroom : Room wpath edirs (fs₂.graft t (flattened ed.tree))) : Room wpath (ed :: edirs) fs

theorem closeEdirs_blank (hblank : Blank ed.tree) :
    closeEdirs wpath (ed :: edirs) fs = closeEdirs wpath edirs fs := by
  rw [closeEdirs, renameEdir_blank hblank]

theorem closeEdirs_placed (hblank : ¬ Blank ed.tree)
    (hplace : Placeable (target wpath ed.sp) (replaces ed.sp) fs fs₂ t) :
    closeEdirs wpath (ed :: edirs) fs =
      closeEdirs wpath edirs (fs₂.graft t (flattened ed.tree)) := by
  rw [closeEdirs, renameEdir_of_placeable hblank hplace]

/-- What is left if all of them are moved. -/
theorem Room.closeEdirs (h : Room pkg.wpath edirs fs) (hs : Straight pkg fs)
    (hwithin : ∀ ed ∈ edirs, Within ed.sp) :
    ∃ fs', Extract.closeEdirs pkg.wpath edirs fs = (.ok (), fs') ∧ Straight pkg fs' ∧
      (Filled pkg fs' ∨ fs' = fs ∧ ∀ ed ∈ edirs, Blank ed.tree) ∧ (Filled pkg fs → Filled pkg fs') := by
  induction h with
  | nil fs => exact ⟨fs, rfl, hs, Or.inr ⟨rfl, fun ed hed => by cases hed⟩, id⟩
  | blank hblank _ ih =>
      obtain ⟨fs', hclose, hs', hor, hkept⟩ :=
        ih hs fun ed hed => hwithin ed (List.mem_cons_of_mem _ hed)
      rw [closeEdirs_blank hblank]
      refine ⟨fs', hclose, hs', hor.imp_right ?_, hkept⟩
      intro hall
      exact ⟨hall.1, List.forall_mem_cons.mpr ⟨hblank, hall.2⟩⟩
  | @placed ed edirs fs fs₂ t hblank hplace _ ih =>
      obtain ⟨n, ns, htarget⟩ := target_of_within pkg (hwithin _ List.mem_cons_self)
      have hgraft := hs.graft (htarget ▸ hplace) ed.tree
      obtain ⟨fs', hclose, hs', _, hkept⟩ :=
        ih hgraft.1 fun ed hed => hwithin ed (List.mem_cons_of_mem _ hed)
      rw [closeEdirs_placed hblank hplace]
      exact ⟨fs', hclose, hs', Or.inl (hkept hgraft.2), fun _ => hkept hgraft.2⟩

/-- Without room it fails, and the source directory is not empty if a target was there already. -/
theorem closeEdirs_cases (edirs : List (EDir C)) (hs : Straight pkg fs)
    (hwithin : ∀ ed ∈ edirs, Within ed.sp) : Room pkg.wpath edirs fs ∨
    ∃ fs', (∃ wpath, closeEdirs pkg.wpath edirs fs = (.error (.package (.taken wpath)), fs') ∧
      Straight pkg fs' ∧ Filled pkg fs') ∨
    ∃ e, closeEdirs pkg.wpath edirs fs = (.error (.os e), fs') := by
  induction edirs generalizing fs with
  | nil => exact Or.inl (Room.nil fs)
  | cons ed edirs ih =>
      have hrest : ∀ ed ∈ edirs, Within ed.sp :=
        fun ed hed => hwithin ed (List.mem_cons_of_mem _ hed)
      by_cases hblank : Blank ed.tree
      · rw [closeEdirs_blank hblank]
        exact (ih hs hrest).imp_left (Room.blank hblank)
      obtain ⟨n, ns, htarget⟩ := target_of_within pkg (hwithin ed List.mem_cons_self)
      rcases renameEdir_cases hblank (target pkg.wpath ed.sp) (replaces ed.sp) fs with
        ⟨fs₂, t, hplace⟩ | ⟨hexists, htaken⟩ | ⟨e, fs', hos⟩
      · rw [closeEdirs_placed hblank hplace]
        exact (ih (hs.graft (htarget ▸ hplace) ed.tree).1 hrest).imp_left (Room.placed hblank hplace)
      · right
        rw [htarget] at hexists
        refine ⟨fs, Or.inl ⟨target pkg.wpath ed.sp, ?_, hs, hs.filled_of_exists hexists⟩⟩
        rw [closeEdirs, htaken]
      · right
        refine ⟨fs', Or.inr ⟨e, ?_⟩⟩
        rw [closeEdirs, hos]

/-- The contents are at the place that the path leads to. -/
def Holds (fs : Fs Str C) (p : List (Comp Str)) (tree : Fs Str C) : Prop :=
  ∃ q, fs.stat p = .ok q ∧ ∀ r v, tree.node r = some v → fs.node (q ++ r) = some v

theorem Holds.extends {p : List (Comp Str)} {tree : Fs Str C} (h : Holds fs p tree)
    (hext : fs.Extends fs') : Holds fs' p tree := by
  obtain ⟨q, hstat, hnode⟩ := h
  exact ⟨q, hext.stat hstat, fun r v hv => hext _ v (hnode r v hv)⟩

/-- Without a plus nothing is lost, and the contents are where they are to be. -/
theorem Placeable.extends (hs : Straight pkg fs)
    (hplace : Placeable ((pkg.srcdir ++ n :: ns).map .down) false fs fs₂ t) (tree : Tree Str C) :
    fs.Extends (fs₂.graft t (flattened tree)) ∧
      Holds (fs₂.graft t (flattened tree)) ((pkg.srcdir ++ n :: ns).map .down) (flattened tree) := by
  obtain ⟨fs₁, hrm, hmk⟩ := hplace.above
  have habsent : fs.pathExists ((pkg.srcdir ++ n :: ns).map .down) ≠ true :=
    fun hexists => by cases hplace.absent hexists
  rw [if_neg habsent] at hrm
  cases hrm
  have h₂ := hs.mkdirs hmk
  obtain ⟨p, m, d, hp, hstat, hd, ht⟩ | ⟨hno, _⟩ := place_cases hplace.place
  · have hne : t ≠ [] := by
      rw [ht]
      exact List.append_ne_nil_of_right_ne_nil d (List.cons_ne_nil _ [])
    have hkept : fs₂.Extends (fs₂.graft t (flattened tree)) :=
      hplace.vacant.graft_extends h₂.closed hne _
    refine ⟨(mkdirs_extends hmk).trans hkept, t, ?_, ?_⟩
    · have hroot := node_graft_append fs₂ (flattened tree) hne []
      rw [List.append_nil] at hroot
      apply stat_of_place (v := .dir) _ hroot rfl
      rw [hp, ht]
      exact place_snoc (ht ▸ hkept.stat hstat) (ht ▸ hkept d _ hd) m
    · intro r v hv
      rw [node_graft_append fs₂ (flattened tree) hne]
      exact hv
  · rw [map_down_append, List.getLast?_concat] at hno
    exact absurd rfl (hno _)

/-- Without a plus all of them are where they are to be, and nothing is lost. -/
theorem Room.placed_all (h : Room pkg.wpath edirs fs) (hs : Straight pkg fs)
    (hwithin : ∀ ed ∈ edirs, Within ed.sp) (hplus : ∀ ed ∈ edirs, replaces ed.sp = false)
    (hclose : Extract.closeEdirs pkg.wpath edirs fs = (.ok (), fs')) :
    fs.Extends fs' ∧ ∀ ed ∈ edirs, ¬ Blank ed.tree →
      Holds fs' (target pkg.wpath ed.sp) (flattened ed.tree) := by
  induction h with
  | nil fs =>
      cases hclose
      exact ⟨Extends.refl _, fun ed hed => by cases hed⟩
  | blank hblank _ ih =>
      rw [closeEdirs_blank hblank] at hclose
      obtain ⟨hext, hall⟩ := ih hs (fun ed hed => hwithin ed (List.mem_cons_of_mem _ hed))
        (fun ed hed => hplus ed (List.mem_cons_of_mem _ hed)) hclose
      exact ⟨hext, List.forall_mem_cons.mpr ⟨fun hnot => absurd hblank hnot, hall⟩⟩
  | @placed ed edirs fs fs₂ t hblank hplace _ ih =>
      rw [closeEdirs_placed hblank hplace] at hclose
      obtain ⟨n, ns, htarget⟩ := target_of_within pkg (hwithin _ List.mem_cons_self)
      rw [hplus _ List.mem_cons_self] at hplace
      have hgraft := hs.graft (htarget ▸ hplace) ed.tree
      obtain ⟨hext, hholds⟩ := Placeable.extends hs (htarget ▸ hplace) ed.tree
      obtain ⟨hext', hall⟩ := ih hgraft.1 (fun ed hed => hwithin ed (List.mem_cons_of_mem _ hed))
        (fun ed hed => hplus ed (List.mem_cons_of_mem _ hed)) hclose
      refine ⟨hext.trans hext', List.forall_mem_cons.mpr ⟨fun _ => ?_, hall⟩⟩
      rw [htarget]
      exact hholds.extends hext'

end Cbuild.Extract
