import Cbuild.Split.Take

/-! # What moving keeps

The tree as it was installed, and what stays true of the packages' directories while entries
move between them.
-/

namespace Cbuild.Split

open Lib Fs

variable {C : Type} {base pkgs : List Str} {t : List Str → Option (Node Str C)} {fs₀ fs fs' : Fs Str C}
  {pkg sp parent : Str} {r k a q : List Str} {p rel : Raw} {v : Node Str C}

def linkIn (t : List Str → Option (Node Str C)) (r : List Str) : Bool := (t r).any Node.isLink

/-- Each entry of a package is that of the tree `t` at the same path, or a directory made on
the way to one; each file and link of the tree is in one package. -/
structure Kept (base pkgs : List Str) (t : List Str → Option (Node Str C)) (fs₀ fs : Fs Str C) :
    Prop where
  base_dir : ∀ q, q <+: base → fs.node q = some .dir
  top : t [] = some .dir
  agree : ∀ pkg r v, fs.node (base ++ pkg :: r) = some v →
    t r = some v ∨ v = .dir ∧ linkIn t r = false
  closed : ∀ pkg r x v, fs.node (base ++ pkg :: (r ++ [x])) = some v →
    fs.node (base ++ pkg :: r) = some .dir
  once : ∀ r v, t r = some v → v ≠ .dir → ∃ pkg, fs.node (base ++ pkg :: r) = some v ∧
    ∀ pkg', fs.node (base ++ pkg' :: r) = some v → pkg' = pkg
  known : ∀ pkg r v, fs.node (base ++ pkg :: r) = some v → pkg ∈ pkgs
  outside : ∀ q, (∀ pkg r, q ≠ base ++ pkg :: r) → fs.node q = fs₀.node q

theorem not_below_base (hq : q <+: base) : q ≠ base ++ pkg :: r := by
  rintro rfl
  have := hq.length_le
  simp only [List.length_append, List.length_cons] at this
  omega

section Moved

variable (fs) (hne : sp ≠ parent)
include hne

/-- The entries of the packages after one has been moved from `parent` to `sp`. -/
theorem node_moved (base r : List Str) (pkg : Str) (k : List Str) :
    node (fs.moveTree (base ++ parent :: r) (base ++ sp :: r)) (base ++ pkg :: k) =
      if sp = pkg ∧ r <+: k then fs.node (base ++ parent :: k)
      else if parent = pkg ∧ r <+: k then none else fs.node (base ++ pkg :: k) := by
  have hbelow : ∀ pkg pkg' k, base ++ pkg :: r <+: base ++ pkg' :: k ↔ pkg = pkg' ∧ r <+: k := by
    intro pkg pkg' k
    rw [List.prefix_append_right_inj, List.cons_prefix_cons]
  rw [node_moveTree (fun hp => hne ((hbelow parent sp r).mp hp).1.symm)
    (fun hp => hne ((hbelow sp parent r).mp hp).1)]
  simp only [hbelow]
  split
  · rename_i hsp
    obtain ⟨k', rfl⟩ := hsp.2
    have hdrop : (base ++ pkg :: (r ++ k')).drop (base ++ sp :: r).length = k' := by
      rw [← List.cons_append, ← List.append_assoc]
      exact List.drop_left' (by simp)
    rw [hdrop]
    simp
  · rfl

theorem node_moved_outside (base r : List Str) (hq : ∀ pkg k, q ≠ base ++ pkg :: k) :
    node (fs.moveTree (base ++ parent :: r) (base ++ sp :: r)) q = fs.node q := by
  rw [node_moveTree, if_neg, if_neg]
  · rintro ⟨k, rfl⟩
    exact hq parent (r ++ k) (by simp)
  · rintro ⟨k, rfl⟩
    exact hq sp (r ++ k) (by simp)
  · rw [List.prefix_append_right_inj, List.cons_prefix_cons]
    exact fun hp => hne hp.1.symm
  · rw [List.prefix_append_right_inj, List.cons_prefix_cons]
    exact fun hp => hne hp.1

end Moved

namespace Kept

variable (h : Kept base pkgs t fs₀ fs)

include h

theorem link_agree {r : List Str} {absolute : Bool} {target : Raw}
    (hr : fs.node (base ++ pkg :: r) = some (.link absolute target)) : linkIn t r = true := by
  obtain ht | ⟨hdir, -⟩ := h.agree pkg r _ hr
  · rw [linkIn, ht]
    rfl
  · cases hdir

theorem root_dir (hv : fs.node (base ++ [pkg]) = some v) : v = .dir := by
  obtain ht | ⟨hdir, -⟩ := h.agree pkg [] v hv
  · rw [h.top] at ht
    exact (Option.some.inj ht).symm
  · exact hdir

/-- Nothing is below what is not there. -/
theorem none_below (hr : fs.node (base ++ pkg :: r) = none) (k : List Str) :
    fs.node (base ++ pkg :: (r ++ k)) = none := by
  induction k using List.reverseRecOn with
  | nil => rwa [List.append_nil]
  | append_singleton k x ih =>
      cases hv : fs.node (base ++ pkg :: (r ++ (k ++ [x]))) with
      | none => rfl
      | some v =>
          rw [← List.append_assoc] at hv
          rw [h.closed pkg _ x v hv] at ih
          cases ih

/-! ## Paths in a package -/

theorem walk_pkg (pkg : Str) (p : Raw) : fs.stat (destdir base pkg ++ p) =
    if (fs.node (base ++ [pkg])).isSome then fs.walk 40 (base ++ [pkg]) p else .error .noent := by
  have hbase : fs.stat (destdir base pkg ++ p) = fs.walk 40 base (.down pkg :: p) := by
    have := walk_names fs 40 [] base (fun ns' hns' _ => h.base_dir ns' hns')
      (.down pkg :: p)
    rw [List.nil_append] at this
    rw [← this, stat, destdir, List.map_append, List.append_assoc]
    rfl
  rw [hbase, walk_down]
  cases hv : fs.node (base ++ [pkg]) with
  | none => rfl
  | some v =>
      cases h.root_dir hv
      rfl

theorem stat_plain (hrel : plainWalk (linkIn t) [] rel = some a) {p : Raw}
    (hq : fs.stat (destdir base pkg ++ (rel ++ p)) = .ok q) :
    fs.stat (destdir base pkg ++ rel) = .ok (base ++ pkg :: a) ∧
      fs.walk 40 (base ++ pkg :: a) p = .ok q := by
  rw [h.walk_pkg] at hq ⊢
  split at hq
  · rename_i hsome
    rw [if_pos hsome]
    have hlink : ∀ r absolute target, fs.node (base ++ [pkg] ++ r) = some (.link absolute target) →
        linkIn t r = true := by
      intro r absolute target hr
      rw [List.append_assoc] at hr
      exact h.link_agree hr
    have := walk_plain (linkIn t) (base ++ [pkg]) hlink hrel (by rwa [List.append_nil])
    simpa using this
  · cases hq

theorem stat_plain_eq (hrel : plainWalk (linkIn t) [] rel = some a)
    (hq : fs.stat (destdir base pkg ++ rel) = .ok q) : q = base ++ pkg :: a := by
  have := (h.stat_plain hrel (p := []) (by rwa [List.append_nil])).2
  rw [walk_nil] at this
  exact (Except.ok.inj this).symm

theorem place_plain (hrel : plainPlace (linkIn t) rel = some r)
    (hq : fs.place (destdir base pkg ++ rel) = .ok q) : q = base ++ pkg :: r := by
  obtain ⟨p', n, d, hp, hstat, hd, rfl⟩ | ⟨hlast, hstat⟩ := place_cases hq
  · obtain rfl | ⟨rel', c, rfl⟩ := List.eq_nil_or_concat' rel
    · -- the directory of the package itself
      cases hrel
      have hp' : base.map Comp.down = p' ∧ Comp.down pkg = .down n := by
        rw [List.append_nil, destdir, List.map_append, List.map_singleton] at hp
        exact List.append_singleton_inj.mp hp
      have := walk_names fs 40 [] base (fun ns' hns' _ => h.base_dir ns' hns') []
      rw [List.append_nil, List.nil_append, walk_nil] at this
      rw [← hp'.1, stat, this] at hstat
      cases hstat
      cases hp'.2
      rfl
    · rw [← List.append_assoc] at hp
      obtain ⟨rfl, rfl⟩ := List.append_singleton_inj.mp hp
      rw [plainPlace, List.getLast?_concat, List.dropLast_concat, Option.map_eq_some_iff] at hrel
      obtain ⟨a, ha, rfl⟩ := hrel
      rw [h.stat_plain_eq ha hstat, List.append_assoc]
      rfl
  · have hplain : plainPlace (linkIn t) rel = plainWalk (linkIn t) [] rel := by
      unfold plainPlace
      split
      · rename_i n hn
        have hne : rel ≠ [] := by
          rintro rfl
          cases hn
        exact absurd (by rw [List.getLast?_append_of_ne_nil _ hne, hn]) (hlast n)
      · rfl
    rw [hplain] at hrel
    exact h.stat_plain_eq hrel hstat

/-! ## Single changes -/

/-- A directory is made where the tree has no link. -/
theorem make (hpkg : pkg ∈ pkgs) (hnone : fs.node (base ++ pkg :: r) = none) (hlink : linkIn t r = false)
    (hparent : ∀ k x, r = k ++ [x] → fs.node (base ++ pkg :: k) = some .dir)
    (hnode : ∀ q, fs'.node q = if base ++ pkg :: r = q then some .dir else fs.node q) :
    Kept base pkgs t fs₀ fs' := by
  have hold : ∀ q v, fs.node q = some v → fs'.node q = some v := by
    intro q v hv
    rw [hnode, if_neg, hv]
    rintro rfl
    rw [hnone] at hv
    cases hv
  refine ⟨fun q hq => hold q _ (h.base_dir q hq), h.top, ?_, ?_, ?_, ?_, ?_⟩
  · intro pkg' r' v hv
    rw [hnode] at hv
    by_cases heq : base ++ pkg :: r = base ++ pkg' :: r'
    · rw [if_pos heq] at hv
      obtain ⟨rfl, rfl⟩ : pkg = pkg' ∧ r = r' := by simpa using heq
      exact Or.inr ⟨(Option.some.inj hv).symm, hlink⟩
    · rw [if_neg heq] at hv
      exact h.agree pkg' r' v hv
  · intro pkg' r' x v hv
    rw [hnode] at hv
    by_cases heq : base ++ pkg :: r = base ++ pkg' :: (r' ++ [x])
    · obtain ⟨rfl, rfl⟩ : pkg = pkg' ∧ r = r' ++ [x] := by simpa using heq
      exact hold _ _ (hparent r' x rfl)
    · rw [if_neg heq] at hv
      exact hold _ _ (h.closed pkg' r' x v hv)
  · intro r' v ht hv
    obtain ⟨pkg', hpkg', honly⟩ := h.once r' v ht hv
    refine ⟨pkg', hold _ _ hpkg', ?_⟩
    intro pkg'' hpkg''
    rw [hnode] at hpkg''
    split at hpkg''
    · exact absurd (Option.some.inj hpkg'').symm hv
    · exact honly pkg'' hpkg''
  · intro pkg' r' v hv
    rw [hnode] at hv
    split at hv
    · rename_i heq
      obtain ⟨rfl, -⟩ : pkg = pkg' ∧ r = r' := by simpa using heq
      exact hpkg
    · exact h.known pkg' r' v hv
  · intro q hq
    rw [hnode, if_neg (Ne.symm (hq pkg r))]
    exact h.outside q hq

/-- An empty directory goes. -/
theorem unmake (hdir : fs.node (base ++ pkg :: r) = some .dir)
    (hempty : ∀ x, fs.node (base ++ pkg :: (r ++ [x])) = none)
    (hnode : ∀ q, fs'.node q = if base ++ pkg :: r = q then none else fs.node q) :
    Kept base pkgs t fs₀ fs' := by
  have hnew : ∀ q v, fs'.node q = some v → fs.node q = some v := by
    intro q v hv
    rw [hnode] at hv
    split at hv
    · cases hv
    · exact hv
  refine ⟨?_, h.top, fun pkg r v hv => h.agree pkg r v (hnew _ _ hv), ?_, ?_,
    fun pkg r v hv => h.known pkg r v (hnew _ _ hv), ?_⟩
  · intro q hq
    rw [hnode, if_neg (Ne.symm (not_below_base hq))]
    exact h.base_dir q hq
  · intro pkg' r' x v hv
    have hold := hnew _ _ hv
    rw [hnode, if_neg]
    · exact h.closed pkg' r' x v hold
    · intro heq
      obtain ⟨rfl, rfl⟩ : pkg = pkg' ∧ r = r' := by simpa using heq
      rw [hempty] at hold
      cases hold
  · intro r' v ht hv
    obtain ⟨pkg', hpkg', honly⟩ := h.once r' v ht hv
    refine ⟨pkg', ?_, fun pkg'' hpkg'' => honly pkg'' (hnew _ _ hpkg'')⟩
    rw [hnode, if_neg]
    · exact hpkg'
    · intro heq
      rw [heq] at hdir
      exact hv (Option.some.inj (hpkg'.symm.trans hdir))
  · intro q hq
    rw [hnode, if_neg (Ne.symm (hq pkg r))]
    exact h.outside q hq

/-- What is moved is moved with what is above and below it. -/
theorem moved_closed (hne : sp ≠ parent)
    (hparent : ∀ k x, r = k ++ [x] → fs.node (base ++ sp :: k) = some .dir) {x : Str}
    (hv : node (fs.moveTree (base ++ parent :: r) (base ++ sp :: r)) (base ++ pkg :: (k ++ [x])) =
      some v) :
    node (fs.moveTree (base ++ parent :: r) (base ++ sp :: r)) (base ++ pkg :: k) = some .dir := by
  rw [node_moved fs hne] at hv ⊢
  by_cases hk : r <+: k
  · have hkx : r <+: k ++ [x] := hk.trans (List.prefix_append k [x])
    simp only [hk, hkx, and_true] at hv ⊢
    split at hv
    · rename_i hsp
      rw [if_pos hsp]
      exact h.closed parent k x v hv
    · rename_i hsp
      rw [if_neg hsp]
      split at hv
      · cases hv
      · rename_i hpar
        rw [if_neg hpar]
        exact h.closed pkg k x v hv
  · simp only [hk, and_false, if_false]
    by_cases hkx : r <+: k ++ [x]
    · have hr : r = k ++ [x] := (List.prefix_concat_iff.mp hkx).resolve_right hk
      simp only [hkx, and_true] at hv
      split at hv
      · rename_i hsp
        rw [← hsp]
        exact hparent k x hr
      · split at hv
        · cases hv
        · exact h.closed pkg k x v hv
    · simp only [hkx, and_false, if_false] at hv
      exact h.closed pkg k x v hv

theorem moved_once (hne : sp ≠ parent) (hdst : fs.node (base ++ sp :: r) = none)
    (ht : t k = some v) (hv : v ≠ .dir) :
    ∃ pkg, node (fs.moveTree (base ++ parent :: r) (base ++ sp :: r)) (base ++ pkg :: k) = some v ∧
      ∀ pkg', node (fs.moveTree (base ++ parent :: r) (base ++ sp :: r)) (base ++ pkg' :: k) =
        some v → pkg' = pkg := by
  obtain ⟨pkg, hpkg, honly⟩ := h.once k v ht hv
  by_cases hk : r <+: k
  · have hnosp : fs.node (base ++ sp :: k) = none := by
      obtain ⟨k', rfl⟩ := hk
      exact h.none_below hdst k'
    by_cases hpar : pkg = parent
    · subst hpar
      refine ⟨sp, by rw [node_moved fs hne, if_pos ⟨rfl, hk⟩, hpkg], ?_⟩
      intro pkg' hpkg'
      rw [node_moved fs hne] at hpkg'
      split at hpkg'
      · rename_i hsp
        exact hsp.1.symm
      · split at hpkg'
        · cases hpkg'
        · rename_i hno
          exact absurd ⟨(honly pkg' hpkg').symm, hk⟩ hno
    · have hsp : sp ≠ pkg := by
        rintro rfl
        rw [hnosp] at hpkg
        cases hpkg
      refine ⟨pkg, ?_, ?_⟩
      · rw [node_moved fs hne, if_neg fun h => hsp h.1, if_neg fun h => hpar h.1.symm, hpkg]
      · intro pkg' hpkg'
        rw [node_moved fs hne] at hpkg'
        split at hpkg'
        · exact absurd (honly parent hpkg').symm hpar
        · split at hpkg'
          · cases hpkg'
          · exact honly pkg' hpkg'
  · have hstays : ∀ pkg, node (fs.moveTree (base ++ parent :: r) (base ++ sp :: r))
        (base ++ pkg :: k) = fs.node (base ++ pkg :: k) := by
      intro pkg
      rw [node_moved fs hne, if_neg fun h => hk h.2, if_neg fun h => hk h.2]
    refine ⟨pkg, (hstays pkg).trans hpkg, fun pkg' hpkg' => honly pkg' ?_⟩
    rwa [hstays] at hpkg'

/-- What is at a path goes to the same path of another package, which had nothing there. -/
theorem moved (hpkg : sp ∈ pkgs) (hne : sp ≠ parent)
    (hdst : fs.node (base ++ sp :: r) = none)
    (hparent : ∀ k x, r = k ++ [x] → fs.node (base ++ sp :: k) = some .dir) :
    Kept base pkgs t fs₀ (fs.moveTree (base ++ parent :: r) (base ++ sp :: r)) where
  base_dir := by
    intro q hq
    rw [node_moved_outside fs hne base r fun pkg k => not_below_base hq]
    exact h.base_dir q hq
  top := h.top
  agree := by
    intro pkg k v hv
    rw [node_moved fs hne] at hv
    split at hv
    · exact h.agree parent k v hv
    · split at hv
      · cases hv
      · exact h.agree pkg k v hv
  closed := fun _ _ _ _ hv => h.moved_closed hne hparent hv
  once := fun _ _ ht hv => h.moved_once hne hdst ht hv
  known := by
    intro pkg k v hv
    rw [node_moved fs hne] at hv
    split at hv
    · rename_i hsp
      exact hsp.1 ▸ hpkg
    · split at hv
      · cases hv
      · exact h.known pkg k v hv
  outside := fun q hq => (node_moved_outside fs hne base r hq).trans (h.outside q hq)

/-! ## The calls -/

theorem mkdir {p' : Raw} (hpkg : pkg ∈ pkgs) (hp' : p' <+: destdir base pkg ++ rel)
    (hrel : plainWalk (linkIn t) [] rel = some a) (hmk : fs.mkdir p' = .ok fs') :
    Kept base pkgs t fs₀ fs' ∧ ∀ pkg' r, pkg' ≠ pkg →
      fs'.node (base ++ pkg' :: r) = fs.node (base ++ pkg' :: r) := by
  obtain ⟨p'', n, d, rfl, hstat, hd, hnone, rfl⟩ := mkdir_spec hmk
  have hplace := place_snoc hstat hd n
  suffices hr : ∃ r, d ++ [n] = base ++ pkg :: r ∧ linkIn t r = false by
    obtain ⟨r, hr, hlink⟩ := hr
    rw [hr] at hnone ⊢
    have hnode : ∀ q, node (Dict.set fs (base ++ pkg :: r) .dir) q =
        if base ++ pkg :: r = q then some .dir else fs.node q := fun q => node_set (by simp)
    refine ⟨h.make hpkg hnone hlink ?_ hnode, ?_⟩
    · rintro k x rfl
      rw [← List.cons_append, ← List.append_assoc] at hr
      rw [← (List.append_singleton_inj.mp hr).1]
      exact hd
    · intro pkg' r' hne
      rw [hnode, if_neg]
      intro heq
      have := (List.cons.inj (List.append_cancel_left heq)).1
      exact hne this.symm
  have hbase : ∀ m, m ++ [n] <+: base → p'' ≠ m.map Comp.down := by
    rintro m hm rfl
    have := walk_names fs 40 [] m (fun ns' hns' _ =>
      h.base_dir ns' (hns'.trans ((List.prefix_append m [n]).trans hm))) []
    rw [List.append_nil, List.nil_append, walk_nil] at this
    rw [stat, this] at hstat
    cases hstat
    rw [h.base_dir _ hm] at hnone
    cases hnone
  have hdest : destdir base pkg <+: p'' ++ [Comp.down n] := by
    obtain hpre | hpre := List.prefix_or_prefix_of_prefix hp' (List.prefix_append _ rel)
    · rw [destdir, List.map_append, List.map_singleton, List.prefix_concat_iff] at hpre
      obtain heq | hpre := hpre
      · rw [heq, destdir, List.map_append, List.map_singleton]
      · obtain ⟨z, hz⟩ := hpre
        obtain ⟨l, l', rfl, hl, -⟩ := List.map_eq_append_iff.mp hz.symm
        obtain ⟨m, n', rfl, hm, hn'⟩ := List.map_eq_append_iff.mp hl
        obtain ⟨rfl⟩ : n' = [n] := by
          cases n' with
          | nil => cases hn'
          | cons x xs => simpa using hn'
        exact absurd hm.symm (hbase m (List.prefix_append _ l'))
    · exact hpre
  obtain ⟨rel', hrel'⟩ := hdest
  rw [← hrel', List.prefix_append_right_inj] at hp'
  obtain ⟨r, hr⟩ := plainWalk_prefix hp' hrel
  rw [← hrel'] at hplace
  obtain rfl | ⟨x, c, rfl⟩ := List.eq_nil_or_concat' rel'
  · cases hr
    exact ⟨[], h.place_plain (plainPlace_of_plainWalk (plainWalk_nil _ _)) hplace, by rw [linkIn, h.top]; rfl⟩
  · rw [← List.append_assoc] at hrel'
    obtain ⟨-, rfl⟩ := List.append_singleton_inj.mp hrel'
    obtain ⟨d', hd', rfl, hlink⟩ := plainWalk_snoc_some hr
    exact ⟨d' ++ [n], h.place_plain (by rw [plainPlace_snoc, hd']; rfl) hplace, hlink⟩

/-- The directories that are made belong to one package, and nothing goes. -/
theorem mkdirs (hpkg : pkg ∈ pkgs) (hrel : plainWalk (linkIn t) [] rel = some a)
    (hmk : fs.mkdirs (destdir base pkg ++ rel) = .ok fs') :
    Kept base pkgs t fs₀ fs' ∧ (∀ q v, fs.node q = some v → fs'.node q = some v) ∧
    (∀ pkg' r, pkg' ≠ pkg → fs'.node (base ++ pkg' :: r) = fs.node (base ++ pkg' :: r)) ∧
    fs'.stat (destdir base pkg ++ rel) = .ok (base ++ pkg :: a) ∧
    fs'.node (base ++ pkg :: a) = some .dir := by
  have hspec := mkdirs_spec (I := fun fs' => Kept base pkgs t fs₀ fs' ∧
      (∀ q v, fs.node q = some v → fs'.node q = some v) ∧ ∀ pkg' r, pkg' ≠ pkg →
      fs'.node (base ++ pkg' :: r) = fs.node (base ++ pkg' :: r))
    ⟨h, fun _ _ hv => hv, fun _ _ _ => rfl⟩ ?_ hmk
  · obtain ⟨⟨hkept, hmono, hframe⟩, hdir⟩ := hspec
    obtain ⟨q, hstat, hq⟩ := isDir_iff.mp hdir
    cases hkept.stat_plain_eq hrel hstat
    exact ⟨hkept, hmono, hframe, hstat, hq⟩
  · intro fs₁ fs₂ p' hp' hI hmk
    obtain ⟨hkept, hmono, hframe⟩ := hI
    obtain ⟨hkept', hframe'⟩ := hkept.mkdir hpkg hp' hrel hmk
    exact ⟨hkept', fun q v hv => mkdir_mono hmk (hmono q v hv),
      fun pkg' r hne => (hframe' pkg' r hne).trans (hframe pkg' r hne)⟩

theorem rmdir (hrel : plainWalk (linkIn t) [] rel = some a)
    (hrm : fs.rmdir (destdir base pkg ++ rel) = .ok fs') : Kept base pkgs t fs₀ fs' := by
  obtain ⟨q, hq, hdir, hempty, rfl⟩ := rmdir_spec hrm
  cases h.place_plain (plainPlace_of_plainWalk hrel) hq
  apply h.unmake hdir
  · intro x
    simpa using hempty x
  · exact fun q => node_erase (by simp)

/-- A package comes with nothing in its directory. -/
theorem declare : Kept base (pkg :: pkgs) t fs₀ fs :=
  ⟨h.base_dir, h.top, h.agree, h.closed, h.once,
    fun pkg' r v hv => List.mem_cons_of_mem pkg (h.known pkg' r v hv), h.outside⟩

end Kept

end Cbuild.Split
