import Cbuild.Split.Kept
import Cbuild.Lib.Fueled
import Cbuild.Lib.Reach
import Mathlib

/-! # Nothing is lost between the packages

Each file and link of the installed tree stays in one package, at its own path, as long as no
match goes through a link.
-/

namespace Cbuild.Split

open Lib Fs

variable {C : Type} {base pkgs : List Str} {t : List Str → Option (Node Str C)} {fs₀ fs fs' : Fs Str C}
  {pkg sp parent : Str} {r a : List Str} {rel src : Raw} {depth : Nat}

/-! ## One move -/

/-- Two packages do not have one link. -/
theorem Kept.not_both (h : Kept base pkgs t fs₀ fs) (hne : sp ≠ parent) {v : Node Str C}
    {absolute : Bool} {target : Raw} (hsp : fs.node (base ++ sp :: r) = some (.link absolute target))
    (hparent : fs.node (base ++ parent :: r) = some v) : False := by
  have hlink := h.link_agree hsp
  obtain hv | ⟨-, hno⟩ := h.agree parent r v hparent
  · obtain ht | ⟨hdir, -⟩ := h.agree sp r _ hsp
    · have hnd : v ≠ .dir := by
        rintro rfl
        rw [linkIn, hv] at hlink
        cases hlink
      obtain ⟨pkg, -, honly⟩ := h.once r v hv hnd
      rw [hv] at ht
      cases ht
      exact hne ((honly sp hsp).trans (honly parent hparent).symm)
    · cases hdir
  · rw [hno] at hlink
    cases hlink

theorem Kept.move (h : Kept base pkgs t fs₀ fs) (hpkg : sp ∈ pkgs) (hne : sp ≠ parent) {d : List Str} {n : Str}
    (hd : plainWalk (linkIn t) [] rel = some d)
    (hstat : fs.stat (destdir base sp ++ rel) = .ok (base ++ sp :: d))
    (hdir : fs.node (base ++ sp :: d) = some .dir)
    (hnone : fs.pathExists (destdir base sp ++ (rel ++ [.down n])) = false)
    (hok : fs.move (destdir base parent ++ (rel ++ [.down n])) (destdir base sp ++ rel) = .ok fs') :
    Kept base pkgs t fs₀ fs' ∧ fs.node (base ++ sp :: (d ++ [n])) = none := by
  have hplain : plainPlace (linkIn t) (rel ++ [.down n]) = some (d ++ [n]) := by
    rw [plainPlace_snoc, hd]
    rfl
  have hsrc : ∀ s, fs.place (destdir base parent ++ (rel ++ [.down n])) = .ok s →
      s = base ++ parent :: (d ++ [n]) := fun s hs => h.place_plain hplain hs
  unfold Fs.move at hok
  rw [if_pos (isDir_iff.mpr ⟨_, hstat, hdir⟩)] at hok
  have hlast : (destdir base parent ++ (rel ++ [Comp.down n])).getLast?.toList = [Comp.down n] := by
    rw [← List.append_assoc, List.getLast?_concat]
    rfl
  rw [hlast, List.append_assoc, hnone] at hok
  split at hok
  · -- a file and the directory it goes to are not the same
    rename_i hsame
    rw [Bool.and_eq_true, Bool.not_eq_true'] at hsame
    obtain ⟨s, -, v, hs, -, hv, -⟩ := rename_spec hok
    rw [isLink_of_place hs hv] at hsame
    obtain ⟨q, hq, hq'⟩ := sameFile_iff.mp hsame.1
    rw [stat_of_place hs hv hsame.2, hsrc s hs] at hq
    rw [hstat] at hq'
    cases hq
    have := (List.cons.inj (List.append_cancel_left (Except.ok.inj hq'))).1
    exact absurd this hne
  · simp only [Bool.false_eq_true, if_false] at hok
    obtain ⟨s, t', v, hs, ht', hv, hcase⟩ := rename_spec hok
    rw [hsrc s hs] at hv hcase
    rw [← List.append_assoc, place_snoc hstat hdir n] at ht'
    cases ht'
    have hdst : fs.node (base ++ sp :: (d ++ [n])) = none := by
      cases hw : fs.node (base ++ sp :: (d ++ [n])) with
      | none => rfl
      | some w =>
          have hstat' := stat_snoc hstat hdir n
          rw [List.append_assoc, List.cons_append, hw] at hstat'
          cases w with
          | link absolute target => exact (h.not_both hne hw hv).elim
          | dir =>
              rw [pathExists, ← List.append_assoc, hstat' (by simp)] at hnone
              cases hnone
          | file content =>
              rw [pathExists, ← List.append_assoc, hstat' (by simp)] at hnone
              cases hnone
    rw [List.append_assoc, List.cons_append] at hcase
    obtain ⟨heq, -⟩ | ⟨-, rfl⟩ := hcase
    · exact absurd (List.cons.inj (List.append_cancel_left heq)).1.symm hne
    · refine ⟨h.moved hpkg hne hdst ?_, hdst⟩
      intro k x hkx
      obtain ⟨rfl, -⟩ := List.append_singleton_inj.mp hkx
      exact hdir

theorem Kept.dir_no_link (h : Kept base pkgs t fs₀ fs) (hdir : fs.node (base ++ pkg :: r) = some .dir) :
    linkIn t r = false := by
  obtain ht | ⟨-, hno⟩ := h.agree pkg r _ hdir
  · rw [linkIn, ht]
    rfl
  · exact hno

/-- Two directories at one path are no links. -/
theorem Kept.both_dirs (h : Kept base pkgs t fs₀ fs) (hne : sp ≠ parent) {d : List Str} {n : Str}
    (hd : plainWalk (linkIn t) [] rel = some d)
    (hsp : fs.isDir (destdir base sp ++ (rel ++ [.down n])) = true)
    (hparent : fs.isDir (destdir base parent ++ (rel ++ [.down n])) = true) :
    fs.node (base ++ sp :: (d ++ [n])) = some .dir ∧
      fs.node (base ++ parent :: (d ++ [n])) = some .dir := by
  have hentry : ∀ pkg, fs.isDir (destdir base pkg ++ (rel ++ [.down n])) = true →
      ∃ v, fs.node (base ++ pkg :: (d ++ [n])) = some v ∧ (v = .dir ∨ v.isLink = true) := by
    intro pkg hpkg
    obtain ⟨q, hq, hdir⟩ := isDir_iff.mp hpkg
    have hwalk := (h.stat_plain hd hq).2
    rw [walk_down, List.append_assoc, List.cons_append] at hwalk
    cases hv : fs.node (base ++ pkg :: (d ++ [n])) with
    | none =>
        rw [hv] at hwalk
        cases hwalk
    | some v =>
        cases v with
        | dir => exact ⟨.dir, rfl, Or.inl rfl⟩
        | link absolute target => exact ⟨_, rfl, Or.inr rfl⟩
        | file content =>
            rw [hv] at hwalk
            cases hwalk
            rw [hv] at hdir
            cases hdir
  obtain ⟨v, hv, hv'⟩ := hentry sp hsp
  obtain ⟨w, hw, hw'⟩ := hentry parent hparent
  have hno : ∀ u : Node Str C, u.isLink = true → ∃ absolute target, u = .link absolute target := by
    intro u hu
    cases u with
    | link absolute target => exact ⟨absolute, target, rfl⟩
    | dir => cases hu
    | file content => cases hu
  obtain rfl | hlink := hv'
  · obtain rfl | hlink := hw'
    · exact ⟨hv, hw⟩
    · obtain ⟨absolute, target, rfl⟩ := hno w hlink
      exact (h.not_both (Ne.symm hne) hw hv).elim
  · obtain ⟨absolute, target, rfl⟩ := hno v hlink
    exact (h.not_both hne hv hw).elim

/-- The path above the last name; without a last name, the path leads to a directory. -/
theorem plain_cases (ha : plainWalk (linkIn t) [] rel = some a)
    (hr : plainPlace (linkIn t) (rel ++ src) = some r) :
    ∃ d, plainWalk (linkIn t) [] (rel ++ src.dropLast) = some d ∧
      ((∃ n, src = src.dropLast ++ [.down n] ∧ r = d ++ [n]) ∨
        plainWalk (linkIn t) [] (rel ++ src) = some r ∧ (src = [] ∨ src = src.dropLast ++ [.up])) := by
  obtain rfl | ⟨s, c, rfl⟩ := List.eq_nil_or_concat' src
  · rw [List.append_nil] at hr
    rw [plainPlace_of_plainWalk ha] at hr
    cases hr
    exact ⟨_, by simpa using ha, Or.inr ⟨by simpa using ha, Or.inl rfl⟩⟩
  · rw [List.dropLast_concat]
    rw [← List.append_assoc] at hr ⊢
    cases c with
    | up =>
        rw [plainPlace, List.getLast?_concat] at hr
        obtain ⟨d, hd⟩ := plainWalk_prefix (List.prefix_append _ _) hr
        exact ⟨d, hd, Or.inr ⟨hr, Or.inr rfl⟩⟩
    | down n =>
        rw [plainPlace_snoc, Option.map_eq_some_iff] at hr
        obtain ⟨d, hd, hr⟩ := hr
        exact ⟨d, hd, Or.inl ⟨n, rfl, hr.symm⟩⟩

/-- The children of a directory move one after the other, and then it goes. -/
theorem merge_kept {p : Raw} (h : Kept base pkgs t fs₀ fs) (hp : plainWalk (linkIn t) [] p = some r)
    {fns : List Str} {fs₁ : Fs Str C}
    (hmove : ∀ fs fs' fn, Kept base pkgs t fs₀ fs → submove depth [.down fn] (destdir base sp ++ p)
      (destdir base parent ++ p) fs = .ok fs' → Kept base pkgs t fs₀ fs')
    (hloop : fns.foldlM (fun fs fn => submove depth [.down fn] (destdir base sp ++ p)
      (destdir base parent ++ p) fs) fs = .ok fs₁)
    (hrm : fs₁.rmdir (destdir base parent ++ p) = .ok fs') : Kept base pkgs t fs₀ fs' := by
  have h₁ : Kept base pkgs t fs₀ fs₁ := foldlM_invariant (fun fs fs' fn _ => hmove fs fs' fn) h hloop
  exact h₁.rmdir hp hrm

/-- A relocation along a path without links keeps what is to be kept, and has not met anything
at its destination but a directory. -/
theorem submove_kept (hpkg : sp ∈ pkgs) (hne : sp ≠ parent) (h : Kept base pkgs t fs₀ fs)
    (ha : plainWalk (linkIn t) [] rel = some a) (hr : plainPlace (linkIn t) (rel ++ src) = some r)
    (hok : submove depth src (destdir base sp ++ rel) (destdir base parent ++ rel) fs = .ok fs') :
    Kept base pkgs t fs₀ fs' ∧ ∀ v, fs.node (base ++ sp :: r) = some v → v = .dir := by
  induction depth generalizing fs fs' rel src a r with
  | zero => cases hok
  | succ depth ih =>
      rw [submove] at hok
      obtain ⟨fs₁, hmk, hok⟩ := except_bind_eq_ok.mp hok
      rw [mapError_eq_ok, List.append_assoc] at hmk
      simp only [List.append_assoc] at hok
      obtain ⟨d, hd, hcase⟩ := plain_cases ha hr
      obtain ⟨h₁, hmono, hframe, hstat, hdir⟩ := h.mkdirs hpkg hd hmk
      split at hok
      · -- nothing at the destination, so the path ends with a name
        rename_i hnone
        rw [Bool.not_eq_true'] at hnone
        rw [mapError_eq_ok] at hok
        obtain ⟨n, hsrc, rfl⟩ | ⟨-, rfl | hsrc⟩ := hcase
        · have hpath : rel ++ src = rel ++ src.dropLast ++ [.down n] := by
            rw [List.append_assoc, ← hsrc]
          rw [hpath] at hnone hok
          obtain ⟨hkept, hdst⟩ := h₁.move hpkg hne hd hstat hdir hnone hok
          refine ⟨hkept, fun v hv => ?_⟩
          rw [hmono _ _ hv] at hdst
          cases hdst
        · rw [List.dropLast_nil] at hstat
          rw [pathExists, hstat] at hnone
          cases hnone
        · rw [hsrc, ← List.append_assoc, ← List.append_assoc, pathExists,
            List.append_assoc (destdir base sp), stat_snoc_up hstat hdir] at hnone
          cases hnone
      · split at hok
        · rename_i hdirs
          rw [Bool.and_eq_true] at hdirs
          obtain ⟨fns, -, hok⟩ := except_bind_eq_ok.mp hok
          obtain ⟨fs₂, hloop, hok⟩ := except_bind_eq_ok.mp hok
          rw [mapError_eq_ok] at hok
          have hboth : plainWalk (linkIn t) [] (rel ++ src) = some r ∧
              fs₁.node (base ++ sp :: r) = some .dir := by
            obtain ⟨n, hsrc, rfl⟩ | ⟨hwalk, -⟩ := hcase
            · have hpath : rel ++ src = rel ++ src.dropLast ++ [.down n] := by
                rw [List.append_assoc, ← hsrc]
              rw [hpath] at hdirs
              obtain ⟨hsp, hparent⟩ := h₁.both_dirs hne hd hdirs.1 hdirs.2
              refine ⟨?_, hsp⟩
              rw [hpath, plainWalk_snoc, hd, Option.bind_some, h₁.dir_no_link hparent]
              rfl
            · obtain ⟨q, hq, hqdir⟩ := isDir_iff.mp hdirs.1
              rw [h₁.stat_plain_eq hwalk hq] at hqdir
              exact ⟨hwalk, hqdir⟩
          refine ⟨merge_kept h₁ hboth.1 ?_ hloop hok, ?_⟩
          · intro fs fs' fn hk hmv
            apply (ih hk hboth.1 (r := r ++ [fn]) ?_ hmv).1
            rw [plainPlace_snoc, hboth.1]
            rfl
          · intro v hv
            have := (hmono _ _ hv).symm.trans hboth.2
            exact Option.some.inj this
        · cases hok

/-! ## One call -/

variable {glob : Glob C}

theorem submove_relp (hpkg : sp ∈ pkgs) (hne : sp ≠ parent) (h : Kept base pkgs t fs₀ fs)
    (hr : plainPlace (linkIn t) src = some r)
    (hok : submove depth src (destdir base sp) (destdir base parent) fs = .ok fs') :
    Kept base pkgs t fs₀ fs' ∧ ∀ v, fs.node (base ++ sp :: r) = some v → v = .dir :=
  submove_kept hpkg hne h (plainWalk_nil _ _) hr (by simpa only [List.append_nil] using hok)

theorem takeImpl_kept {p : Str} {missingOk : Bool} (hpkg : sp ∈ pkgs) (hne : sp ≠ parent)
    (h : Kept base pkgs t fs₀ fs)
    (hplain : ∀ relp ∈ glob fs (destdir base parent) p, (plainPlace (linkIn t) relp).isSome = true)
    (hok : takeImpl glob depth (destdir base sp) (destdir base parent) p missingOk fs = .ok fs') :
    Kept base pkgs t fs₀ fs' := by
  unfold takeImpl at hok
  split at hok
  · cases hok
  · split at hok
    · cases hok
    · refine foldlM_invariant (I := Kept base pkgs t fs₀) ?_ h hok
      intro fs₁ fs₂ relp hrelp h₁ hmv
      obtain ⟨r, hr⟩ := Option.isSome_iff_exists.mp (hplain relp hrelp)
      exact (submove_relp hpkg hne h₁ hr hmv).1

/-- Only an entry that is a directory, and not a link to one, is gone into. -/
theorem Kept.subdir (h : Kept base pkgs t fs₀ fs) (ha : plainWalk (linkIn t) [] rel = some a)
    {f : Str} (hdir : fs.isDir (destdir base pkg ++ (rel ++ [.down f])) = true)
    (hlink : fs.isLink (destdir base pkg ++ (rel ++ [.down f])) = false) :
    plainWalk (linkIn t) [] (rel ++ [.down f]) = some (a ++ [f]) := by
  obtain ⟨q, hq, hqdir⟩ := isDir_iff.mp hdir
  obtain ⟨hstat, hwalk⟩ := h.stat_plain ha hq
  rw [walk_down, List.append_assoc, List.cons_append] at hwalk
  cases hv : fs.node (base ++ pkg :: (a ++ [f])) with
  | none =>
      rw [hv] at hwalk
      cases hwalk
  | some v =>
      have hplace := place_snoc hstat (h.closed pkg a f v hv) f
      rw [List.append_assoc, List.append_assoc, List.cons_append] at hplace
      rw [isLink_of_place hplace hv] at hlink
      cases v with
      | dir =>
          rw [plainWalk_snoc, ha, Option.bind_some, h.dir_no_link hv]
          rfl
      | link absolute target => cases hlink
      | file content =>
          rw [hv] at hwalk
          cases hwalk
          rw [hv] at hqdir
          cases hqdir

theorem cleanEmpty_kept {dest : Raw} {auto : Bool} {res : Bool × Fs Str C}
    (h : Kept base pkgs t fs₀ fs) (ha : plainWalk (linkIn t) [] rel = some a)
    (hok : cleanEmpty dest auto depth (destdir base pkg ++ rel) fs = .ok res) :
    Kept base pkgs t fs₀ res.2 := by
  induction depth generalizing fs rel a res with
  | zero => cases hok
  | succ depth ih =>
      rw [cleanEmpty] at hok
      obtain ⟨fns, -, hok⟩ := except_bind_eq_ok.mp hok
      obtain ⟨⟨empty, fs₁⟩, hloop, hok⟩ := except_bind_eq_ok.mp hok
      have h₁ : Kept base pkgs t fs₀ fs₁ := by
        refine foldlM_invariant (I := fun b : Bool × Fs Str C => Kept base pkgs t fs₀ b.2) ?_ h hloop
        intro b b' f _ hb hpass
        simp only at hpass
        split at hpass
        · rename_i hsub
          rw [Bool.and_eq_true, Bool.not_eq_true', List.append_assoc] at hsub
          obtain ⟨res', hres', hpass⟩ := except_bind_eq_ok.mp hpass
          cases hpass
          rw [List.append_assoc] at hres'
          show Kept base pkgs t fs₀ res'.2
          exact ih hb (hb.subdir ha hsub.1 hsub.2) hres'
        · cases hpass
          exact hb
      simp only at hok
      split at hok
      · obtain ⟨fs₂, hrm, hok⟩ := except_bind_eq_ok.mp hok
        cases hok
        exact h₁.rmdir ha (mapError_eq_ok.mp hrm)
      · cases hok
        exact h₁

/-- Taking a command is a run of single steps. -/
theorem takeCmd_run {p : Str} {missingOk : Bool} (hpkg : sp ∈ pkgs) (hne : sp ≠ parent)
    (hok : takeCmd glob depth (destdir base sp) (destdir base parent) p missingOk fs = .ok fs') :
    ((glob fs (destdir base parent) p).flatMap (cmdActions sp parent)).foldlM
      (step glob depth base) ⟨fs, pkgs⟩ = some ⟨fs', pkgs⟩ := by
  have hguard : (decide (sp = parent) || !pkgs.contains sp) = false := by
    rw [List.contains_iff_mem.mpr hpkg, decide_eq_false hne]
    rfl
  have hman : ∀ (ps : List Str) fs fs', ps.foldlM (fun fs p =>
      takeImpl glob depth (destdir base sp) (destdir base parent) p true fs) fs = .ok fs' →
      (ps.map (Action.take sp parent · true)).foldlM (step glob depth base) ⟨fs, pkgs⟩ =
        some ⟨fs', pkgs⟩ := by
    intro ps
    induction ps with
    | nil =>
        intro fs fs' h
        cases h
        rfl
    | cons p ps ih =>
        intro fs fs' h
        rw [List.foldlM_cons] at h
        obtain ⟨fs₁, hp, h⟩ := except_bind_eq_ok.mp h
        rw [List.map_cons, List.foldlM_cons]
        simp only [step, hguard, hp, Except.toOption, Option.map_some]
        exact ih fs₁ fs' h
  unfold takeCmd at hok
  split at hok
  · cases hok
  · split at hok
    · cases hok
    · generalize glob fs (destdir base parent) p = got at hok ⊢
      clear * - hok hman hguard
      induction got generalizing fs with
      | nil =>
          cases hok
          rfl
      | cons relp got ih =>
          rw [List.foldlM_cons] at hok
          obtain ⟨fs₁, hrelp, hok⟩ := except_bind_eq_ok.mp hok
          obtain ⟨fs₂, hman', hmv⟩ := except_bind_eq_ok.mp hrelp
          rw [List.flatMap_cons, List.foldlM_append, cmdActions, List.foldlM_append, hman _ _ _ hman']
          have hmove : step glob depth base ⟨fs₂, pkgs⟩ (.move sp parent relp) =
              some ⟨fs₁, pkgs⟩ := by
            simp only [step, hguard, hmv]
            rfl
          show (([Action.move sp parent relp].foldlM (step glob depth base) ⟨fs₂, pkgs⟩).bind _) = _
          rw [List.foldlM_cons, hmove]
          exact ih hok

/-! ## Runs -/

/-- The tree as it is installed, in the directory of the package. -/
def original (base : List Str) (pkgname : Str) (fs₀ : Fs Str C) (r : List Str) :
    Option (Node Str C) :=
  fs₀.node (base ++ pkgname :: r)

/-- A tree below the directory of the package, and no other package yet. -/
structure Fresh (base : List Str) (pkgname : Str) (fs₀ : Fs Str C) : Prop where
  base_dir : ∀ q, q <+: base → fs₀.node q = some .dir
  top : fs₀.node (base ++ [pkgname]) = some .dir
  closed : ∀ r x v, fs₀.node (base ++ pkgname :: (r ++ [x])) = some v →
    fs₀.node (base ++ pkgname :: r) = some .dir
  alone : ∀ pkg r, pkg ≠ pkgname → fs₀.node (base ++ pkg :: r) = none

/-- No match goes through a link of the tree, nor above the tree. -/
def Plain (glob : Glob C) (base : List Str) (t : List Str → Option (Node Str C))
    (s : Installed C) : Action → Prop
  | .take _ parent p _ =>
      ∀ relp ∈ glob s.fs (destdir base parent) p, (plainPlace (linkIn t) relp).isSome = true
  | .move _ _ relp => (plainPlace (linkIn t) relp).isSome = true
  | _ => True

/-- Each file and link of the tree is in one package, at its path; there are no others, and
nothing outside the packages' directories has changed. -/
structure Conserved (base : List Str) (t : List Str → Option (Node Str C)) (fs₀ fs : Fs Str C) :
    Prop where
  one : ∀ r v, t r = some v → v ≠ .dir → ∃! pkg, fs.node (base ++ pkg :: r) = some v
  own : ∀ pkg r v, fs.node (base ++ pkg :: r) = some v → v ≠ .dir → t r = some v
  outside : ∀ q, (∀ pkg r, q ≠ base ++ pkg :: r) → fs.node q = fs₀.node q

theorem Kept.conserved (h : Kept base pkgs t fs₀ fs) : Conserved base t fs₀ fs := by
  refine ⟨?_, ?_, h.outside⟩
  · intro r v ht hv
    obtain ⟨pkg, hpkg, honly⟩ := h.once r v ht hv
    exact ⟨pkg, hpkg, honly⟩
  · intro pkg r v hv hnd
    obtain ht | ⟨hdir, -⟩ := h.agree pkg r v hv
    · exact ht
    · exact absurd hdir hnd

theorem Fresh.kept {pkgname : Str} (h : Fresh base pkgname fs₀) :
    Kept base [pkgname] (original base pkgname fs₀) fs₀ fs₀ := by
  have honly : ∀ pkg r v, fs₀.node (base ++ pkg :: r) = some v → pkg = pkgname := by
    intro pkg r v hv
    by_contra hne
    rw [h.alone pkg r hne] at hv
    cases hv
  refine ⟨h.base_dir, h.top, ?_, ?_, ?_, ?_, fun _ _ => rfl⟩
  · intro pkg r v hv
    cases honly pkg r v hv
    exact Or.inl hv
  · intro pkg r x v hv
    cases honly pkg _ v hv
    exact h.closed r x v hv
  · intro r v ht _
    exact ⟨pkgname, ht, fun pkg hpkg => honly pkg r v hpkg⟩
  · intro pkg r v hv
    exact List.mem_singleton.mpr (honly pkg r v hv)

theorem toOption_map_eq_some {ε α : Type} {x : Except ε α} {f : α → Installed C} {s : Installed C}
    (h : x.toOption.map f = some s) : ∃ a, x = .ok a ∧ f a = s := by
  cases x with
  | error e => cases h
  | ok a => exact ⟨a, rfl, Option.some.inj h⟩

theorem step_kept {s s' : Installed C} {a : Action} (h : Kept base s.pkgs t fs₀ s.fs)
    (hplain : Plain glob base t s a) (hs : step glob depth base s a = some s') :
    Kept base s'.pkgs t fs₀ s'.fs := by
  cases a with
  | subpkg sp =>
      rw [step] at hs
      split at hs
      · cases hs
      · rename_i hsp
        obtain ⟨fs', hok, rfl⟩ := toOption_map_eq_some hs
        -- a new subpackage has no directory that would be removed
        have hnone : s.fs.node (base ++ [sp]) = none := by
          cases hv : s.fs.node (base ++ [sp]) with
          | none => rfl
          | some v => exact absurd (h.known sp [] v hv) (by simpa using hsp)
        have hno : s.fs.isDir (destdir base sp) = false := by
          have hstat := h.walk_pkg sp []
          rw [hnone, List.append_nil] at hstat
          rw [isDir, hstat]
          rfl
        simp only [invokeSubpkg, hno, Bool.false_eq_true, if_false, pure_bind] at hok
        exact (h.declare.mkdirs List.mem_cons_self (plainWalk_nil _ _)
          (by rw [List.append_nil]; exact mapError_eq_ok.mp hok)).1
  | auto sp =>
      rw [step] at hs
      split at hs
      · cases hs
      · obtain ⟨fs', hok, rfl⟩ := toOption_map_eq_some hs
        exact (h.declare.mkdirs List.mem_cons_self (plainWalk_nil _ _)
          (by rwa [List.append_nil])).1
  | take sp parent p missingOk =>
      rw [step] at hs
      split at hs
      · cases hs
      · rename_i hguard
        obtain ⟨fs', hok, rfl⟩ := toOption_map_eq_some hs
        simp only [Bool.or_eq_true, decide_eq_true_eq, Bool.not_eq_true', not_or,
          Bool.not_eq_false] at hguard
        exact takeImpl_kept (by simpa using hguard.2) hguard.1 h hplain hok
  | move sp parent relp =>
      rw [step] at hs
      split at hs
      · cases hs
      · rename_i hguard
        obtain ⟨fs', hok, rfl⟩ := toOption_map_eq_some hs
        simp only [Bool.or_eq_true, decide_eq_true_eq, Bool.not_eq_true', not_or,
          Bool.not_eq_false] at hguard
        obtain ⟨r, hr⟩ := Option.isSome_iff_exists.mp hplain
        exact (submove_relp (by simpa using hguard.2) hguard.1 h hr hok).1
  | clean pkg auto =>
      obtain ⟨res, hok, rfl⟩ := toOption_map_eq_some hs
      exact cleanEmpty_kept h (plainWalk_nil _ _) (by rwa [List.append_nil])

/-- As long as no match goes through a link, every run conserves the files and links, and what
is in the way of a move makes it fail. -/
theorem conserved_of_plain (glob : Glob C) (depth : Nat) (base : List Str) (pkgname : Str)
    (fs₀ : Fs Str C) (hfresh : Fresh base pkgname fs₀) (s : Installed C)
    (h : Reaches (step glob depth base) (Plain glob base (original base pkgname fs₀))
      ⟨fs₀, [pkgname]⟩ s) :
    Conserved base (original base pkgname fs₀) fs₀ s.fs ∧
      ∀ sp ∈ s.pkgs, ∀ parent ≠ sp, ∀ relp r v,
        plainPlace (linkIn (original base pkgname fs₀)) relp = some r →
        s.fs.node (base ++ sp :: r) = some v → v ≠ .dir →
        ∃ e, submove depth relp (destdir base sp) (destdir base parent) s.fs = .error e := by
  have hkept : Kept base s.pkgs (original base pkgname fs₀) fs₀ s.fs :=
    Reaches.invariant (I := fun s => Kept base s.pkgs (original base pkgname fs₀) fs₀ s.fs)
      hfresh.kept (fun _ _ _ hI hC hs => step_kept hI hC hs) h
  refine ⟨hkept.conserved, ?_⟩
  intro sp hsp parent hne relp r v hr hv hnd
  cases hmv : submove depth relp (destdir base sp) (destdir base parent) s.fs with
  | error e => exact ⟨e, rfl⟩
  | ok fs' => exact absurd ((submove_relp hsp (Ne.symm hne) hkept hr hmv).2 v hv) hnd

/-! ## A link to a directory -/

def freshCheck (base : List Str) (pkgname : Str) (fs₀ : Fs Str C) : Bool :=
  base.inits.all fs₀.dirAt && fs₀.dirAt (base ++ [pkgname]) && fs₀.all fun e =>
    !decide (base <+: e.1) || decide (e.1 = base) || decide (e.1 = base ++ [pkgname]) ||
      decide (base ++ [pkgname] <+: e.1) && fs₀.dirAt e.1.dropLast

theorem Fresh.of_check {pkgname : Str} (h : freshCheck base pkgname fs₀ = true) :
    Fresh base pkgname fs₀ := by
  rw [freshCheck, Bool.and_eq_true, Bool.and_eq_true, List.all_eq_true, List.all_eq_true] at h
  obtain ⟨⟨hbase, htop⟩, hall⟩ := h
  have hentry : ∀ q v, q ≠ [] → fs₀.node q = some v → base <+: q → q ≠ base →
      q ≠ base ++ [pkgname] → base ++ [pkgname] <+: q ∧ fs₀.node q.dropLast = some .dir := by
    intro q v hne hv hpre hq hq'
    rw [node_of_ne_nil hne] at hv
    have hkey := Dict.get_isSome_iff.mp (by rw [hv]; rfl)
    obtain ⟨e, he, rfl⟩ := List.mem_map.mp hkey
    have := hall e he
    simp only [hpre, hq, hq', decide_true, decide_false, Bool.not_true, Bool.false_or,
      Bool.and_eq_true, decide_eq_true_eq, dirAt_iff] at this
    exact this
  refine ⟨fun q hq => dirAt_iff.mp (hbase q ((List.mem_inits q base).mpr hq)), dirAt_iff.mp htop, ?_, ?_⟩
  · intro r x v hv
    have := (hentry _ v (by simp) hv (List.prefix_append _ _) (by simp) (by simp)).2
    rw [← List.cons_append, ← List.append_assoc, List.dropLast_concat] at this
    exact this
  · intro pkg r hne
    cases hv : fs₀.node (base ++ pkg :: r) with
    | none => rfl
    | some v =>
        have := (hentry _ v (by simp) hv (List.prefix_append _ _) (by simp) (by
          intro heq
          exact hne (List.cons.inj (List.append_cancel_left heq)).1)).1
        rw [List.prefix_append_right_inj, List.cons_prefix_cons] at this
        exact absurd this.1.symm hne

/-- `glob` for a pattern without wildcards. -/
def literalGlob : Glob C := fun fs dir p =>
  let relp : Raw := (p.splitOn '/').map fun n => if n = ['.', '.'] then .up else .down n
  match fs.place (dir ++ relp) with
  | .ok q => if (fs.node q).isSome then [relp] else []
  | .error _ => []

def base0 : List Str := [['d']]
def foo : Str := ['f', 'o', 'o']
def libs : Str := ['l', 'i', 'b', 's']
def lib : Str := ['l', 'i', 'b']
def lib64 : Str := ['l', 'i', 'b', '6', '4']

/-- A library, and a link to the directory that it is in. -/
def linkedTree : Fs Str Nat :=
  [(base0, .dir), (base0 ++ [foo], .dir), (base0 ++ [foo, lib], .dir),
    (base0 ++ [foo, lib, ['x']], .file 1), (base0 ++ [foo, lib64], .link false [.down lib])]

theorem conserved_lib : ∃ s : Installed Nat, s.fs.node (base0 ++ [libs, lib, ['x']]) = some (.file 1) ∧
    Conserved base0 (original base0 foo linkedTree) linkedTree s.fs := by
  have hsub : Reaches (step literalGlob 4 base0)
      (Plain literalGlob base0 (original base0 foo linkedTree)) ⟨linkedTree, [foo]⟩
      ⟨linkedTree ++ [(base0 ++ [libs], .dir)], [libs, foo]⟩ :=
    .next (.subpkg libs) .start trivial rfl
  have hplain : ∀ relp ∈ literalGlob (linkedTree ++ [(base0 ++ [libs], .dir)]) (destdir base0 foo)
      (lib ++ ['/', 'x']),
      (plainPlace (linkIn (original base0 foo linkedTree)) relp).isSome = true := by
    decide
  have htake := Reaches.next (Action.take libs foo (lib ++ ['/', 'x']) false) hsub hplain rfl
  exact ⟨_, rfl, (conserved_of_plain literalGlob 4 base0 foo linkedTree
    (Fresh.of_check (by decide)) _ htake).1⟩

/-- The library that is taken through the link is moved to another path. -/
theorem linked_not_conserved : Fresh base0 foo linkedTree ∧
    ∃ s, [Action.subpkg libs, .take libs foo (lib64 ++ ['/', 'x']) false].foldlM
      (step literalGlob 4 base0) ⟨linkedTree, [foo]⟩ = some s ∧
    ¬ Conserved base0 (original base0 foo linkedTree) linkedTree s.fs := by
  refine ⟨Fresh.of_check (by decide), ⟨[(base0, .dir), (base0 ++ [foo], .dir),
    (base0 ++ [foo, lib], .dir), (base0 ++ [libs, lib64, ['x']], .file 1),
    (base0 ++ [foo, lib64], .link false [.down lib]), (base0 ++ [libs], .dir),
    (base0 ++ [libs, lib64], .dir)], [libs, foo]⟩, by rfl, ?_⟩
  intro h
  obtain ⟨pkg, hpkg, -⟩ := h.one [lib, ['x']] (.file 1) (by decide) (by simp)
  simp [node, Dict.get_cons, base0, lib, lib64] at hpkg

end Cbuild.Split
