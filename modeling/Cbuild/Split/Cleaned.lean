import Cbuild.Lib.Trees
import Cbuild.Split.Take

/-! # Empty directories

What `_clean_empty` leaves of a directory: the files and links below it, and the directories that
have some below them.
-/

namespace Cbuild.Split

open Lib Lib.Fs

variable {C : Type}

/-- A place strictly below another. -/
def Below (q q' : List Str) : Prop := ∃ r, r ≠ [] ∧ q' = q ++ r

/-- Something that is no directory is below it. -/
def Filled (fs : Fs Str C) (q : List Str) : Prop :=
  ∃ r v, r ≠ [] ∧ fs.node (q ++ r) = some v ∧ v ≠ .dir

/-- A directory with nothing but directories below it. -/
def Hollow (fs : Fs Str C) (q : List Str) : Prop := fs.node q = some .dir ∧ ¬Filled fs q

/-- A path leads to a place, and goes through nothing that is below it. -/
def LeadsTo (fs : Fs Str C) (p : Raw) (q : List Str) : Prop :=
  ∀ fs' : Fs Str C, (∀ q', ¬Below q q' → fs'.node q' = fs.node q') → fs'.place p = .ok q

/-- What has been cleaned of the directory at `q`, which `gone` says is removed itself. -/
structure Cleaned (fs fs' : Fs Str C) (q : List Str) (removable gone : Bool) : Prop where
  dirs : ∀ q', Below q q' → fs'.node q' = some .dir → Filled fs' q'
  files : ∀ q' v, v ≠ .dir → (fs'.node q' = some v ↔ fs.node q' = some v)
  kept : ∀ q', Filled fs q' → fs'.node q' = fs.node q'
  outside : ∀ q', ¬q <+: q' → fs'.node q' = fs.node q'
  result : gone = true ↔ fs'.node q = none
  when : gone = true ↔ ¬Filled fs q ∧ removable = true

/-- The hollow directories of a set are removed, and nothing else. -/
structure Cleared (fs fs' : Fs Str C) (S : List Str → Prop) : Prop where
  removed : ∀ q', S q' → Hollow fs q' → fs'.node q' = none
  rest : ∀ q', ¬(S q' ∧ Hollow fs q') → fs'.node q' = fs.node q'

variable {fs fs' fs₁ fs₂ : Fs Str C} {S T : List Str → Prop} {q q' : List Str} {f : Str}
  {p dpath dest : Raw} {auto : Bool} {depth : Nat}

theorem Filled.above (h : Filled fs (q ++ [f])) : Filled fs q := by
  obtain ⟨r, v, -, hv, hne⟩ := h
  exact ⟨f :: r, v, List.cons_ne_nil _ _, by simpa using hv, hne⟩

/-! ## What is cleared -/

theorem Cleared.refl (fs : Fs Str C) : Cleared fs fs fun _ => False :=
  ⟨fun _ h => h.elim, fun _ _ => rfl⟩

theorem Cleared.of_some {v : Node Str C} (h : Cleared fs fs₁ S) (hv : fs₁.node q' = some v) :
    fs.node q' = some v := by
  by_cases hS : S q' ∧ Hollow fs q'
  · rw [h.removed q' hS.1 hS.2] at hv
    cases hv
  · rw [← h.rest q' hS]
    exact hv

theorem Cleared.file {v : Node Str C} (h : Cleared fs fs₁ S) (hv : fs.node q' = some v)
    (hne : v ≠ .dir) : fs₁.node q' = some v := by
  rw [h.rest q', hv]
  intro hS
  have hdir := hS.2.1
  rw [hv, Option.some.injEq] at hdir
  exact hne hdir

theorem Cleared.filled_iff (h : Cleared fs fs₁ S) : Filled fs₁ q' ↔ Filled fs q' := by
  constructor
  · intro hfilled
    obtain ⟨r, v, hr, hv, hne⟩ := hfilled
    exact ⟨r, v, hr, h.of_some hv, hne⟩
  · intro hfilled
    obtain ⟨r, v, hr, hv, hne⟩ := hfilled
    exact ⟨r, v, hr, h.file hv hne, hne⟩

theorem Cleared.hollow_iff (h : Cleared fs fs₁ S) (hsame : fs₁.node q' = fs.node q') :
    Hollow fs₁ q' ↔ Hollow fs q' := by
  unfold Hollow
  rw [hsame, h.filled_iff]

theorem Cleared.trans (h : Cleared fs fs₁ S) (h' : Cleared fs₁ fs₂ T) :
    Cleared fs fs₂ fun q' => S q' ∨ T q' := by
  have hgone : ∀ q', fs₁.node q' = none → fs₂.node q' = none := by
    intro q' hnone
    rw [h'.rest q', hnone]
    intro hT
    have hdir := hT.2.1
    rw [hnone] at hdir
    cases hdir
  constructor
  · intro q' hST hhollow
    by_cases hS : S q' ∧ Hollow fs q'
    · exact hgone q' (h.removed q' hS.1 hS.2)
    · have hT : T q' := hST.resolve_left (fun hS' => hS ⟨hS', hhollow⟩)
      exact h'.removed q' hT ((h.hollow_iff (h.rest q' hS)).mpr hhollow)
  · intro q' hST
    have hsame := h.rest q' (fun hS => hST ⟨Or.inl hS.1, hS.2⟩)
    rw [h'.rest q', hsame]
    exact fun hT => hST ⟨Or.inr hT.1, (h.hollow_iff hsame).mp hT.2⟩

/-- Sets that have the same hollow directories. -/
theorem Cleared.congr (h : Cleared fs fs₁ S) (hST : ∀ q', Hollow fs q' → (S q' ↔ T q')) :
    Cleared fs fs₁ T :=
  ⟨fun q' hT hhollow => h.removed q' ((hST q' hhollow).mpr hT) hhollow,
    fun q' hT => h.rest q' (fun hS => hT ⟨(hST q' hS.2).mp hS.1, hS.2⟩)⟩

theorem Cleared.closed (h : Cleared fs fs₁ S) (hclosed : fs.Closed)
    (hdown : ∀ q' n, S q' → S (q' ++ [n])) : fs₁.Closed := by
  intro q' n hsome
  obtain ⟨v, hv⟩ := Option.isSome_iff_exists.mp hsome
  have hv' := h.of_some hv
  have hdir := hclosed q' n (by rw [hv']; rfl)
  rw [h.rest q', hdir]
  intro hS
  refine hS.2.2 ?_
  by_cases hvdir : v = .dir
  · -- it is still there, and so has something below it
    have hfilled : Filled fs (q' ++ [n]) := by
      by_contra hno
      rw [h.removed _ (hdown q' n hS.1) ⟨by rw [hv', hvdir], hno⟩] at hv
      cases hv
    exact hfilled.above
  · exact ⟨[n], v, List.cons_ne_nil _ _, hv', hvdir⟩

/-! ## Paths -/

theorem LeadsTo.place (h : LeadsTo fs p q) : fs.place p = .ok q := h fs fun _ _ => rfl

theorem LeadsTo.stat (h : LeadsTo fs p q) (hdir : fs.node q = some .dir) : fs.stat p = .ok q :=
  stat_of_place h.place hdir rfl

theorem not_below_self (q : List Str) : ¬Below q q := by
  intro h
  obtain ⟨r, hr, heq⟩ := h
  exact hr (List.self_eq_append_right.mp heq)

theorem LeadsTo.child (h : LeadsTo fs p q) (hdir : fs.node q = some .dir)
    (hsame : ∀ q', ¬Below q q' → fs₁.node q' = fs.node q') (f : Str) :
    LeadsTo fs₁ (p ++ [.down f]) (q ++ [f]) := by
  intro fs' hfs'
  have hagree : ∀ q', ¬Below q q' → fs'.node q' = fs.node q' := by
    intro q' hq'
    rw [hfs' q', hsame q' hq']
    intro hbelow
    obtain ⟨r, -, rfl⟩ := hbelow
    exact hq' ⟨f :: r, List.cons_ne_nil _ _, by simp⟩
  have hdir' : fs'.node q = some .dir := by rw [hagree q (not_below_self q), hdir]
  exact place_snoc (stat_of_place (h fs' hagree) hdir' rfl) hdir' f

/-- A directory, and no link to one. -/
theorem subdir_iff (hstat : fs.stat p = .ok q) (hdir : fs.node q = some .dir) (f : Str) :
    (fs.isDir (p ++ [.down f]) && !fs.isLink (p ++ [.down f])) = true ↔
      fs.node (q ++ [f]) = some .dir := by
  have hplace := place_snoc hstat hdir f
  rw [Bool.and_eq_true, Bool.not_eq_true', isDir_iff]
  cases hv : fs.node (q ++ [f]) with
  | none =>
      have hnone := stat_snoc hstat hdir f (by rw [hv]; nofun)
      simp [hnone, hv]
  | some v =>
      rw [isLink_of_place hplace hv]
      cases v with
      | dir => simp [stat_of_place hplace hv rfl, hv, Node.isLink]
      | file content => simp [stat_of_place hplace hv rfl, hv]
      | link absolute target => simp [Node.isLink]

/-! ## The removal -/

/-- One name in the loop of `cleanEmpty`. -/
def visit (dest : Raw) (auto : Bool) (depth : Nat) (dpath : Raw) (s : Bool × Fs Str C)
    (f : Str) : Except Exc (Bool × Fs Str C) :=
  if s.2.isDir (dpath ++ [.down f]) && !s.2.isLink (dpath ++ [.down f]) then do
    let (gone, fs) ← cleanEmpty dest auto depth (dpath ++ [.down f]) s.2
    pure (s.1 && gone, fs)
  else pure (false, s.2)

/-- What it does after the loop. -/
def finish (dest : Raw) (auto : Bool) (dpath : Raw) (s : Bool × Fs Str C) :
    Except Exc (Bool × Fs Str C) :=
  if s.1 && (auto || dpath ≠ dest) then do
    let fs ← (s.2.rmdir dpath).mapError .os
    pure (true, fs)
  else pure (false, s.2)

theorem cleanEmpty_succ (dest : Raw) (auto : Bool) (depth : Nat) (dpath : Raw) (fs : Fs Str C) :
    cleanEmpty dest auto (depth + 1) dpath fs = (do
      let fns ← (fs.iterdir dpath).mapError .os
      let s ← fns.foldlM (visit dest auto depth dpath) (true, fs)
      finish dest auto dpath s) := rfl

/-- The recursion limit is hit, in a tree that is as deep, or the hollow directories are gone. -/
def Outcome (dest : Raw) (auto : Bool) (depth : Nat) (dpath : Raw) (fs : Fs Str C)
    (q : List Str) : Prop :=
  (cleanEmpty dest auto depth dpath fs = .error .recursion ∧
      ∃ r, (fs.node (q ++ r)).isSome = true ∧ depth ≤ r.length) ∨
    ∃ gone fs', cleanEmpty dest auto depth dpath fs = .ok (gone, fs') ∧
      (gone = true ↔ Hollow fs q ∧ (auto || dpath ≠ dest) = true) ∧
      Cleared fs fs' fun q' => q <+: q' ∧ (q' = q → gone = true)

/-- What has been visited. -/
def Under (q l q' : List Str) : Prop := ∃ f ∈ l, q ++ [f] <+: q'

theorem Under.below {l : List Str} (h : Under q l q') : Below q q' := by
  obtain ⟨f, -, r, rfl⟩ := h
  exact ⟨f :: r, List.cons_ne_nil _ _, by simp⟩

theorem under_append_singleton {l : List Str} :
    Under q (l ++ [f]) q' ↔ Under q l q' ∨ q ++ [f] <+: q' := by
  simp [Under, or_and_right, exists_or]

/-- Where the loop is: the names visited, and what has become of the tree. -/
structure Visited (fs : Fs Str C) (q done : List Str) (s : Bool × Fs Str C) : Prop where
  empty : s.1 = true ↔ ∀ f ∈ done, Hollow fs (q ++ [f])
  cleared : Cleared fs s.2 (Under q done)

/-- The limit is hit below the place, or the loop goes on. -/
def Goes (fs : Fs Str C) (q done : List Str) (depth : Nat) (r : Except Exc (Bool × Fs Str C)) : Prop :=
  (r = .error .recursion ∧ ∃ r', (fs.node (q ++ r')).isSome = true ∧ depth + 1 ≤ r'.length) ∨
    ∃ s, r = .ok s ∧ Visited fs q done s

section

variable {done l : List Str} {s : Bool × Fs Str C}

theorem Visited.same (h : Visited fs q done s) (hq' : ¬Below q q') : s.2.node q' = fs.node q' :=
  h.cleared.rest q' fun hS => hq' hS.1.below

theorem Visited.closed (h : Visited fs q done s) (hclosed : fs.Closed) : s.2.Closed :=
  h.cleared.closed hclosed fun q' n hq' => by
    obtain ⟨f, hf, hpre⟩ := hq'
    exact ⟨f, hf, hpre.trans (List.prefix_append _ _)⟩

/-- A name that has not been visited is as it was. -/
theorem Visited.new (h : Visited fs q done s) (hf : f ∉ done) :
    s.2.node (q ++ [f]) = fs.node (q ++ [f]) := by
  refine h.cleared.rest _ (fun hS => ?_)
  obtain ⟨f', hf', hpre⟩ := hS.1
  rw [List.prefix_append_right_inj] at hpre
  have heq : f' = f := by simpa using hpre.eq_of_length rfl
  exact hf (heq ▸ hf')

theorem visit_goes (hdir : fs.node q = some .dir) (hlead : LeadsTo fs dpath q)
    (hclosed : fs.Closed)
    (ih : ∀ {fs₁ : Fs Str C} {f : Str}, fs₁.Closed → LeadsTo fs₁ (dpath ++ [.down f]) (q ++ [f]) →
      fs₁.node (q ++ [f]) = some .dir →
        Outcome dest auto depth (dpath ++ [.down f]) fs₁ (q ++ [f]))
    (hroot : ∀ f, (auto || dpath ++ [.down f] ≠ dest) = true) (h : Visited fs q done s)
    (hf : f ∉ done) :
    Goes fs q (done ++ [f]) depth (visit dest auto depth dpath s f) := by
  have hdir' : s.2.node q = some .dir := by rw [h.same (not_below_self q), hdir]
  have hstat := stat_of_place (hlead s.2 fun q' hq' => h.same hq') hdir' rfl
  have hsub := subdir_iff hstat hdir' f
  rw [visit]
  by_cases hnode : s.2.node (q ++ [f]) = some .dir
  · rw [if_pos (hsub.mpr hnode)]
    rcases ih (h.closed hclosed) (hlead.child hdir (fun q' hq' => h.same hq') f) hnode with
      ⟨herr, r, hr, hlen⟩ | ⟨gone, fs₂, hok, hgone, hclear⟩
    · refine Or.inl ⟨by rw [herr]; rfl, f :: r, ?_, by simpa using hlen⟩
      obtain ⟨v, hv⟩ := Option.isSome_iff_exists.mp hr
      have hv' := h.cleared.of_some hv
      rw [List.append_assoc, List.singleton_append] at hv'
      rw [hv']
      rfl
    · rw [hroot f, and_iff_left rfl, h.cleared.hollow_iff (h.new hf)] at hgone
      refine Or.inr ⟨(s.1 && gone, fs₂), by rw [hok]; rfl, ?_, ?_⟩
      · rw [Bool.and_eq_true, h.empty, hgone]
        simp [or_imp, forall_and]
      · refine (h.cleared.trans hclear).congr (fun q' hhollow => ?_)
        rw [under_append_singleton, and_iff_left_of_imp]
        intro hpre heq
        rw [hgone, ← heq]
        exact hhollow
  · rw [if_neg (fun hcond => hnode (hsub.mp hcond))]
    rw [h.new hf] at hnode
    refine Or.inr ⟨(false, s.2), rfl, ?_, ?_⟩
    · refine iff_of_false Bool.false_ne_true (fun hall => hnode ?_)
      exact (hall f (by simp)).1
    · refine h.cleared.congr (fun q' hhollow => ?_)
      rw [under_append_singleton, or_iff_left]
      -- nothing is below what is no directory
      intro hpre
      obtain ⟨r, rfl⟩ := hpre
      by_cases hr : r = []
      · rw [hr, List.append_nil] at hhollow
        exact hnode hhollow.1
      · exact hnode (hclosed.dir_above hr hhollow.1)

/-- The loop, from where some names have been visited. -/
theorem foldlM_goes (hdir : fs.node q = some .dir) (hlead : LeadsTo fs dpath q)
    (hclosed : fs.Closed)
    (ih : ∀ {fs₁ : Fs Str C} {f : Str}, fs₁.Closed → LeadsTo fs₁ (dpath ++ [.down f]) (q ++ [f]) →
      fs₁.node (q ++ [f]) = some .dir →
        Outcome dest auto depth (dpath ++ [.down f]) fs₁ (q ++ [f]))
    (hroot : ∀ f, (auto || dpath ++ [.down f] ≠ dest) = true) (h : Visited fs q done s)
    (hnodup : (done ++ l).Nodup) :
    Goes fs q (done ++ l) depth (l.foldlM (visit dest auto depth dpath) s) := by
  induction l generalizing done s with
  | nil => exact Or.inr ⟨s, rfl, by rwa [List.append_nil]⟩
  | cons f l ihl =>
      have hf : f ∉ done := fun hmem =>
        (List.nodup_append.mp hnodup).2.2 f hmem f (List.mem_cons_self ..) rfl
      rw [List.foldlM_cons]
      rcases visit_goes hdir hlead hclosed ih hroot h hf with
        ⟨herr, hdeep⟩ | ⟨s', hok, hvisited⟩
      · exact Or.inl ⟨by rw [herr]; rfl, hdeep⟩
      · have hgoes := ihl hvisited (by simpa using hnodup)
        rw [List.append_assoc, List.singleton_append] at hgoes
        rw [hok]
        exact hgoes

end

/-- All names of a directory are hollow exactly when it is. -/
theorem hollow_iff_names (hclosed : fs.Closed) (hdir : fs.node q = some .dir) :
    (∀ f ∈ fs.names q, Hollow fs (q ++ [f])) ↔ Hollow fs q := by
  constructor
  · intro h
    refine ⟨hdir, fun hfilled => ?_⟩
    obtain ⟨r, v, hr, hv, hne⟩ := hfilled
    cases r with
    | nil => exact hr rfl
    | cons f r =>
        rw [← List.singleton_append, ← List.append_assoc] at hv
        have hthere : (fs.node (q ++ [f])).isSome = true := by
          by_cases hr : r = []
          · rw [hr, List.append_nil] at hv
            rw [hv]
            rfl
          · rw [hclosed.dir_above hr hv]
            rfl
        have hhollow := h f (mem_names.mpr hthere)
        by_cases hr : r = []
        · rw [hr, List.append_nil, hhollow.1, Option.some.injEq] at hv
          exact hne hv.symm
        · exact hhollow.2 ⟨r, v, hr, hv, hne⟩
  · intro h f hf
    obtain ⟨v, hv⟩ := Option.isSome_iff_exists.mp (mem_names.mp hf)
    have hvdir : v = .dir := by
      by_contra hne
      exact h.2 ⟨[f], v, List.cons_ne_nil _ _, hv, hne⟩
    exact ⟨by rw [hv, hvdir], fun hfilled => h.2 hfilled.above⟩

theorem names_under (hclosed : fs.Closed) (hsome : (fs.node q').isSome = true) (hbelow : Below q q') :
    Under q (fs.names q) q' := by
  obtain ⟨r, hr, rfl⟩ := hbelow
  cases r with
  | nil => exact absurd rfl hr
  | cons f r =>
      refine ⟨f, mem_names.mpr ?_, ⟨r, by simp⟩⟩
      obtain ⟨v, hv⟩ := Option.isSome_iff_exists.mp hsome
      rw [← List.singleton_append, ← List.append_assoc] at hv
      by_cases hr : r = []
      · rw [hr, List.append_nil] at hv
        rw [hv]
        rfl
      · rw [hclosed.dir_above hr hv]
        rfl

/-- A hollow directory is empty when what is below it has been cleared. -/
theorem Cleared.emptied (h : Cleared fs fs₁ (Below q)) (hclosed : fs.Closed)
    (hhollow : Hollow fs q) (n : Str) : fs₁.node (q ++ [n]) = none := by
  cases hv : fs₁.node (q ++ [n]) with
  | none => rfl
  | some v =>
      have hn := (hollow_iff_names hclosed hhollow.1).mpr hhollow n
        (mem_names.mpr (by rw [h.of_some hv]; rfl))
      rw [h.removed _ ⟨[n], List.cons_ne_nil _ _, rfl⟩ hn] at hv
      cases hv

/-- It is removed itself. -/
theorem Cleared.erase (h : Cleared fs fs₁ (Below q)) (hne : q ≠ []) (hhollow : Hollow fs q) :
    Cleared fs (Dict.erase fs₁ q) fun q' => q <+: q' ∧ (q' = q → true = true) := by
  constructor
  · intro q' hS hq'
    rw [node_erase hne]
    split
    · rfl
    · rename_i hneq
      refine h.removed q' ?_ hq'
      obtain ⟨r, rfl⟩ := hS.1
      exact ⟨r, by rintro rfl; simp at hneq, rfl⟩
  · intro q' hS
    have hneq : q ≠ q' := by
      rintro rfl
      exact hS ⟨⟨List.prefix_refl _, fun _ => rfl⟩, hhollow⟩
    rw [node_erase hne, if_neg hneq]
    refine h.rest q' (fun hS' => hS ⟨⟨?_, fun _ => rfl⟩, hS'.2⟩)
    obtain ⟨r, -, rfl⟩ := hS'.1
    exact List.prefix_append _ _

/-- It stays, with what is below it cleared. -/
theorem Cleared.stays (h : Cleared fs fs₁ (Below q)) :
    Cleared fs fs₁ fun q' => q <+: q' ∧ (q' = q → false = true) := by
  refine h.congr (fun q' _ => ⟨fun hbelow => ?_, fun hS => ?_⟩)
  · refine ⟨?_, fun heq => absurd (heq ▸ hbelow) (not_below_self _)⟩
    obtain ⟨r, -, rfl⟩ := hbelow
    exact List.prefix_append _ _
  · obtain ⟨⟨r, rfl⟩, hself⟩ := hS
    refine ⟨r, ?_, rfl⟩
    rintro rfl
    exact Bool.false_ne_true (hself (List.append_nil _))

theorem finish_visited {s : Bool × Fs Str C} (h : Visited fs q (fs.names q) s)
    (hclosed : fs.Closed) (hlead : LeadsTo fs dpath q) (hdir : fs.node q = some .dir)
    (hne : q ≠ []) : ∃ gone fs', finish dest auto dpath s = .ok (gone, fs') ∧
      (gone = true ↔ Hollow fs q ∧ (auto || dpath ≠ dest) = true) ∧
      Cleared fs fs' fun q' => q <+: q' ∧ (q' = q → gone = true) := by
  have hempty : s.1 = true ↔ Hollow fs q := by
    rw [h.empty, hollow_iff_names hclosed hdir]
  have hcleared : Cleared fs s.2 (Below q) :=
    h.cleared.congr fun q' hhollow => ⟨Under.below, names_under hclosed (by rw [hhollow.1]; rfl)⟩
  by_cases hgo : (s.1 && (auto || dpath ≠ dest)) = true
  · have hgo' := (Bool.and_eq_true _ _).mp hgo
    have hhollow := hempty.mp hgo'.1
    have hdir₁ : s.2.node q = some .dir := by
      rw [h.same (not_below_self q), hdir]
    have hrm := rmdir_of_empty (hlead s.2 fun q' hq' => h.same hq') hdir₁
      (hcleared.emptied hclosed hhollow)
    refine ⟨true, Dict.erase s.2 q, ?_, iff_of_true rfl ⟨hhollow, hgo'.2⟩,
      hcleared.erase hne hhollow⟩
    rw [finish, if_pos hgo, hrm]
    rfl
  · refine ⟨false, s.2, ?_, iff_of_false Bool.false_ne_true (fun h => hgo ?_), hcleared.stays⟩
    · rw [finish, if_neg hgo]
      rfl
    · rw [Bool.and_eq_true]
      exact ⟨hempty.mpr h.1, h.2⟩

theorem outcome (depth : Nat) (hclosed : fs.Closed) (hlead : LeadsTo fs dpath q) (hdir : fs.node q = some .dir)
    (hne : q ≠ []) (hroot : auto = true ∨ dest <+: dpath) :
    Outcome dest auto depth dpath fs q := by
  induction depth generalizing fs dpath q with
  | zero => exact Or.inl ⟨rfl, [], by rw [List.append_nil, hdir]; rfl, Nat.le_refl 0⟩
  | succ depth ih =>
      have hiter : fs.iterdir dpath = .ok (fs.names q) := by
        rw [iterdir, hlead.stat hdir]
        simp [dirAt_iff.mpr hdir]
      have hroot' : ∀ f, (auto || dpath ++ [.down f] ≠ dest) = true := by
        intro f
        rcases hroot with hauto | hpre
        · rw [hauto, Bool.true_or]
        · rw [Bool.or_eq_true, decide_eq_true_eq]
          refine Or.inr (fun heq => ?_)
          have hlen := hpre.length_le
          rw [← heq, List.length_append, List.length_singleton] at hlen
          omega
      have hvisited : Visited fs q [] (true, fs) :=
        ⟨iff_of_true rfl (List.forall_mem_nil _), (Cleared.refl fs).congr fun q' _ => by simp [Under]⟩
      have hgoes := foldlM_goes hdir hlead hclosed
        (fun hclosed' hlead' hdir' => ih hclosed' hlead' hdir' (by simp)
          (hroot.imp_right fun hpre => hpre.trans (List.prefix_append _ _)))
        hroot' hvisited (show ([] ++ fs.names q).Nodup from List.nodup_dedup _)
      rw [List.nil_append] at hgoes
      rw [Outcome, cleanEmpty_succ, hiter]
      show ((fs.names q).foldlM (visit dest auto depth dpath) (true, fs) >>= _) = _ ∧ _ ∨ ∃ gone fs',
        ((fs.names q).foldlM (visit dest auto depth dpath) (true, fs) >>= _) = _ ∧ _
      rcases hgoes with ⟨herr, hdeep⟩ | ⟨s, hok, hdone⟩
      · rw [herr]
        exact Or.inl ⟨rfl, hdeep⟩
      · rw [hok]
        exact Or.inr (finish_visited hdone hclosed hlead hdir hne)

theorem Cleared.cleaned {gone : Bool} (hdir : fs.node q = some .dir)
    (hgone : gone = true ↔ Hollow fs q ∧ (auto || dpath ≠ dest) = true)
    (h : Cleared fs fs' fun q' => q <+: q' ∧ (q' = q → gone = true)) :
    Cleaned fs fs' q (auto || dpath ≠ dest) gone where
  dirs := by
    intro q' hbelow hq'
    rw [h.filled_iff]
    by_contra hno
    have hpre : q <+: q' := by
      obtain ⟨r, -, rfl⟩ := hbelow
      exact List.prefix_append _ _
    rw [h.removed q' ⟨hpre, fun heq => absurd (heq ▸ hbelow) (not_below_self _)⟩
      ⟨h.of_some hq', hno⟩] at hq'
    cases hq'
  files := fun q' v hne => ⟨h.of_some, fun hv => h.file hv hne⟩
  kept := fun q' hfilled => h.rest q' (fun hS => hS.2.2 hfilled)
  outside := fun q' hout => h.rest q' (fun hS => hout hS.1.1)
  result := by
    constructor
    · intro hg
      exact h.removed q ⟨List.prefix_refl q, fun _ => hg⟩ (hgone.mp hg).1
    · intro hnone
      by_contra hg
      rw [h.rest q (fun hS => hg (hS.1.2 rfl)), hdir] at hnone
      cases hnone
  when := by
    rw [hgone, Hollow, hdir, and_iff_right rfl]

/-- A directory that can be reached is cleaned as it should be, and the recursion ends unless the
tree is deeper than the limit. -/
theorem cleanEmpty_cleaned (hclosed : fs.Closed) (hlead : LeadsTo fs dpath q)
    (hdir : fs.node q = some .dir) (hne : q ≠ []) (hroot : auto = true ∨ dest <+: dpath) :
    (∀ depth gone fs', cleanEmpty dest auto depth dpath fs = .ok (gone, fs') →
      Cleaned fs fs' q (auto || dpath ≠ dest) gone) ∧
    ∀ depth, (∀ r, (fs.node (q ++ r)).isSome = true → r.length < depth) →
      ∃ res, cleanEmpty dest auto depth dpath fs = .ok res := by
  constructor
  · intro depth gone fs' hok
    rcases outcome depth hclosed hlead hdir hne hroot with
      ⟨herr, -⟩ | ⟨gone', fs₂, hok', hgone, hclear⟩
    · rw [hok] at herr
      cases herr
    · rw [hok] at hok'
      cases hok'
      exact hclear.cleaned hdir hgone
  · intro depth hdepth
    rcases outcome depth hclosed hlead hdir hne hroot with
      ⟨-, r, hr, hle⟩ | ⟨gone', fs₂, hok', -⟩
    · exact absurd (hdepth r hr) (Nat.not_lt.mpr hle)
    · exact ⟨_, hok'⟩

/-- The plain path of a directory, without links on the way. -/
theorem leadsTo_of_dirsTo {n : Str} (h : fs.DirsTo q) : LeadsTo fs ((q ++ [n]).map .down) (q ++ [n]) := by
  intro fs' hsame
  have hdirs : fs'.DirsTo q := by
    intro q' hpre
    rw [hsame q', h q' hpre]
    intro hbelow
    obtain ⟨r, -, rfl⟩ := hbelow
    have hlen := hpre.length_le
    simp only [List.length_append, List.length_singleton] at hlen
    omega
  exact hdirs.place n

/-- An empty directory, and a link to it, in the directory of `foo`. -/
private def linkedEmpty : Fs Str Nat :=
  [([['d']], .dir), ([['d'], ['f']], .dir), ([['d'], ['f'], ['l']], .dir),
    ([['d'], ['f'], ['m']], .link false [.down ['l']])]

theorem linkedEmpty_cleaned : ∃ fs',
    cleanEmpty (destdir [['d']] ['f']) false 2 (destdir [['d']] ['f']) linkedEmpty =
      .ok (false, fs') ∧ Cleaned linkedEmpty fs' [['d'], ['f']] false false := by
  have hdirs : linkedEmpty.DirsTo [['d']] := by
    intro q' hpre
    rcases List.prefix_cons_iff.mp hpre with rfl | ⟨r, rfl, hr⟩
    · rfl
    · rw [List.prefix_nil.mp hr]
      rfl
  have hlead : LeadsTo linkedEmpty (destdir [['d']] ['f']) [['d'], ['f']] := leadsTo_of_dirsTo hdirs
  have hmain := (cleanEmpty_cleaned (closed_of_keys (by decide)) hlead (by rfl) (by decide)
    (Or.inr (List.prefix_refl (destdir [['d']] ['f'])) : false = true ∨ _)).1 2
  exact ⟨_, by rfl, hmain false _ (by rfl)⟩

end Cbuild.Split
