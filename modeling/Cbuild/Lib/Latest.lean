import Cbuild.Lib.Dict

/-! # The greatest of each group in one pass

A loop over elements that keeps one for each key: an element that is greater
than the one kept takes its place, and whatever is not kept is passed over. Of
equal elements the first stays. Nothing is lost on the way, what is kept is
greatest, and the order of the elements matters between equal ones only.
-/

namespace Cbuild.Lib

namespace Dict

variable {K V : Type} [DecidableEq K] {d : Dict K V} {k : K} {v o : V}

theorem values_set_of_none (h : d.get k = none) : (d.set k v).values = d.values ++ [v] := by
  unfold set values
  rw [if_neg (get_eq_none_iff.mp h), List.map_append]
  rfl

theorem set_cons_of_ne {k' : K} {v' : V} (h : k' ≠ k) :
    set ((k', v') :: d) k v = (k', v') :: d.set k v := by
  unfold set keys
  by_cases hk : k ∈ d.map (·.1)
  · simp [hk, h]
  · simp [hk, Ne.symm h]

/-- The value that a key had gives way to the new one. -/
theorem values_set_of_some (hd : d.keys.Nodup) (h : d.get k = some o) :
    (o :: (d.set k v).values).Perm (v :: d.values) := by
  induction d with
  | nil => cases h
  | cons e d ih =>
      have hnodup := List.nodup_cons.mp hd
      rw [get_cons] at h
      by_cases he : e.1 = k
      · rw [if_pos he] at h
        cases h
        have hset : set (e :: d) k v = (k, v) :: d := by
          have hk : k ∉ keys d := by
            rw [← he]
            exact hnodup.1
          have hrest : d.map (fun x => if x.1 = k then (k, v) else x) = d := by
            conv_rhs => rw [← List.map_id d]
            apply List.map_congr_left
            intro x hx
            have hne : x.1 ≠ k := fun heq => hk (List.mem_map.mpr ⟨x, hx, heq⟩)
            rw [if_neg hne]
            rfl
          have hmem : k ∈ keys (e :: d) := List.mem_map.mpr ⟨e, List.mem_cons_self, he⟩
          unfold set
          rw [if_pos hmem, List.map_cons, if_pos he, hrest]
        rw [hset]
        exact List.Perm.swap v e.2 (values d)
      · rw [if_neg he] at h
        have hset : set (e :: d) k v = e :: set d k v := set_cons_of_ne he
        rw [hset]
        calc o :: e.2 :: values (set d k v)
          _ |>.Perm (e.2 :: o :: values (set d k v)) := List.Perm.swap _ _ _
          _ |>.Perm (e.2 :: v :: values d) := (ih hnodup.2 h).cons e.2
          _ |>.Perm (v :: e.2 :: values d) := List.Perm.swap _ _ _

end Dict

/-- What a pass has kept and what it has passed over. -/
structure Picked (K E : Type) where
  kept : Dict K E
  passed : List E

namespace Picked

variable {K E : Type} [DecidableEq K]

def step (key : E → K) (cmp : E → E → Ordering) (s : Picked K E) (e : E) : Picked K E :=
  match s.kept.get (key e) with
  | none => { s with kept := s.kept.set (key e) e }
  | some o =>
      if cmp e o = .gt then ⟨s.kept.set (key e) e, s.passed ++ [o]⟩
      else { s with passed := s.passed ++ [e] }

def pick (key : E → K) (cmp : E → E → Ordering) (es : List E) : Picked K E :=
  es.foldl (step key cmp) ⟨[], []⟩

variable {key : E → K} {cmp : E → E → Ordering} {s : Picked K E} {es es' : List E} {e f g : E}

/-- What a pass over `es` comes to. -/
structure Picks (key : E → K) (cmp : E → E → Ordering) (es : List E) (s : Picked K E) : Prop where
  nodup : s.kept.keys.Nodup
  keyed : ∀ x ∈ s.kept, key x.2 = x.1
  perm : (s.kept.values ++ s.passed).Perm es
  greatest : ∀ e ∈ es, ∃ o, s.kept.get (key e) = some o ∧ cmp e o ≠ .gt

theorem Picks.key_of_get (h : Picks key cmp es s) {k : K} (hget : s.kept.get k = some e) :
    key e = k :=
  h.keyed (k, e) (Dict.mem_of_get hget)

theorem Picks.keyed_set (h : Picks key cmp es s) (e : E) :
    ∀ x ∈ s.kept.set (key e) e, key x.2 = x.1 := by
  have hnodup := Dict.nodup_set (k := key e) (v := e) h.nodup
  intro x hx
  have hget := Dict.get_of_mem hnodup hx
  rw [Dict.get_set] at hget
  split at hget
  next heq =>
    cases hget
    exact heq
  next => exact h.key_of_get hget

/-- One step keeps what the pass is about. -/
theorem Picks.step [Std.TransCmp cmp] (h : Picks key cmp es s) (e : E) :
    Picks key cmp (es ++ [e]) (s.step key cmp e) := by
  have hself : cmp e e ≠ .gt := by
    have heq : cmp e e = .eq := Std.ReflCmp.compare_self
    rw [heq]
    simp
  unfold Picked.step
  cases hget : s.kept.get (key e) with
  | none =>
      constructor
      · exact Dict.nodup_set h.nodup
      · exact h.keyed_set e
      · show ((s.kept.set (key e) e).values ++ s.passed).Perm (es ++ [e])
        rw [Dict.values_set_of_none hget, List.append_assoc]
        exact ((List.perm_append_comm.append_left s.kept.values).trans
          (by rw [← List.append_assoc])).trans (h.perm.append_right [e])
      · intro f hf
        show ∃ o, (s.kept.set (key e) e).get (key f) = some o ∧ cmp f o ≠ .gt
        rw [Dict.get_set]
        rcases List.mem_append.mp hf with hf | hf
        · obtain ⟨o, ho, hle⟩ := h.greatest f hf
          have hne : key e ≠ key f := by
            intro heq
            rw [heq, ho] at hget
            cases hget
          exact ⟨o, by rw [if_neg hne, ho], hle⟩
        · rw [List.mem_singleton.mp hf, if_pos rfl]
          exact ⟨e, rfl, hself⟩
  | some o =>
      dsimp only
      split
      next hgt =>
        constructor
        · exact Dict.nodup_set h.nodup
        · exact h.keyed_set e
        · show ((s.kept.set (key e) e).values ++ (s.passed ++ [o])).Perm (es ++ [e])
          have hvalues := Dict.values_set_of_some (v := e) h.nodup hget
          calc (s.kept.set (key e) e).values ++ (s.passed ++ [o])
            _ |>.Perm (o :: (s.kept.set (key e) e).values ++ s.passed) := by
                rw [← List.append_assoc]
                exact List.perm_append_singleton _ _
            _ |>.Perm (e :: s.kept.values ++ s.passed) := hvalues.append_right s.passed
            _ |>.Perm (es ++ [e]) := (h.perm.cons e).trans (List.perm_append_singleton e es).symm
        · intro f hf
          show ∃ o, (s.kept.set (key e) e).get (key f) = some o ∧ cmp f o ≠ .gt
          rw [Dict.get_set]
          rcases List.mem_append.mp hf with hf | hf
          · obtain ⟨p, hp, hle⟩ := h.greatest f hf
            by_cases hkey : key e = key f
            · -- what was at most the old one is less than the new one
              rw [← hkey, hget] at hp
              cases hp
              rw [if_pos hkey]
              have hoe : cmp o e = .lt := Std.OrientedCmp.lt_of_gt hgt
              have hfo : (cmp f o).isLE := by
                cases hc : cmp f o with
                | gt => exact absurd hc hle
                | lt | eq => rfl
              refine ⟨e, rfl, ?_⟩
              rw [Std.TransCmp.lt_of_isLE_of_lt hfo hoe]
              simp
            · exact ⟨p, by rw [if_neg hkey, hp], hle⟩
          · rw [List.mem_singleton.mp hf, if_pos rfl]
            exact ⟨e, rfl, hself⟩
      next hgt =>
        constructor
        · exact h.nodup
        · exact h.keyed
        · show (s.kept.values ++ (s.passed ++ [e])).Perm (es ++ [e])
          rw [← List.append_assoc]
          exact h.perm.append_right [e]
        · intro f hf
          rcases List.mem_append.mp hf with hf | hf
          · exact h.greatest f hf
          · rw [List.mem_singleton.mp hf]
            exact ⟨o, hget, hgt⟩

theorem picks (key : E → K) (cmp : E → E → Ordering) [Std.TransCmp cmp] (es : List E) :
    Picks key cmp es (pick key cmp es) := by
  have hfold : ∀ (rest done : List E) (s : Picked K E), Picks key cmp done s →
      Picks key cmp (done ++ rest) (rest.foldl (step key cmp) s) := by
    intro rest
    induction rest with
    | nil =>
        intro done s h
        rw [List.append_nil]
        exact h
    | cons e rest ih =>
        intro done s h
        have hrest := ih (done ++ [e]) _ (h.step e)
        rw [List.append_assoc] at hrest
        exact hrest
  refine hfold es [] ⟨[], []⟩ ⟨List.nodup_nil, ?_, List.Perm.refl [], ?_⟩
  · intro x hx
    cases hx
  · intro e he
    cases he

theorem Picks.mem_kept_iff (h : Picks key cmp es s) :
    e ∈ s.kept.values ↔ s.kept.get (key e) = some e := by
  constructor
  · intro he
    obtain ⟨x, hx, rfl⟩ := List.mem_map.mp he
    have hget := Dict.get_of_mem h.nodup hx
    rw [h.keyed x hx]
    exact hget
  · intro hget
    exact List.mem_map.mpr ⟨(key e, e), Dict.mem_of_get hget, rfl⟩

/-- What is kept is at least every element of its key. -/
theorem Picks.le_of_mem (h : Picks key cmp es s) (hf : f ∈ s.kept.values) (he : e ∈ es)
    (hkey : key e = key f) : cmp e f ≠ .gt := by
  obtain ⟨o, ho, hle⟩ := h.greatest e he
  rw [hkey, h.mem_kept_iff.mp hf] at ho
  cases ho
  exact hle

theorem Picks.mem_of_kept (h : Picks key cmp es s) (hf : f ∈ s.kept.values) : f ∈ es :=
  h.perm.mem_iff.mp (List.mem_append_left _ hf)

/-- For another order of the elements, what is kept in its place is equal to it. -/
theorem Picks.tied [Std.TransCmp cmp] {s' : Picked K E} (h : Picks key cmp es s)
    (h' : Picks key cmp es' s') (hperm : es'.Perm es) (hf : f ∈ s.kept.values) :
    ∃ g ∈ s'.kept.values, key g = key f ∧ cmp f g = .eq := by
  have hfs := h.mem_of_kept hf
  obtain ⟨g, hg, hfg⟩ := h'.greatest f (hperm.mem_iff.mpr hfs)
  have hkey := h'.key_of_get hg
  have hg' : g ∈ s'.kept.values := by
    rw [h'.mem_kept_iff, hkey]
    exact hg
  have hgf := h.le_of_mem hf (hperm.mem_iff.mp (h'.mem_of_kept hg')) hkey
  refine ⟨g, hg', hkey, ?_⟩
  cases hc : cmp f g with
  | eq => rfl
  | gt => exact absurd hc hfg
  | lt => exact absurd (Std.OrientedCmp.gt_of_lt hc) hgf

end Picked

end Cbuild.Lib
