import Mathlib.Data.List.Nodup

/-! # Dictionaries in insertion order

The `dict` of Python as the list of its items: a key that is set again keeps its
place. What is looked up does not depend on the order.
-/

namespace Cbuild.Lib

abbrev Dict (K V : Type) : Type := List (K × V)

namespace Dict

variable {K V : Type} [DecidableEq K]

def get (d : Dict K V) (k : K) : Option V := (d.find? fun e => e.1 = k).map (·.2)

def keys (d : Dict K V) : List K := d.map (·.1)

def values (d : Dict K V) : List V := d.map (·.2)

/-- `d[k] = v`. -/
def set (d : Dict K V) (k : K) (v : V) : Dict K V :=
  if k ∈ d.keys then d.map fun e => if e.1 = k then (k, v) else e else d ++ [(k, v)]

/-- `del d[k]`. -/
def erase (d : Dict K V) (k : K) : Dict K V := d.filter fun e => e.1 ≠ k

variable {d : Dict K V} {k k' : K} {v : V}

@[simp] theorem get_nil : get ([] : Dict K V) k = none := rfl

theorem get_cons (e : K × V) : get (e :: d) k = if e.1 = k then some e.2 else d.get k := by
  unfold get
  rw [List.find?_cons]
  by_cases h : e.1 = k <;> simp [h]

theorem get_eq_none_iff : d.get k = none ↔ k ∉ d.keys := by
  induction d with
  | nil => simp [keys]
  | cons e d ih =>
      rw [get_cons]
      by_cases h : e.1 = k
      · simp [h, keys]
      · rw [if_neg h, ih]
        simp [keys, Ne.symm h]

theorem get_isSome_iff : (d.get k).isSome = true ↔ k ∈ d.keys := by
  rw [← not_iff_not, ← get_eq_none_iff]
  cases d.get k <;> simp

theorem get_append (d d' : Dict K V) : get (d ++ d') k = (d.get k).or (get d' k) := by
  induction d with
  | nil => simp
  | cons e d ih =>
      rw [List.cons_append, get_cons, get_cons, ih]
      split <;> rfl

theorem get_map_replace : get (d.map fun e => if e.1 = k then (k, v) else e) k' =
    if k = k' then (d.get k).map fun _ => v else d.get k' := by
  induction d with
  | nil => simp
  | cons e d ih =>
      rw [List.map_cons, get_cons, get_cons, get_cons, ih]
      by_cases he : e.1 = k
      · by_cases hk : k = k' <;> simp [he, hk]
      · by_cases hk : k = k'
        · subst hk
          simp [he]
        · simp [he, hk]

theorem get_set : (d.set k v).get k' = if k = k' then some v else d.get k' := by
  unfold set
  split
  · rename_i hk
    rw [get_map_replace]
    obtain ⟨w, hw⟩ := Option.isSome_iff_exists.mp (get_isSome_iff.mpr hk)
    rw [hw]
    rfl
  · rename_i hk
    rw [get_append, get_cons]
    by_cases hk' : k = k'
    · subst hk'
      rw [get_eq_none_iff.mpr hk]
      simp
    · simp [hk']

theorem get_erase : (d.erase k).get k' = if k = k' then none else d.get k' := by
  unfold erase
  induction d with
  | nil => simp
  | cons e d ih =>
      rw [List.filter_cons, get_cons]
      by_cases he : e.1 = k
      · simp only [he, ne_eq, not_true_eq_false, decide_false, Bool.false_eq_true, if_false, ih]
        split <;> rfl
      · simp only [ne_eq, he, not_false_eq_true, decide_true, if_true, get_cons, ih]
        by_cases hk' : k = k'
        · subst hk'
          simp [he]
        · simp [hk']

theorem get_filter (p : K → Bool) :
    get (d.filter fun e => p e.1) k = if p k = true then d.get k else none := by
  induction d with
  | nil => simp
  | cons e d ih =>
      rw [List.filter_cons]
      by_cases he : p e.1 = true
      · rw [if_pos he, get_cons, get_cons, ih]
        by_cases hk : e.1 = k
        · subst hk
          simp [he]
        · simp [hk]
      · rw [if_neg he, get_cons, ih]
        by_cases hk : e.1 = k
        · subst hk
          simp [he]
        · simp [hk]

theorem mem_keys_set {k'' : K} : k'' ∈ (d.set k v).keys ↔ k'' = k ∨ k'' ∈ d.keys := by
  rw [← get_isSome_iff, ← get_isSome_iff, get_set]
  by_cases h : k = k''
  · simp [h]
  · simp [h, Ne.symm h]

theorem mem_set {e : K × V} (h : e ∈ d.set k v) : e = (k, v) ∨ e ∈ d := by
  unfold set at h
  split at h
  · obtain ⟨e', he', rfl⟩ := List.mem_map.mp h
    by_cases hk : e'.1 = k
    · exact .inl (if_pos hk)
    · rw [if_neg hk]
      exact .inr he'
  · rcases List.mem_append.mp h with he | he
    · exact .inr he
    · exact .inl (List.mem_singleton.mp he)

theorem nodup_set (h : d.keys.Nodup) : (d.set k v).keys.Nodup := by
  unfold set
  split
  · have hkeys : keys (d.map fun e => if e.1 = k then (k, v) else e) = d.keys := by
      unfold keys
      rw [List.map_map]
      apply List.map_congr_left
      intro e _
      by_cases he : e.1 = k <;> simp [he]
    rw [hkeys]
    exact h
  · rename_i hk
    unfold keys at h hk ⊢
    rw [List.map_append]
    refine List.nodup_append'.mpr ⟨h, List.nodup_singleton k, ?_⟩
    intro a ha ha'
    have hak : a = k := List.mem_singleton.mp ha'
    rw [hak] at ha
    exact hk ha

theorem nodup_erase (h : d.keys.Nodup) : (d.erase k).keys.Nodup :=
  List.Nodup.sublist (List.Sublist.map _ List.filter_sublist) h

theorem mem_of_get (h : d.get k = some v) : (k, v) ∈ d := by
  unfold get at h
  obtain ⟨e, hfind, rfl⟩ := Option.map_eq_some_iff.mp h
  have hk := List.find?_some hfind
  rw [decide_eq_true_iff] at hk
  rw [← hk]
  exact List.mem_of_find?_eq_some hfind

theorem get_of_mem (h : d.keys.Nodup) {e : K × V} (he : e ∈ d) : d.get e.1 = some e.2 := by
  obtain ⟨v, hv⟩ := Option.isSome_iff_exists.mp
    (get_isSome_iff.mpr (List.mem_map.mpr ⟨e, he, rfl⟩))
  have hmem := mem_of_get hv
  have heq : (e.1, v) = e := List.inj_on_of_nodup_map h hmem he rfl
  rw [hv, ← heq]

/-- Many keys set to one value. -/
theorem get_foldl_set (ks : List K) (v : V) (d : Dict K V) (k : K) :
    get (ks.foldl (fun d k => d.set k v) d) k = if k ∈ ks then some v else d.get k := by
  induction ks generalizing d with
  | nil => simp
  | cons a ks ih =>
      rw [List.foldl_cons, ih, get_set]
      by_cases hmem : k ∈ ks
      · simp [hmem]
      · by_cases ha : a = k
        · simp [ha]
        · simp [hmem, ha, Ne.symm ha]

theorem mem_keys_foldl_set {ks : List K} :
    k ∈ keys (ks.foldl (fun d k => d.set k v) d) ↔ k ∈ ks ∨ k ∈ d.keys := by
  rw [← get_isSome_iff, ← get_isSome_iff, get_foldl_set]
  split
  · rename_i h
    exact iff_of_true rfl (.inl h)
  · rename_i h
    exact (or_iff_right h).symm

theorem nodup_foldl_set (ks : List K) (v : V) (h : d.keys.Nodup) :
    (keys (ks.foldl (fun d k => d.set k v) d)).Nodup := by
  induction ks generalizing d with
  | nil => exact h
  | cons a ks ih => exact ih (nodup_set h)

/-- Different keys set in turn: the dictionary is the table they are set from, besides what
it had before. -/
theorem get_foldl_set_eq_some {A : Type} {key : A → K} {value : A → V} {l : List A}
    (hl : (l.map key).Nodup) {d : Dict K V} {k : K} {v : V} :
    get (l.foldl (fun d a => d.set (key a) (value a)) d) k = some v ↔
      (∃ a ∈ l, key a = k ∧ value a = v) ∨ k ∉ l.map key ∧ d.get k = some v := by
  induction l generalizing d with
  | nil => simp
  | cons a l ih =>
      obtain ⟨ha, hl⟩ := List.nodup_cons.mp hl
      rw [List.foldl_cons, ih hl, get_set, List.map_cons, List.mem_cons]
      by_cases hk : key a = k
      · subst hk
        have hno : ¬∃ a' ∈ l, key a' = key a ∧ value a' = v := by
          rintro ⟨a', ha', hkey, _⟩
          exact ha (hkey ▸ List.mem_map_of_mem ha')
        simp [ha, hno]
      · simp [hk, Ne.symm hk]

/-- Two dictionaries with the same contents are the same but for the order. -/
theorem perm_of_get {d' : Dict K V} (h : d.keys.Nodup) (h' : d'.keys.Nodup)
    (hget : ∀ k, d.get k = d'.get k) : d.Perm d' := by
  refine (List.perm_ext_iff_of_nodup (List.Nodup.of_map _ h) (List.Nodup.of_map _ h')).mpr
    (fun e => ⟨fun he => ?_, fun he => ?_⟩)
  · exact mem_of_get ((hget e.1).symm.trans (get_of_mem h he))
  · exact mem_of_get ((hget e.1).trans (get_of_mem h' he))

end Dict

end Cbuild.Lib
