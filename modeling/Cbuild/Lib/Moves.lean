import Mathlib.Logic.Function.Basic
import Mathlib.Data.List.Nodup
import Mathlib.Data.List.Induction

/-! # Names that are moved

A table of names in which a loop moves one entry after another to a new name, with a
new content. Where the new names are free and different, what the loop leaves does not
depend on the order: the old names are gone, the new ones are there and the rest is as
it was. The entries are files, and links from one name to another.
-/

namespace Cbuild.Lib

section Moves

variable {K V : Type}

/-- The entries `l` of `t` have been moved, each `k` to `g k` where it is `h k`. -/
structure Moved (g : K → K) (h : K → V) (l : List K) (t t' : K → Option V) : Prop where
  gone : ∀ k ∈ l, t' k = none
  there : ∀ k ∈ l, t' (g k) = some (h k)
  rest : ∀ p, (∀ k ∈ l, p ≠ k ∧ p ≠ g k) → t' p = t p

variable {g : K → K} {h : K → V} {l : List K} {t t' : K → Option V}

theorem Moved.nil (t : K → Option V) : Moved g h [] t t := ⟨by simp, by simp, fun _ _ => rfl⟩

/-- A loop that touches two names at each entry leaves the others alone. -/
theorem foldlM_frame {one : (K → Option V) → K → Option (K → Option V)}
    (hone : ∀ t k t', one t k = some t' → ∀ p, p ≠ k → p ≠ g k → t' p = t p)
    (hrun : l.foldlM one t = some t') {p : K} (hp : ∀ k ∈ l, p ≠ k ∧ p ≠ g k) : t' p = t p := by
  induction l generalizing t with
  | nil =>
      cases hrun
      rfl
  | cons k l ih =>
      rw [List.foldlM_cons] at hrun
      obtain ⟨t₁, hk, hrest⟩ := Option.bind_eq_some_iff.mp hrun
      have hpk := hp k (List.mem_cons_self ..)
      rw [ih hrest (fun k' hk' => hp k' (List.mem_cons_of_mem k hk')), hone t k t₁ hk p hpk.1 hpk.2]

/-- Entries at which nothing happens may be left out of a loop. -/
theorem foldlM_filter {one : (K → Option V) → K → Option (K → Option V)} {P : K → Bool}
    (hskip : ∀ t k, P k = false → one t k = some t) (l : List K) (t : K → Option V) :
    l.foldlM one t = (l.filter P).foldlM one t := by
  induction l generalizing t with
  | nil => rfl
  | cons k l ih =>
      cases hk : P k with
      | false =>
          rw [List.filter_cons_of_neg (by simp [hk]), List.foldlM_cons, hskip t k hk]
          exact ih t
      | true =>
          rw [List.filter_cons_of_pos hk, List.foldlM_cons, List.foldlM_cons]
          exact congrArg (Option.bind (one t k)) (funext ih)

theorem Moved.isSome_iff (hm : Moved g h l t t') {p : K} :
    (t' p).isSome = true ↔ (∃ k ∈ l, p = g k) ∨ (p ∉ l ∧ (t p).isSome = true) := by
  by_cases hg : ∃ k ∈ l, p = g k
  · obtain ⟨k, hk, rfl⟩ := hg
    rw [hm.there k hk]
    simp only [Option.isSome_some, true_iff]
    exact .inl ⟨k, hk, rfl⟩
  · by_cases hp : p ∈ l
    · rw [hm.gone p hp]
      simp [hg, hp]
    · rw [hm.rest p (fun k hk => ⟨fun heq => hp (heq ▸ hk), fun heq => hg ⟨k, hk, heq⟩⟩)]
      simp [hg, hp]

variable [DecidableEq K]

/-- An entry moved from `k` to `k'`, where it is `v`. -/
def move (k k' : K) (v : V) (t : K → Option V) : K → Option V :=
  Function.update (Function.update t k' (some v)) k none

theorem move_apply (k k' : K) (v : V) (t : K → Option V) (p : K) :
    move k k' v t p = if p = k then none else if p = k' then some v else t p := by
  unfold move
  by_cases hk : p = k
  · simp [hk]
  · rw [if_neg hk, Function.update_of_ne hk, Function.update_apply]

theorem Moved.snoc (hm : Moved g h l t t') {k : K} (hself : g k ≠ k)
    (hother : ∀ k' ∈ l, g k ≠ k' ∧ g k ≠ g k' ∧ k ≠ g k') :
    Moved g h (l ++ [k]) t (move k (g k) (h k) t') := by
  refine ⟨fun k' hk' => ?_, fun k' hk' => ?_, fun p hp => ?_⟩
  · rw [move_apply]
    by_cases heq : k' = k
    · rw [if_pos heq]
    · have hmem : k' ∈ l := (List.mem_append.mp hk').resolve_right (by simpa using heq)
      rw [if_neg heq, if_neg (fun h => (hother k' hmem).1 h.symm)]
      exact hm.gone k' hmem
  · rw [move_apply]
    rcases List.mem_append.mp hk' with hmem | hmem
    · rw [if_neg (fun h => (hother k' hmem).2.2 h.symm), if_neg (fun h => (hother k' hmem).2.1 h.symm)]
      exact hm.there k' hmem
    · rw [List.mem_singleton] at hmem
      rw [hmem, if_neg hself, if_pos rfl]
  · have hk := hp k (by simp)
    rw [move_apply, if_neg hk.1, if_neg hk.2]
    exact hm.rest p (fun k' hk' => hp k' (List.mem_append_left _ hk'))

/-- A loop over entries that are to be moved to free names of their own. -/
theorem foldlM_moved (one : (K → Option V) → K → Option (K → Option V)) (hnodup : l.Nodup)
    (hinj : ∀ k ∈ l, ∀ k' ∈ l, g k = g k' → k = k') (hin : ∀ k ∈ l, (t k).isSome = true)
    (hfree : ∀ k ∈ l, t (g k) = none)
    (hone : ∀ k ∈ l, ∀ t', t' k = t k → t' (g k) = none → one t' k = some (move k (g k) (h k) t')) :
    ∃ t', l.foldlM one t = some t' ∧ Moved g h l t t' := by
  -- no new name is an old one
  have hne : ∀ k ∈ l, ∀ k' ∈ l, g k ≠ k' := by
    intro k hk k' hk' heq
    have hsome := hin k' hk'
    rw [← heq, hfree k hk] at hsome
    contradiction
  induction l using List.reverseRecOn with
  | nil => exact ⟨t, rfl, .nil t⟩
  | append_singleton l k ih =>
      have hleft : ∀ k' ∈ l, k' ∈ l ++ [k] := fun k' hk' => List.mem_append_left _ hk'
      have hk : k ∈ l ++ [k] := by simp
      have hnotin : k ∉ l := by
        intro hmem
        exact (List.nodup_append'.mp hnodup).2.2 hmem (by simp)
      obtain ⟨t', hrun, hm⟩ := ih (hnodup.of_append_left)
        (fun a ha b hb => hinj a (hleft a ha) b (hleft b hb)) (fun a ha => hin a (hleft a ha))
        (fun a ha => hfree a (hleft a ha)) (fun a ha => hone a (hleft a ha))
        (fun a ha b hb => hne a (hleft a ha) b (hleft b hb))
      have hother : ∀ k' ∈ l, g k ≠ k' ∧ g k ≠ g k' ∧ k ≠ g k' := by
        intro k' hk'
        refine ⟨hne k hk k' (hleft k' hk'), fun heq => ?_, fun heq => ?_⟩
        · exact hnotin (hinj k hk k' (hleft k' hk') heq ▸ hk')
        · exact hne k' (hleft k' hk') k hk heq.symm
      have hsame : t' k = t k := hm.rest k (fun k' hk' =>
        ⟨fun heq => hnotin (heq ▸ hk'), (hother k' hk').2.2⟩)
      have hfree' : t' (g k) = none := by
        rw [hm.rest (g k) (fun k' hk' => ⟨(hother k' hk').1, (hother k' hk').2.1⟩)]
        exact hfree k hk
      refine ⟨move k (g k) (h k) t', ?_, hm.snoc (hne k hk k hk) hother⟩
      rw [List.foldlM_append, hrun]
      simp [hone k hk t' hsame hfree']

end Moves

/-! ## Links -/

inductive Entry (K C : Type) where
  | file (content : C)
  | link (target : K)
  deriving DecidableEq

abbrev Entries (K C : Type) : Type := K → Option (Entry K C)

namespace Entries

variable {K C : Type}

def isLink (t : Entries K C) (k : K) : Bool :=
  match t k with
  | some (.link _) => true
  | _ => false

/-- The name that is reached over at most so many links; there need not be anything. -/
def follow (t : Entries K C) : Nat → K → Option K
  | 0, k => if t.isLink k then none else some k
  | links + 1, k =>
      match t k with
      | some (.link k') => follow t links k'
      | _ => some k

/-- The file that is reached, as the system follows links. -/
def read (t : Entries K C) (k : K) : Option (K × C) :=
  (t.follow 40 k).bind fun k' =>
    match t k' with
    | some (.file c) => some (k', c)
    | _ => none

variable {t t' : Entries K C} {k k' : K}

theorem isLink_iff : t.isLink k = true ↔ ∃ q, t k = some (.link q) := by
  unfold isLink
  split
  · rename_i q hq
    simp [hq]
  · rename_i hno
    simp only [Bool.false_eq_true, false_iff, not_exists]
    exact hno

theorem follow_of_not_link (h : t.isLink k = false) (n : Nat) : t.follow n k = some k := by
  have hno : ∀ q, t k ≠ some (.link q) := by
    intro q hq
    rw [isLink_iff.mpr ⟨q, hq⟩] at h
    contradiction
  cases n with
  | zero => rw [follow, h, if_neg Bool.false_ne_true]
  | succ n =>
      rw [follow]
      split
      · rename_i q hq
        exact absurd hq (hno q)
      · rfl

/-- What is reached is no link. -/
theorem isLink_follow {n : Nat} (h : t.follow n k = some k') : t.isLink k' = false := by
  induction n generalizing k with
  | zero =>
      rw [follow] at h
      split at h
      · contradiction
      · cases h
        rename_i hno
        exact Bool.eq_false_iff.mpr hno
  | succ n ih =>
      rw [follow] at h
      split at h
      · exact ih h
      · cases h
        rename_i hno
        rw [Bool.eq_false_iff]
        intro hlink
        obtain ⟨q, hq⟩ := isLink_iff.mp hlink
        exact hno q hq

theorem read_of_file {c : C} (h : t k = some (.file c)) : t.read k = some (k, c) := by
  have hno : t.isLink k = false := by simp [isLink, h]
  rw [read, follow_of_not_link hno, Option.bind_some, h]

end Entries

/-- The entry under other names and with another content. -/
def Entry.map {K C : Type} (g : K → K) (h : C → C) : Entry K C → Entry K C
  | .file c => .file (h c)
  | .link k => .link (g k)

namespace Entries

variable {K C : Type} {t t' : Entries K C} {g : K → K} {h : K → C → C} {P : K → Prop}

/-- Names that are renamed with the links to them lead to the renamed names. -/
theorem follow_map (hmap : ∀ k, P k → t' (g k) = (t k).map (Entry.map g (h k)))
    (hclosed : ∀ k q, P k → t k = some (.link q) → P q) (n : Nat) {k : K} (hk : P k) :
    t'.follow n (g k) = (t.follow n k).map g := by
  have hfollow : ∀ n k, P k → t.isLink k = false → t'.follow n (g k) = (t.follow n k).map g := by
    intro n k hk hno
    have hno' : t'.isLink (g k) = false := by
      rw [isLink, hmap k hk]
      cases hentry : t k with
      | none => rfl
      | some e =>
          cases e with
          | file c => rfl
          | link q => simp [isLink, hentry] at hno
    rw [follow_of_not_link hno, follow_of_not_link hno', Option.map_some]
  induction n generalizing k with
  | zero =>
      cases hno : t.isLink k with
      | false => exact hfollow 0 k hk hno
      | true =>
          obtain ⟨q, hq⟩ := isLink_iff.mp hno
          have hlink : t'.isLink (g k) = true :=
            isLink_iff.mpr ⟨g q, by rw [hmap k hk, hq]; rfl⟩
          rw [follow, follow, hno, hlink]
          rfl
  | succ n ih =>
      cases hno : t.isLink k with
      | false => exact hfollow (n + 1) k hk hno
      | true =>
          obtain ⟨q, hq⟩ := isLink_iff.mp hno
          have hq' : t' (g k) = some (.link (g q)) := by
            rw [hmap k hk, hq]
            rfl
          rw [follow, follow, hq, hq']
          exact ih (hclosed k q hk hq)

theorem follow_closed (hclosed : ∀ k q, P k → t k = some (.link q) → P q) {n : Nat} {k k' : K}
    (hk : P k) (h : t.follow n k = some k') : P k' := by
  induction n generalizing k with
  | zero =>
      rw [follow] at h
      split at h
      · contradiction
      · cases h
        exact hk
  | succ n ih =>
      rw [follow] at h
      split at h
      · rename_i q hq
        exact ih (hclosed k q hk hq) h
      · cases h
        exact hk

theorem read_map (hmap : ∀ k, P k → t' (g k) = (t k).map (Entry.map g (h k)))
    (hclosed : ∀ k q, P k → t k = some (.link q) → P q) {k : K} (hk : P k) :
    t'.read (g k) = (t.read k).map fun r => (g r.1, h r.1 r.2) := by
  rw [read, read, follow_map hmap hclosed 40 hk]
  cases hf : t.follow 40 k with
  | none => rfl
  | some k' =>
      have hk' := follow_closed hclosed hk hf
      rw [Option.map_some, Option.bind_some, Option.bind_some, hmap k' hk']
      cases hentry : t k' with
      | none => rfl
      | some e =>
          cases e with
          | file c => rfl
          | link q => rfl

end Entries

end Cbuild.Lib
