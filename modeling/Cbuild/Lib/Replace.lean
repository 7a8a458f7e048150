import Mathlib.Data.List.Infix

/-! # Textual replacement

`str.replace` of Python on lists: the occurrences of `old` are found from the left
and do not overlap. The counter says how much of an occurrence is still to be
passed over. `old` is not empty.
-/

namespace Cbuild.Lib

variable {α : Type*} [DecidableEq α]

def replaceFrom (old new : List α) : Nat → List α → List α
  | _, [] => []
  | skip + 1, _ :: s => replaceFrom old new skip s
  | 0, c :: s =>
      if old.isPrefixOf (c :: s) then new ++ replaceFrom old new (old.length - 1) s
      else c :: replaceFrom old new 0 s

/-- `s.replace(old, new)` -/
def replace (old new s : List α) : List α := replaceFrom old new 0 s

variable {old new s : List α}

@[simp] theorem replace_nil : replace old new [] = [] := rfl

theorem replaceFrom_append (u : List α) :
    replaceFrom old new u.length (u ++ s) = replace old new s := by
  induction u with
  | nil => cases s <;> rfl
  | cons c u ih => exact ih

theorem replace_cons_of_not {c : α} (h : ¬ old <+: c :: s) :
    replace old new (c :: s) = c :: replace old new s := by
  unfold replace
  rw [replaceFrom, if_neg (by rwa [List.isPrefixOf_iff_prefix])]

/-- What begins with an occurrence goes on behind it. -/
theorem replace_append (hold : old ≠ []) : replace old new (old ++ s) = new ++ replace old new s := by
  cases old with
  | nil => exact absurd rfl hold
  | cons c u =>
      have hprefix : (c :: u).isPrefixOf (c :: (u ++ s)) = true :=
        List.isPrefixOf_iff_prefix.mpr (List.prefix_append (c :: u) s)
      show replaceFrom (c :: u) new 0 (c :: (u ++ s)) = _
      rw [replaceFrom, if_pos hprefix]
      exact congrArg (new ++ ·) (replaceFrom_append u)

theorem replace_of_not_infix (h : ¬ old <:+: s) : replace old new s = s := by
  induction s with
  | nil => rfl
  | cons c s ih =>
      have hcons : ¬ old <+: c :: s := fun hp => h hp.isInfix
      have hrest : ¬ old <:+: s := fun hi => h (List.infix_cons hi)
      rw [replace_cons_of_not hcons, ih hrest]

/-- A single occurrence, at the start. -/
theorem replace_prefix (hold : old ≠ []) (h : ¬ old <:+: s) :
    replace old new (old ++ s) = new ++ s := by
  rw [replace_append hold, replace_of_not_infix h]

/-! ## Delimited text

A text that is cut by a delimiter. What is replaced is a piece with the delimiters
around it; it takes both of them along, so that the piece behind it is not one.
-/

/-- The pieces with the delimiter between them. -/
def delimited (q : α) : List (List α) → List α
  | [] => []
  | [s] => s
  | s :: t :: rest => s ++ q :: delimited q (t :: rest)

/-- The pieces after the replacement of `old` by `new`. -/
def replacePieces (old new : List α) : List (List α) → List (List α)
  | s :: t :: u :: rest =>
      if t = old then s :: new :: replacePieces old new (u :: rest)
      else s :: replacePieces old new (t :: u :: rest)
  | pieces => pieces

variable {q : α} {pieces : List (List α)}

/-- Nothing begins in what does not have the first element of `old`. -/
theorem replace_append_of_notMem (old new : List α) (h : q ∉ s) (rest : List α) :
    replace (q :: old) new (s ++ rest) = s ++ replace (q :: old) new rest := by
  induction s with
  | nil => rfl
  | cons c s ih =>
      have hc : q ≠ c := fun heq => h (heq ▸ List.mem_cons_self)
      have hnot : ¬ (q :: old) <+: c :: (s ++ rest) := fun hp => hc (List.cons_prefix_cons.mp hp).1
      rw [List.cons_append, replace_cons_of_not hnot, ih fun hm => h (List.mem_cons_of_mem c hm)]
      rfl

theorem replace_of_notMem (old new : List α) (h : q ∉ s) : replace (q :: old) new s = s := by
  have happend := replace_append_of_notMem old new h []
  rw [List.append_nil, replace_nil, List.append_nil] at happend
  exact happend

omit [DecidableEq α] in
/-- The first delimiter is where it is. -/
theorem append_cons_inj {t x y : List α} (hs : q ∉ s) (ht : q ∉ t)
    (h : s ++ q :: x = t ++ q :: y) : s = t ∧ x = y := by
  induction s generalizing t with
  | nil =>
      cases t with
      | nil => exact ⟨rfl, (List.cons.inj h).2⟩
      | cons c t =>
          have hc : q = c := (List.cons.inj h).1
          rw [hc] at ht
          exact absurd List.mem_cons_self ht
  | cons c s ih =>
      cases t with
      | nil =>
          have hc : c = q := (List.cons.inj h).1
          rw [hc] at hs
          exact absurd List.mem_cons_self hs
      | cons d t =>
          obtain ⟨rfl, hrest⟩ := List.cons.inj h
          obtain ⟨rfl, hxy⟩ := ih (fun hm => hs (List.mem_cons_of_mem c hm))
            (fun hm => ht (List.mem_cons_of_mem c hm)) hrest
          exact ⟨rfl, hxy⟩

omit [DecidableEq α] in
theorem eq_of_prefix_delimited {t rest : List α} (hold : q ∉ old) (ht : q ∉ t)
    (h : old ++ [q] <+: t ++ q :: rest) : t = old := by
  obtain ⟨r, hr⟩ := h
  have heq : t ++ q :: rest = old ++ q :: r := by
    rw [← hr, List.append_assoc]
    rfl
  exact (append_cons_inj ht hold heq).1

theorem replacePieces_cons (old new t : List α) (pieces : List (List α)) :
    ∃ v r, replacePieces old new (t :: pieces) = v :: r := by
  unfold replacePieces
  split
  · split <;> exact ⟨_, _, rfl⟩
  · exact ⟨_, _, rfl⟩

theorem replace_delimited (new : List α) (hold : q ∉ old) (hpieces : ∀ t ∈ pieces, q ∉ t) :
    replace (q :: old ++ [q]) (q :: new ++ [q]) (delimited q pieces) =
      delimited q (replacePieces old new pieces) := by
  have hquoted : q :: old ++ [q] = q :: (old ++ [q]) := List.cons_append
  induction pieces using replacePieces.induct old with
  | case1 s u rest ih =>
      have hs : q ∉ s := hpieces s (by simp)
      have hrest := ih fun t ht => hpieces t (List.mem_cons_of_mem s (List.mem_cons_of_mem old ht))
      have htext : delimited q (s :: old :: u :: rest) =
          s ++ ((q :: old ++ [q]) ++ delimited q (u :: rest)) := by simp [delimited]
      have hnew : replacePieces old new (s :: old :: u :: rest) =
          s :: new :: replacePieces old new (u :: rest) := by simp [replacePieces]
      obtain ⟨v, r, hvr⟩ := replacePieces_cons old new u rest
      rw [hvr] at hrest
      rw [htext, hnew, hquoted, replace_append_of_notMem _ _ hs, replace_append (List.cons_ne_nil _ _),
        ← hquoted, hrest, hvr]
      simp [delimited]
  | case2 s t u rest hne ih =>
      have hs : q ∉ s := hpieces s (by simp)
      have ht : q ∉ t := hpieces t (by simp)
      have hrest := ih fun t ht => hpieces t (List.mem_cons_of_mem s ht)
      have htext : delimited q (s :: t :: u :: rest) = s ++ q :: delimited q (t :: u :: rest) := rfl
      have hnew : replacePieces old new (s :: t :: u :: rest) =
          s :: replacePieces old new (t :: u :: rest) := by
        rw [replacePieces, if_neg hne]
      obtain ⟨v, r, hvr⟩ := replacePieces_cons old new t (u :: rest)
      have hnot : ¬ (q :: (old ++ [q])) <+: q :: delimited q (t :: u :: rest) := by
        rw [List.cons_prefix_cons]
        rintro ⟨-, hp⟩
        exact hne (eq_of_prefix_delimited hold ht hp)
      rw [hvr] at hrest
      rw [htext, hnew, hquoted, replace_append_of_notMem _ _ hs, replace_cons_of_not hnot, ← hquoted,
        hrest, hvr]
      rfl
  | case3 pieces h =>
      have hsame : replacePieces old new pieces = pieces := by
        unfold replacePieces
        split
        · exact absurd rfl (h _ _ _ _)
        · rfl
      rw [hsame, hquoted]
      match pieces, h, hpieces with
      | [], _, _ => rfl
      | [s], _, hpieces => exact replace_of_notMem _ _ (hpieces s (by simp))
      | [s, t], _, hpieces =>
          have hs : q ∉ s := hpieces s (by simp)
          have ht : q ∉ t := hpieces t (by simp)
          have hnot : ¬ (q :: (old ++ [q])) <+: q :: t := by
            rw [List.cons_prefix_cons]
            rintro ⟨-, hp⟩
            exact ht (hp.subset (by simp))
          show replace _ _ (s ++ q :: t) = s ++ q :: t
          rw [replace_append_of_notMem _ _ hs, replace_cons_of_not hnot, replace_of_notMem _ _ ht]
      | s :: t :: u :: rest, h, _ => exact absurd rfl (h s t u rest)

omit [DecidableEq α] in
/-- A text has its pieces only. -/
theorem delimited_injective {pieces' : List (List α)} (h : ∀ t ∈ pieces, q ∉ t)
    (h' : ∀ t ∈ pieces', q ∉ t) (hne : pieces ≠ []) (hne' : pieces' ≠ [])
    (heq : delimited q pieces = delimited q pieces') : pieces = pieces' := by
  induction pieces generalizing pieces' with
  | nil => exact absurd rfl hne
  | cons s pieces ih =>
      cases pieces' with
      | nil => exact absurd rfl hne'
      | cons t pieces' =>
          have hs : q ∉ s := h s (by simp)
          have ht : q ∉ t := h' t (by simp)
          cases pieces with
          | nil =>
              cases pieces' with
              | nil => exact congrArg (fun x => [x]) heq
              | cons v r =>
                  have hst : s = t ++ q :: delimited q (v :: r) := heq
                  exact absurd (by rw [hst]; simp) hs
          | cons u pieces =>
              cases pieces' with
              | nil =>
                  have hst : s ++ q :: delimited q (u :: pieces) = t := heq
                  exact absurd (by rw [← hst]; simp) ht
              | cons v r =>
                  obtain ⟨rfl, hrest⟩ := append_cons_inj hs ht heq
                  rw [ih (fun w hw => h w (List.mem_cons_of_mem s hw))
                    (fun w hw => h' w (List.mem_cons_of_mem s hw)) (List.cons_ne_nil _ _)
                    (List.cons_ne_nil _ _) hrest]

end Cbuild.Lib
