import Cbuild.Lib.Shell

/-! # Recipe lines

What `make` does to a recipe line before the shell gets it: every `$` begins a
reference, and the signs at its front are for `make`. What a reference stands for
depends on the variables and functions that are defined, so a `Make` is any
reading of references that goes on after them.
-/

namespace Cbuild.Lib

structure Make where
  /-- The value of the reference that `$` and a character begin, and the text after it; no
  result when `make` stops with an error. -/
  reference : Char → List Char → Option (List Char × List Char)
  rest_length : ∀ c s v r, reference c s = some (v, r) → r.length ≤ s.length

/-- Every `$` is one of a reference, of `$$`, or the last character. -/
def Make.expand (mk : Make) : List Char → Option (List Char)
  | [] => some []
  | c :: s =>
      if c = '$' then
        match s with
        | [] => some ['$']
        | d :: s =>
            if d = '$' then (mk.expand s).map ('$' :: ·)
            else
              match _h : mk.reference d s with
              | none => none
              | some (v, r) => (mk.expand r).map (v ++ ·)
      else (mk.expand s).map (c :: ·)
termination_by s => s.length
decreasing_by
  · simp only [List.length_cons]
    omega
  · have := mk.rest_length d s v r _h
    simp only [List.length_cons]
    omega
  · simp only [List.length_cons]
    omega

/-- Echo, error and dry-run flags, and the blanks among them. -/
def isRecipeFlag (c : Char) : Bool := ['@', '-', '+', ' ', '\t'].contains c

/-- The words of the command a recipe line runs; a line feed would end the line. -/
def Make.recipeWords (mk : Make) (line : List Char) : Option (List (List Char)) :=
  if '\n' ∈ line then none
  else (mk.expand line).bind fun s => shellWords (s.dropWhile isRecipeFlag)

variable {mk : Make} {s t : List Char}

theorem Make.expand_of_not_mem (h : '$' ∉ s) : mk.expand s = some s := by
  induction s with
  | nil => rw [Make.expand]
  | cons c s ih =>
      rw [List.mem_cons, not_or] at h
      rw [Make.expand.eq_def]
      dsimp only
      rw [if_neg (Ne.symm h.1), ih h.2]
      rfl

/-- The `make` that has nothing defined: a reference ends with its bracket or its letter. -/
def Make.nothingDefined : Make where
  reference c s :=
    if c = '(' then if ')' ∈ s then some ([], (s.dropWhile (· ≠ ')')).tail) else none
    else if c = '{' then if '}' ∈ s then some ([], (s.dropWhile (· ≠ '}')).tail) else none
    else some ([], s)
  rest_length := by
    intro c s v r h
    have hdrop : ∀ p : Char → Bool, (s.dropWhile p).tail.length ≤ s.length := by
      intro p
      have := (s.dropWhile_sublist p).length_le
      rw [List.length_tail]
      omega
    split at h
    · split at h
      · cases h
        exact hdrop _
      · nomatch h
    split at h
    · split at h
      · cases h
        exact hdrop _
      · nomatch h
    · cases h
      exact Nat.le_refl _

theorem Make.nothingDefined_reference {c : Char} {v r : List Char}
    (h : nothingDefined.reference c s = some (v, r)) : v = [] ∧ r <:+ s := by
  have hdrop : ∀ p : Char → Bool, (s.dropWhile p).tail <:+ s :=
    fun p => (List.tail_suffix _).trans (s.dropWhile_suffix p)
  unfold nothingDefined at h
  dsimp only at h
  split at h
  · split at h
    · cases h
      exact ⟨rfl, hdrop _⟩
    · nomatch h
  split at h
  · split at h
    · cases h
      exact ⟨rfl, hdrop _⟩
    · nomatch h
  · cases h
    exact ⟨rfl, List.suffix_refl _⟩

theorem getLast?_of_suffix {r : List Char} (h : r <:+ s) (hlast : s.getLast? ≠ some '$') :
    r.getLast? ≠ some '$' := by
  obtain ⟨l, rfl⟩ := h
  intro hr
  apply hlast
  rw [List.getLast?_append, hr]
  rfl

/-- Nothing defined, at most every second `$` is left, unless the line ends with one. -/
theorem Make.count_expand (hlast : s.getLast? ≠ some '$')
    (h : nothingDefined.expand s = some t) : 2 * t.count '$' ≤ s.count '$' := by
  fun_induction Make.expand nothingDefined s generalizing t with
  | case1 =>
      cases h
      exact Nat.le_refl _
  | case2 => exact absurd rfl hlast
  | case3 s ih =>
      obtain ⟨u, hu, rfl⟩ := Option.map_eq_some_iff.mp h
      have := ih (getLast?_of_suffix ⟨['$', '$'], rfl⟩ hlast) hu
      simp only [List.count_cons_self]
      omega
  | case4 => nomatch h
  | case5 d s hd v r href ih =>
      obtain ⟨u, hu, rfl⟩ := Option.map_eq_some_iff.mp h
      obtain ⟨rfl, hsuffix⟩ := nothingDefined_reference href
      have := ih (getLast?_of_suffix (hsuffix.trans ⟨['$', d], rfl⟩) hlast) hu
      have := hsuffix.sublist.count_le '$'
      simp only [List.nil_append, List.count_cons]
      omega
  | case6 c s hc ih =>
      obtain ⟨u, hu, rfl⟩ := Option.map_eq_some_iff.mp h
      have := ih (getLast?_of_suffix ⟨[c], rfl⟩ hlast) hu
      rw [List.count_cons_of_ne hc, List.count_cons_of_ne hc]
      omega

/-! ## Recipe lines made by quoting -/

theorem shellJoin_cons (w : List Char) (ws : List (List Char)) :
    ∃ rest, shellJoin (w :: ws) = shellQuote w ++ rest ∧ rest.head? ∈ [none, some ' '] := by
  cases ws with
  | nil => exact ⟨[], by simp [shellJoin], by simp⟩
  | cons v ws => exact ⟨' ' :: shellJoin (v :: ws), rfl, by simp⟩

/-- Quoting does not end a line with a dollar sign. -/
theorem getLast?_shellJoin (ws : List (List Char)) : (shellJoin ws).getLast? ≠ some '$' := by
  have hquote : ∀ w : List Char, shellQuote w ≠ [] ∧ (shellQuote w).getLast? ≠ some '$' := by
    intro w
    unfold shellQuote
    split
    · simp
    split
    · rename_i hne hsafe
      apply And.intro hne
      intro hlast
      have := List.all_eq_true.mp hsafe '$' (List.mem_of_getLast? hlast)
      contradiction
    · apply And.intro (List.cons_ne_nil _ _)
      rw [← List.cons_append, List.getLast?_append]
      simp
  induction ws with
  | nil => nofun
  | cons w ws ih =>
      cases ws with
      | nil => exact (hquote w).2
      | cons v ws =>
          have hne : shellJoin (v :: ws) ≠ [] := by
            obtain ⟨rest, hrest, -⟩ := shellJoin_cons v ws
            rw [hrest]
            exact List.append_ne_nil_of_left_ne_nil (hquote v).1 _
          intro hlast
          apply ih
          rw [shellJoin_cons_cons, ← List.singleton_append, ← List.append_assoc,
            List.getLast?_append_of_ne_nil _ hne] at hlast
          exact hlast

/-- The word does not begin with what `make` takes for a flag. -/
def Unflagged (w : List Char) : Prop := ∀ c ∈ w.head?, isRecipeFlag c = false

theorem dropWhile_flags_join {w : List Char} (hw : Unflagged w) (ws : List (List Char)) :
    (shellJoin (w :: ws)).dropWhile isRecipeFlag = shellJoin (w :: ws) := by
  obtain ⟨rest, hrest, -⟩ := shellJoin_cons w ws
  rw [hrest]
  unfold shellQuote
  split
  · rfl
  split
  · cases w with
    | nil => contradiction
    | cons c w => rw [List.cons_append, List.dropWhile_cons_of_neg (by simp [hw c rfl])]
  · rfl

section

variable {args : List (List Char)} {line : List Char}

theorem not_mem_shellJoin {c : Char} (hc : c ≠ '\'') (hc' : c ≠ '"') (hc'' : c ≠ ' ')
    (h : ∀ a ∈ args, c ∉ a) : c ∉ shellJoin args := by
  rw [← List.count_eq_zero, count_join hc hc' hc'', List.count_eq_zero]
  intro hmem
  obtain ⟨a, ha, hca⟩ := List.mem_flatten.mp hmem
  exact h a ha hca

theorem Make.recipeWords_plain (hdollar : '$' ∉ line) (hline : '\n' ∉ line) :
    mk.recipeWords line = shellWords (line.dropWhile isRecipeFlag) := by
  unfold recipeWords
  rw [if_neg hline, expand_of_not_mem hdollar]
  rfl

/-- Where nothing is defined a dollar sign is lost. -/
theorem Make.recipeWords_dollar (hlast : line.getLast? ≠ some '$')
    (hcount : line.count '$' ≤ args.flatten.count '$') {a : List Char} (ha : a ∈ args)
    (hdollar : '$' ∈ a) : nothingDefined.recipeWords line ≠ some args := by
  intro h
  unfold recipeWords at h
  split at h
  · contradiction
  obtain ⟨t, ht, hwords⟩ := Option.bind_eq_some_iff.mp h
  have hhalf := count_expand hlast ht
  have hdrop := (t.dropWhile_sublist isRecipeFlag).count_le '$'
  have hsplit := count_shellWords '$' hwords
  have hpos : 0 < args.flatten.count '$' :=
    List.count_pos_iff.mpr (List.mem_flatten.mpr ⟨a, ha, hdollar⟩)
  omega

/-- A line of quoted words runs exactly these, unless one has a dollar sign in it. -/
theorem Make.recipeWords_join_iff {w : List Char} {ws : List (List Char)} (hw : Unflagged w)
    (hline : ∀ a ∈ w :: ws, '\n' ∉ a) :
    (∀ mk : Make, mk.recipeWords (shellJoin (w :: ws)) = some (w :: ws)) ↔
      ∀ a ∈ w :: ws, '$' ∉ a := by
  constructor
  · intro h a ha hdollar
    exact recipeWords_dollar (getLast?_shellJoin _)
      (Nat.le_of_eq (count_join (by decide) (by decide) (by decide) _)) ha hdollar (h nothingDefined)
  · intro h mk
    rw [recipeWords_plain
      (not_mem_shellJoin (by decide) (by decide) (by decide) h)
      (not_mem_shellJoin (by decide) (by decide) (by decide) hline),
      dropWhile_flags_join hw, shellWords_join]

theorem shellQuote_safe {w : List Char} (hne : w ≠ []) (hsafe : w.all isShellSafe = true) :
    shellQuote w = w := by
  unfold shellQuote
  rw [if_neg hne, if_pos hsafe]

theorem at_safe {w : List Char} (hsafe : w.all isShellSafe = true) :
    shellQuote ('@' :: w) = '@' :: w :=
  shellQuote_safe (List.cons_ne_nil _ _) (by rw [List.all_cons, hsafe]; rfl)

/-- A program that needs quotes takes the flag into them. -/
theorem Make.recipeWords_quotedFlag {w v : List Char} {ws : List (List Char)}
    (hquoted : w.all isShellSafe = false) (hline : ∀ a ∈ ('@' :: w) :: v :: ws, '\n' ∉ a)
    (hdollar : ∀ a ∈ ('@' :: w) :: v :: ws, '$' ∉ a) :
    mk.recipeWords (shellJoin (('@' :: w) :: v :: ws)) = some (('@' :: w) :: v :: ws) := by
  rw [recipeWords_plain
    (not_mem_shellJoin (by decide) (by decide) (by decide) hdollar)
    (not_mem_shellJoin (by decide) (by decide) (by decide) hline)]
  have hquote : ∃ rest, shellJoin (('@' :: w) :: v :: ws) = '\'' :: rest := by
    rw [shellJoin_cons_cons]
    unfold shellQuote
    rw [if_neg (List.cons_ne_nil _ _), List.all_cons, hquoted, Bool.and_false,
      if_neg Bool.false_ne_true]
    exact ⟨_, rfl⟩
  obtain ⟨rest, hrest⟩ := hquote
  rw [hrest, List.dropWhile_cons_of_neg (by decide), ← hrest, shellWords_join]

/-- A program that begins with a flag, or is missing, loses it. -/
theorem Make.recipeWords_flagged {w v : List Char} {ws : List (List Char)}
    (hsafe : w.all isShellSafe = true) (hw : w = [] ∨ ¬ Unflagged w) (hv : Unflagged v)
    (hline : ∀ a ∈ ('@' :: w) :: v :: ws, '\n' ∉ a)
    (hdollar : ∀ a ∈ ('@' :: w) :: v :: ws, '$' ∉ a) :
    mk.recipeWords (shellJoin (('@' :: w) :: v :: ws)) ≠ some (w :: v :: ws) := by
  rw [recipeWords_plain
    (not_mem_shellJoin (by decide) (by decide) (by decide) hdollar)
    (not_mem_shellJoin (by decide) (by decide) (by decide) hline), shellJoin_cons_cons,
    at_safe hsafe]
  cases w with
  | nil =>
      have hdrop : (['@'] ++ ' ' :: shellJoin (v :: ws)).dropWhile isRecipeFlag =
          shellJoin (v :: ws) := dropWhile_flags_join hv ws
      rw [hdrop, shellWords_join]
      intro h
      have := congrArg List.length (Option.some.inj h)
      simp at this
  | cons c w =>
      have hflag : isRecipeFlag c = true := by
        rcases hw with hw | hw
        · contradiction
        · unfold Unflagged at hw
          simpa using hw
      rw [List.all_cons, Bool.and_eq_true] at hsafe
      have hc : c ≠ ' ' ∧ c ≠ '\'' ∧ c ≠ '"' := by
        refine ⟨?_, ?_, ?_⟩ <;> (intro h; rw [h] at hsafe; exact nomatch hsafe.1)
      intro h
      have hdrop : ('@' :: c :: w ++ ' ' :: shellJoin (v :: ws)).dropWhile isRecipeFlag =
          (w ++ ' ' :: shellJoin (v :: ws)).dropWhile isRecipeFlag := by
        rw [List.cons_append, List.cons_append, List.dropWhile_cons_of_pos (by decide),
          List.dropWhile_cons_of_pos hflag]
      rw [hdrop] at h
      have hcount := count_shellWords c h
      have hsub := ((w ++ ' ' :: shellJoin (v :: ws)).dropWhile_sublist isRecipeFlag).count_le c
      rw [List.count_append, List.count_cons_of_ne hc.1.symm,
        count_join hc.2.1 hc.2.2 hc.1] at hsub
      rw [List.flatten_cons, List.count_append, List.count_cons_self] at hcount
      omega

/-- The same for a line that is not echoed, whose first word must stand without quotes. -/
theorem Make.recipeWords_silent_iff {w v : List Char} {ws : List (List Char)} (hv : Unflagged v)
    (hline : ∀ a ∈ w :: v :: ws, '\n' ∉ a) :
    (∀ mk : Make, mk.recipeWords (shellJoin (('@' :: w) :: v :: ws)) = some (w :: v :: ws)) ↔
      (w ≠ [] ∧ w.all isShellSafe = true ∧ Unflagged w) ∧ ∀ a ∈ w :: v :: ws, '$' ∉ a := by
  have hat : ∀ {c : Char}, c ≠ '@' → (∀ a ∈ w :: v :: ws, c ∉ a) →
      ∀ a ∈ ('@' :: w) :: v :: ws, c ∉ a := by
    intro c hc h
    rw [List.forall_mem_cons] at h ⊢
    apply And.intro _ h.2
    rw [List.mem_cons, not_or]
    exact ⟨hc, h.1⟩
  have hline' := hat (by decide) hline
  constructor
  · intro h
    have hdollar : ∀ a ∈ w :: v :: ws, '$' ∉ a := by
      intro a ha hdollar
      apply recipeWords_dollar (getLast?_shellJoin _) _ ha hdollar (h nothingDefined)
      rw [count_join (by decide) (by decide) (by decide)]
      exact Nat.le_refl _
    have hdollar' := hat (by decide) hdollar
    have hrun := h nothingDefined
    apply And.intro _ hdollar
    cases hsafe : w.all isShellSafe with
    | false =>
        rw [recipeWords_quotedFlag hsafe hline' hdollar'] at hrun
        simp at hrun
    | true =>
        by_contra hw
        apply recipeWords_flagged hsafe _ hv hline' hdollar' hrun
        tauto
  · intro h mk
    obtain ⟨⟨hne, hsafe, hflag⟩, hdollar⟩ := h
    rw [recipeWords_plain
      (not_mem_shellJoin (by decide) (by decide) (by decide) (hat (by decide) hdollar))
      (not_mem_shellJoin (by decide) (by decide) (by decide) hline')]
    have hline : shellJoin (('@' :: w) :: v :: ws) = '@' :: shellJoin (w :: v :: ws) := by
      rw [shellJoin_cons_cons, shellJoin_cons_cons, at_safe hsafe, shellQuote_safe hne hsafe,
        List.cons_append]
    rw [hline, List.dropWhile_cons_of_pos (by decide), dropWhile_flags_join hflag,
      shellWords_join]

theorem getLast?_of_quoted (s w : List Char) : (s ++ ' ' :: shellQuote w).getLast? ≠ some '$' := by
  have hne : shellQuote w ≠ [] := by
    unfold shellQuote
    split
    · exact List.cons_ne_nil _ _
    split
    · assumption
    · exact List.cons_ne_nil _ _
  rw [← List.singleton_append, ← List.append_assoc, List.getLast?_append_of_ne_nil _ hne]
  exact getLast?_shellJoin [w]

section

variable {v o rest : List Char} {ws : List (List Char)}

theorem dropWhile_spaced (hv : Unflagged v) (hne : v ≠ []) :
    ('@' :: spaced (v :: ws) rest).dropWhile isRecipeFlag = spaced (v :: ws) rest := by
  cases v with
  | nil => contradiction
  | cons c v =>
      have hline : spaced ((c :: v) :: ws) rest = c :: (v ++ ' ' :: spaced ws rest) := rfl
      rw [List.dropWhile_cons_of_pos (by decide), hline,
        List.dropWhile_cons_of_neg (by simp [hv c rfl])]

/-- Words that need no quotes have neither dollar signs nor line feeds. -/
theorem count_silent {c : Char} (hc : c ∈ ['$', '\n']) (hws : ∀ u ∈ ws, Bareword u) :
    ws.flatten.count c = 0 ∧ ('@' :: spaced ws rest).count c = rest.count c := by
  have hne : c ≠ '@' ∧ c ≠ ' ' ∧ c ∈ shellSpecial := by
    simp only [List.mem_cons, List.not_mem_nil, or_false] at hc
    rcases hc with rfl | rfl
    · decide
    · decide
  have hnone : ws.flatten.count c = 0 := by
    rw [List.count_eq_zero]
    intro hmem
    obtain ⟨u, hu, hcu⟩ := List.mem_flatten.mp hmem
    exact (hws u hu).plain c hcu hne.2.2
  rw [List.count_cons_of_ne hne.1.symm, count_spaced hne.2.1, hnone, Nat.zero_add]
  exact ⟨rfl, rfl⟩

theorem Make.recipeWords_spaced (hv : Unflagged v) (hws : ∀ u ∈ v :: ws, Bareword u)
    (hdollar : '$' ∉ rest) (hline : '\n' ∉ rest) :
    mk.recipeWords ('@' :: spaced (v :: ws) rest) =
      (shellWords rest).map (v :: ws ++ ·) := by
  have hcount : ∀ c ∈ ['$', '\n'], ('@' :: spaced (v :: ws) rest).count c = rest.count c :=
    fun c hc => (count_silent hc hws).2
  have hdollar' : '$' ∉ '@' :: spaced (v :: ws) rest := by
    rw [← List.count_eq_zero, hcount '$' (by decide), List.count_eq_zero]
    exact hdollar
  have hline' : '\n' ∉ '@' :: spaced (v :: ws) rest := by
    rw [← List.count_eq_zero, hcount '\n' (by decide), List.count_eq_zero]
    exact hline
  rw [recipeWords_plain hdollar' hline', dropWhile_spaced hv (hws v (List.mem_cons_self ..)).nonempty,
    shellWords_spaced hws]

/-- What a line runs that has no more dollar signs than the words it should run. -/
theorem Make.words_of_recipeWords {args : List (List Char)} (hv : Unflagged v)
    (hws : ∀ u ∈ v :: ws, Bareword u) (hlast : ∃ s w, rest = s ++ ' ' :: shellQuote w)
    (hcount : rest.count '$' ≤ args.flatten.count '$')
    (h : nothingDefined.recipeWords ('@' :: spaced (v :: ws) rest) = some (v :: ws ++ args)) :
    '$' ∉ rest ∧ '\n' ∉ rest ∧ shellWords rest = some args := by
  have hsilent : ∀ c ∈ ['$', '\n'], (v :: ws).flatten.count c = 0 ∧
      ('@' :: spaced (v :: ws) rest).count c = rest.count c := fun c hc => count_silent hc hws
  have hline : '\n' ∉ rest := by
    rw [← List.count_eq_zero, ← (hsilent '\n' (by decide)).2, List.count_eq_zero]
    intro hmem
    rw [recipeWords, if_pos hmem] at h
    contradiction
  have hdollar : '$' ∉ rest := by
    intro hmem
    have hpos := List.count_pos_iff.mpr hmem
    obtain ⟨a, ha, hdollar⟩ := List.mem_flatten.mp (List.count_pos_iff.mp (Nat.lt_of_lt_of_le hpos hcount))
    refine recipeWords_dollar ?_ ?_ (List.mem_append_right _ ha) hdollar h
    · obtain ⟨s, w, rfl⟩ := hlast
      rw [spaced_append, ← List.cons_append]
      exact getLast?_of_quoted _ _
    · rw [(hsilent '$' (by decide)).2, List.flatten_append, List.count_append,
        (hsilent '$' (by decide)).1, Nat.zero_add]
      exact hcount
  rw [recipeWords_spaced hv hws hdollar hline] at h
  obtain ⟨args', hargs, heq⟩ := Option.map_eq_some_iff.mp h
  rw [List.append_cancel_left heq] at hargs
  exact ⟨hdollar, hline, hargs⟩

/-- A silent line whose words stand there as they are, apart from the last one, which is quoted:
it runs them exactly when the one before the last needs no quotes, and the last one is one line
without a dollar sign. -/
theorem Make.recipeWords_bare_iff {w : List Char} {d : Char} (hv : Unflagged v)
    (hws : ∀ u ∈ v :: ws, Bareword u) (ho : o ≠ []) (hd : isShellSafe d = true) :
    (∀ mk : Make, mk.recipeWords ('@' :: spaced (v :: ws) (o ++ ' ' :: shellQuote (d :: w))) =
        some (v :: ws ++ [o, d :: w])) ↔
      Bareword o ∧ '$' ∉ d :: w ∧ '\n' ∉ d :: w := by
  have hcount : ∀ c ∈ ['$', '\n'], (o ++ ' ' :: shellQuote (d :: w)).count c =
      o.count c + (d :: w).count c := by
    intro c hc
    have hne : c ≠ ' ' ∧ c ≠ '\'' ∧ c ≠ '"' := by
      simp only [List.mem_cons, List.not_mem_nil, or_false] at hc
      rcases hc with rfl | rfl
      · decide
      · decide
    rw [List.count_append, List.count_cons_of_ne hne.1.symm, count_quote hne.2.1 hne.2.2]
  have hdollars := hcount '$' (by decide)
  have hlines := hcount '\n' (by decide)
  constructor
  · intro h
    have hwords := words_of_recipeWords hv hws ⟨o, d :: w, rfl⟩ (by simp [hdollars])
      (h nothingDefined)
    rw [← List.count_eq_zero, ← List.count_eq_zero] at hwords
    refine ⟨(shellWords_bare_iff ho hd).mp hwords.2.2, List.count_eq_zero.mp ?_,
      List.count_eq_zero.mp ?_⟩
    · omega
    · omega
  · intro h mk
    have hnone : ∀ c ∈ shellSpecial, o.count c = 0 := fun c hc =>
      List.count_eq_zero.mpr (fun hmem => h.1.plain c hmem hc)
    have hdollar := hnone '$' (by decide)
    have hline := hnone '\n' (by decide)
    rw [← List.count_eq_zero, ← List.count_eq_zero] at h
    rw [recipeWords_spaced hv hws (List.count_eq_zero.mp (by omega))
      (List.count_eq_zero.mp (by omega)), (shellWords_bare_iff ho hd).mpr h.1]
    rfl

end

end

end Cbuild.Lib
