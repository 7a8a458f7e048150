import Cbuild.Apk.Constraint

/-! # Patterns with one and with two limits

What `pkgMatch` says of a pattern whose parts are known: one operator and one version, or a
lower and an upper limit. The parts need not be valid versions.
-/

namespace Cbuild.Apk

/-! ## Reading the parts back -/

/-- The comparison that an operator asks for. -/
def Op.Holds (op : Op) (o : Ordering) : Prop :=
  match op with
  | .eq => o = .eq
  | .lt => o = .lt
  | .le => o ≠ .gt
  | .gt => o = .gt
  | .ge => o ≠ .lt
  | .fuzzy => False

instance (op : Op) (o : Ordering) : Decidable (op.Holds o) := by
  unfold Op.Holds
  cases op <;> infer_instance

theorem meetsOp_eq_holds {op : Op} (hop : op ≠ .fuzzy) (ver w : Str) (o : Ordering) :
    meetsOp op.text ver w o = decide (op.Holds o) := by
  cases op with
  | fuzzy => exact absurd rfl hop
  | _ => cases o <;> rfl

/-- The operator ends where it seems to: no `=` belongs to it as well, and after `>` or `>=`
there is no upper limit. -/
def Op.Ends (op : Op) (w : Str) : Prop :=
  (op = .lt ∨ op = .gt → w.head? ≠ some '=') ∧ (op = .gt ∨ op = .ge → '<' ∉ w)

theorem splitOp_text {op : Op} {w : Str} (h : op = .lt ∨ op = .gt → w.head? ≠ some '=') :
    splitOp (op.text ++ w) = (op.text, w) := by
  cases w with
  | nil => cases op <;> rfl
  | cons c w =>
      cases op with
      | lt =>
          have hc : c ≠ '=' := fun hc => h (Or.inl rfl) (by rw [hc]; rfl)
          simp [splitOp, Op.text, validOps, hc]
      | gt =>
          have hc : c ≠ '=' := fun hc => h (Or.inr rfl) (by rw [hc]; rfl)
          simp [splitOp, Op.text, validOps, hc]
      | _ => simp [splitOp, Op.text, validOps]

theorem dropWhile_noLt {w : Str} (h : '<' ∉ w) (s : Str) :
    (w ++ s).dropWhile (fun c => c != '<') = s.dropWhile (fun c => c != '<') := by
  apply List.dropWhile_append_of_pos
  intro c hc
  rw [bne_iff_ne]
  rintro rfl
  exact h hc

theorem takeWhile_noLt {w : Str} (h : '<' ∉ w) (s : Str) :
    (w ++ s).takeWhile (fun c => c != '<') = w ++ s.takeWhile (fun c => c != '<') := by
  apply List.takeWhile_append_of_pos
  intro c hc
  rw [bne_iff_ne]
  rintro rfl
  exact h hc

theorem splitUpper_one {op : Op} {w : Str} (h : op = .gt ∨ op = .ge → '<' ∉ w) :
    splitUpper (op.text ++ w) = (op.text ++ w, none) := by
  have hlt : op = .gt ∨ op = .ge → w.dropWhile (fun c => c != '<') = [] := fun hop => by
    have := dropWhile_noLt (h hop) []
    rwa [List.append_nil] at this
  cases op with
  | gt => simp [splitUpper, Op.text, hlt (Or.inl rfl)]
  | ge => simp [splitUpper, Op.text, hlt (Or.inr rfl)]
  | _ => rfl

theorem splitUpper_two {lo hi : Op} {w₁ w₂ : Str} (hlo : lo = .gt ∨ lo = .ge)
    (hhi : hi = .lt ∨ hi = .le) (h₁ : '<' ∉ w₁) (h₂ : hi = .lt → w₂.head? ≠ some '=') :
    splitUpper (lo.text ++ w₁ ++ (hi.text ++ w₂)) = (lo.text ++ w₁, some (hi.text, w₂)) := by
  have hlo₁ : '<' ∉ lo.text ++ w₁ := by
    rw [List.mem_append, not_or]
    refine ⟨?_, h₁⟩
    obtain rfl | rfl := hlo <;> decide
  have hhi₁ : (hi.text ++ w₂).dropWhile (fun c => c != '<') = hi.text ++ w₂ ∧
      (hi.text ++ w₂).takeWhile (fun c => c != '<') = [] := by
    obtain rfl | rfl := hhi <;> simp [Op.text]
  have hsplit : splitOp (hi.text ++ w₂) = (hi.text, w₂) := by
    apply splitOp_text
    rintro (rfl | rfl)
    · exact h₂ rfl
    · obtain h | h := hhi <;> cases h
  obtain ⟨r, hr⟩ : ∃ r, lo.text ++ w₁ ++ (hi.text ++ w₂) = '>' :: r := by
    obtain rfl | rfl := hlo <;> exact ⟨_, rfl⟩
  obtain ⟨r', hr'⟩ : ∃ r', hi.text ++ w₂ = '<' :: r' := by
    obtain rfl | rfl := hhi <;> exact ⟨_, rfl⟩
  unfold splitUpper
  rw [hr]
  simp only
  rw [← hr, dropWhile_noLt hlo₁, takeWhile_noLt hlo₁, hhi₁.1, hhi₁.2, List.append_nil, hr']
  show (lo.text ++ w₁, some (splitOp ('<' :: r'))) = _
  rw [← hr', hsplit]

/-! ## What a pattern says -/

variable (n : Name)

theorem pkgMatch_op (ver : Str) (op : Op) (rest : Str) : pkgMatch n.text ver (n.text ++ (op.text ++ rest)) =
    (let lower := splitUpper (op.text ++ rest)
    let last := splitOp lower.1
    let checkLower : Option Bool := (versionCompare ver last.2).map (meetsOp last.1 ver last.2)
    match lower.2 with
    | none => checkLower
    | some (sep2, limit) =>
        match versionCompare ver limit with
        | none => none
        | some cmpv => if cmpv = .gt ∨ (sep2 = ['<'] ∧ cmpv = .eq) then some false else checkLower) := by
  obtain ⟨c, r, hop, hc⟩ : ∃ c r, op.text = c :: r ∧ isOpChar c = true := by
    cases op <;> exact ⟨_, _, rfl, by decide⟩
  unfold pkgMatch
  rw [hop, List.cons_append, n.takeWhile hc, n.dropWhile hc]
  dsimp only
  refine (if_neg (by simp)).trans ?_
  rfl

theorem pkgMatch_one {op : Op} {w : Str} (h : op.Ends w) (ver : Str) :
    pkgMatch n.text ver (n.text ++ (op.text ++ w)) =
      (versionCompare ver w).map (meetsOp op.text ver w) := by
  rw [pkgMatch_op, splitUpper_one h.2]
  dsimp only
  rw [splitOp_text h.1]

theorem pkgMatch_two {lo hi : Op} {w₁ w₂ : Str} (hlo : lo = .gt ∨ lo = .ge)
    (hhi : hi = .lt ∨ hi = .le) (h₁ : lo.Ends w₁) (h₂ : hi.Ends w₂) (ver : Str) :
    pkgMatch n.text ver (n.text ++ (lo.text ++ (w₁ ++ (hi.text ++ w₂)))) =
      match versionCompare ver w₂ with
      | none => none
      | some o =>
          if hi.Holds o then (versionCompare ver w₁).map (meetsOp lo.text ver w₁)
          else some false := by
  have hsplit := splitUpper_two hlo hhi (h₁.2 hlo) (fun h => h₂.1 (Or.inl h))
  rw [List.append_assoc] at hsplit
  rw [pkgMatch_op, hsplit]
  dsimp only
  rw [splitOp_text h₁.1]
  cases versionCompare ver w₂ with
  | none => rfl
  | some o => obtain rfl | rfl := hhi <;> cases o <;> rfl

theorem Version.ends (op : Op) (w : Version) : op.Ends w.text := by
  refine ⟨fun _ heq => ?_, fun _ => w.not_mem (by decide)⟩
  obtain ⟨c, s, hw, hc⟩ := w.head_digit
  rw [hw] at heq
  cases heq
  cases hc

theorem versionCompare_eq_none {ver w : Str} (h : versionValidate w = false) :
    versionCompare ver w = none := by
  unfold versionCompare
  rw [h, Bool.and_false]
  rfl

/-- `pkgMatch` is the conjunction of the comparisons that a pattern lists. A pattern for another
name is not met, and one with an invalid version raises, unless its upper limit already rules
the version out. -/
theorem pkgMatch_listed (n : Name) (v : Version) :
    (∀ op : Op, op ≠ .fuzzy → ∀ w : Version,
      pkgMatch n.text v.text (n.text ++ (op.text ++ w.text)) = some (decide (op.Holds (v.cmp w)))) ∧
    (∀ lo hi : Op, lo = .gt ∨ lo = .ge → hi = .lt ∨ hi = .le → ∀ w₁ w₂ : Version,
      pkgMatch n.text v.text (n.text ++ (lo.text ++ (w₁.text ++ (hi.text ++ w₂.text)))) =
        some (decide (lo.Holds (v.cmp w₁) ∧ hi.Holds (v.cmp w₂)))) ∧
    (∀ pattern : Str, pattern.takeWhile (fun c => !isOpChar c) ≠ n.text →
      pkgMatch n.text v.text pattern = some false) ∧
    (∀ op : Op, op ≠ .fuzzy → ∀ w : Str, op.Ends w → versionValidate w = false →
      pkgMatch n.text v.text (n.text ++ (op.text ++ w)) = none) ∧
    ∀ lo hi : Op, lo = .gt ∨ lo = .ge → hi = .lt ∨ hi = .le → ∀ w₁ w₂ : Str,
      lo.Ends w₁ → hi.Ends w₂ → versionValidate w₁ = false ∨ versionValidate w₂ = false →
      pkgMatch n.text v.text (n.text ++ (lo.text ++ (w₁ ++ (hi.text ++ w₂)))) =
        if versionValidate w₂ = true ∧ ¬ hi.Holds (versionCompareOp v.text w₂) then some false
        else none := by
  refine ⟨?_, ?_, ?_, ?_, ?_⟩
  · intro op hop w
    rw [pkgMatch_one n (w.ends op), v.compare_eq w, Option.map_some, meetsOp_eq_holds hop]
  · intro lo hi hlo hhi w₁ w₂
    have hne : lo ≠ .fuzzy := by
      rintro rfl
      obtain h | h := hlo <;> cases h
    rw [pkgMatch_two n hlo hhi (w₁.ends lo) (w₂.ends hi), v.compare_eq w₁, v.compare_eq w₂]
    dsimp only
    by_cases hhi' : hi.Holds (v.cmp w₂)
    · rw [if_pos hhi', Option.map_some, meetsOp_eq_holds hne]
      simp [hhi']
    · rw [if_neg hhi']
      simp [hhi']
  · intro pattern hname
    unfold pkgMatch
    dsimp only
    rw [if_pos (Or.inr (Ne.symm hname))]
  · intro op _ w hends hw
    rw [pkgMatch_one n hends, versionCompare_eq_none hw]
    rfl
  · intro lo hi hlo hhi w₁ w₂ h₁ h₂ hbad
    rw [pkgMatch_two n hlo hhi h₁ h₂]
    cases hw₂ : versionValidate w₂ with
    | false =>
        rw [versionCompare_eq_none hw₂]
        simp
    | true =>
        have hcmp : versionCompare v.text w₂ = some (versionCompareOp v.text w₂) :=
          v.compare_eq ⟨w₂, hw₂⟩
        have hw₁ : versionValidate w₁ = false := by simpa [hw₂] using hbad
        rw [hcmp, versionCompare_eq_none hw₁]
        dsimp only
        by_cases hhi' : hi.Holds (versionCompareOp v.text w₂)
        · simp [hhi']
        · simp [hhi']

theorem pkgMatch_between :
    pkgMatch ['n'] "1.5".toList ['n', '>', '=', '1', '<', '2'] = some true := by
  have h := (pkgMatch_listed ⟨['n'], by decide⟩ ⟨"1.5".toList, by decide +kernel⟩).2.1 .ge .lt
    (Or.inr rfl) (Or.inl rfl) ⟨['1'], by decide +kernel⟩ ⟨['2'], by decide +kernel⟩
  exact h.trans (congrArg some (by decide +kernel))

theorem upperRulesOut_not_raises : ¬ ∀ (n : Name) (v : Version) (lo hi : Op) (w₁ w₂ : Str),
    lo = .gt ∨ lo = .ge → hi = .lt ∨ hi = .le → lo.Ends w₁ → hi.Ends w₂ →
    versionValidate w₁ = false →
    pkgMatch n.text v.text (n.text ++ (lo.text ++ (w₁ ++ (hi.text ++ w₂)))) = none := by
  intro h
  have := h ⟨['n'], by decide⟩ ⟨['2'], by decide +kernel⟩ .gt .lt ['x'] ['1'] (Or.inl rfl)
    (Or.inl rfl) ⟨fun _ => by decide, fun _ => by decide⟩ ⟨fun _ => by decide, fun _ => by decide⟩
    (by decide +kernel)
  revert this
  decide +kernel

end Cbuild.Apk
