import Cbuild.Update.VerOrder
import Cbuild.Lib.Compare

/-! # Versions and directories that are sorted

The set of the versions that are fetched, and that of the directories of a listing, are enumerated
in no particular order; they are sorted by the comparison of versions.
-/

namespace Cbuild.Update

open Lib

/-- `vers.sort(key=_ver_conv)`, which asks the comparison whether one key is less than another. -/
def sortVersions (vers : List Str) : List Str :=
  vers.mergeSort fun v w => !decide (vcmp w v < 0)

/-- `v.rstrip("/")` -/
def rstrip (v : Str) : Str := v.rdropWhile fun c => decide (c = '/')

/-- The end of `expand_source`: the entries of the listing are sorted in reverse, and what comes
before the url is added to it. -/
def expandReqs (urlpfx urlsfx url : Str) (reqs : List Str) : List Str :=
  let reqs := reqs.mergeSort fun v w => !decide (vcmp (rstrip v) (rstrip w) < 0)
  url :: (reqs.map fun v => urlpfx ++ v ++ urlsfx).takeWhile fun nurl => decide (nurl ≠ url)

/-- What an entry of the listing ends with: a quote of its link, or a slash. -/
def delimiters : List Char := ['"', '\'', '/']

/-- An entry of the listing, as the pattern of `expand_source` matches it. -/
def IsEntry (v : Str) : Prop :=
  ∃ x q, v = x ++ [q] ∧ q ∈ delimiters ∧ ∀ c, x.getLast? = some c → c ∉ delimiters

/-- The comparison is a total preorder on the versions. -/
structure Preordered (S : Set Str) : Prop where
  opposite : ∀ a ∈ S, ∀ b ∈ S, (vcmp a b).sign = -(vcmp b a).sign
  trans : ∀ a ∈ S, ∀ b ∈ S, ∀ c ∈ S, vcmp a b ≤ 0 → vcmp b c ≤ 0 → vcmp a c ≤ 0
  equal_refl : ∀ a ∈ S, vcmp a a = 0
  equal_trans : ∀ a ∈ S, ∀ b ∈ S, ∀ c ∈ S, vcmp a b = 0 → vcmp b c = 0 → vcmp a c = 0
  compatible : ∀ a ∈ S, ∀ b ∈ S, ∀ c ∈ S, vcmp a b = 0 → (vcmp a c).sign = (vcmp b c).sign

/-- A set of versions is sorted in one way, however it is enumerated. -/
def SortsAlike (S : Set Str) : Prop :=
  ∀ vers vers' : List Str, vers.Nodup → vers.Perm vers' → (∀ v ∈ vers, v ∈ S) →
    sortVersions vers = sortVersions vers'

/-- A listing is cut in one way. -/
def ExpandsAlike (S : Set Str) : Prop :=
  ∀ (urlpfx urlsfx url : Str) (reqs reqs' : List Str), reqs.Nodup → reqs.Perm reqs' →
    (∀ v ∈ reqs, IsEntry v ∧ rstrip v ∈ S) →
    expandReqs urlpfx urlsfx url reqs = expandReqs urlpfx urlsfx url reqs'

variable {S : Set Str} {a b c v w : Str}

/-! ## The preorder -/

theorem verKey_eq (h : runs a = runs b) : verKey a = verKey b := by
  unfold verKey
  rw [h]

theorem runs_eq_of_verKey (h : verKey a = verKey b) : runs a = runs b := by
  have hinj : Function.Injective rank := fun c c' heq => by
    by_contra hne
    exact rank_ne hne heq
  funext n
  have hn : toLex ((runs a n).1.map rank, (runs a n).2) =
      toLex ((runs b n).1.map rank, (runs b n).2) := congrFun h n
  obtain ⟨hnd, hd⟩ := Prod.mk.inj (toLex.injective hn)
  exact Prod.ext (hinj.list_map hnd) hd

theorem vcmp_neg_iff (hclash : ¬ Clash a b) : vcmp a b < 0 ↔ verKey a < verKey b := by
  rcases vcmp_key hclash with ⟨hruns, hzero⟩ | ⟨hlt, hneg⟩ | ⟨hlt, hpos⟩
  · rw [hzero, verKey_eq hruns]
    exact iff_of_false (lt_irrefl 0) (lt_irrefl _)
  · exact iff_of_true hneg hlt
  · exact iff_of_false (not_lt.mpr hpos.le) (lt_asymm hlt)

theorem vcmp_pos_iff (hclash : ¬ Clash a b) : 0 < vcmp a b ↔ verKey b < verKey a := by
  rcases vcmp_key hclash with ⟨hruns, hzero⟩ | ⟨hlt, hneg⟩ | ⟨hlt, hpos⟩
  · rw [hzero, verKey_eq hruns]
    exact iff_of_false (lt_irrefl 0) (lt_irrefl _)
  · exact iff_of_false (not_lt.mpr hneg.le) (lt_asymm hlt)
  · exact iff_of_true hpos hlt

theorem vcmp_le_iff (hclash : ¬ Clash a b) : vcmp a b ≤ 0 ↔ verKey a ≤ verKey b := by
  rw [← not_lt, vcmp_pos_iff hclash]
  exact not_lt

theorem vcmp_zero_iff (hclash : ¬ Clash a b) : vcmp a b = 0 ↔ verKey a = verKey b := by
  have hneg := vcmp_neg_iff hclash
  have hpos := vcmp_pos_iff hclash
  constructor
  · intro h
    rw [h] at hneg hpos
    exact le_antisymm (not_lt.mp fun hlt => absurd (hpos.mpr hlt) (lt_irrefl 0))
      (not_lt.mp fun hlt => absurd (hneg.mpr hlt) (lt_irrefl 0))
  · intro h
    rw [h] at hneg hpos
    have hnot : ¬ vcmp a b < 0 := fun hlt => lt_irrefl _ (hneg.mp hlt)
    have hnot' : ¬ 0 < vcmp a b := fun hlt => lt_irrefl _ (hpos.mp hlt)
    omega

theorem sign_eq {x y : Int} (hneg : x < 0 ↔ y < 0) (hpos : 0 < x ↔ 0 < y) : x.sign = y.sign := by
  rcases lt_trichotomy x 0 with hlt | heq | hgt
  · rw [Int.sign_eq_neg_one_of_neg hlt, Int.sign_eq_neg_one_of_neg (hneg.mp hlt)]
  · have hy : y = 0 := by omega
    rw [heq, hy]
  · rw [Int.sign_eq_one_of_pos hgt, Int.sign_eq_one_of_pos (hpos.mp hgt)]

theorem preordered_iff (S : Set Str) : Preordered S ↔ ∀ a ∈ S, ∀ b ∈ S, ¬ Clash a b := by
  constructor
  · intro h a ha b hb hclash
    obtain ⟨hab, hba⟩ := vcmp_of_clash hclash
    have hopposite := h.opposite a ha b hb
    rw [hab, hba] at hopposite
    exact absurd hopposite (by decide)
  · intro h
    constructor
    case opposite =>
      intro a ha b hb
      rw [← Int.sign_neg]
      apply sign_eq
      · rw [Int.neg_neg_iff_pos, vcmp_neg_iff (h a ha b hb), vcmp_pos_iff (h b hb a ha)]
      · rw [Int.neg_pos, vcmp_pos_iff (h a ha b hb), vcmp_neg_iff (h b hb a ha)]
    case trans =>
      intro a ha b hb c hc hab hbc
      rw [vcmp_le_iff (h a ha b hb)] at hab
      rw [vcmp_le_iff (h b hb c hc)] at hbc
      rw [vcmp_le_iff (h a ha c hc)]
      exact le_trans hab hbc
    case equal_refl =>
      intro a ha
      rw [vcmp_zero_iff (h a ha a ha)]
    case equal_trans =>
      intro a ha b hb c hc hab hbc
      rw [vcmp_zero_iff (h a ha b hb)] at hab
      rw [vcmp_zero_iff (h b hb c hc)] at hbc
      rw [vcmp_zero_iff (h a ha c hc)]
      exact hab.trans hbc
    case compatible =>
      intro a ha b hb c hc hab
      rw [vcmp_zero_iff (h a ha b hb)] at hab
      apply sign_eq
      · rw [vcmp_neg_iff (h a ha c hc), vcmp_neg_iff (h b hb c hc), hab]
      · rw [vcmp_pos_iff (h a ha c hc), vcmp_pos_iff (h b hb c hc), hab]

/-! ## Sorting -/

theorem sortsAlike (h : ∀ a ∈ S, ∀ b ∈ S, ¬ Clash a b)
    (hruns : ∀ a ∈ S, ∀ b ∈ S, a ≠ b → runs a ≠ runs b) : SortsAlike S := by
  intro vers vers' hnodup hperm hvers
  apply mergeSort_eq_of_perm verKey _ _ hperm
  · intro v hv w hw
    rw [← decide_not, decide_eq_decide, vcmp_neg_iff (h w (hvers w hw) v (hvers v hv))]
    exact not_lt
  · intro v hv w hw heq
    by_contra hne
    exact hruns v (hvers v hv) w (hvers w hw) hne (runs_eq_of_verKey heq)

/-- Entries are told apart by what their versions are compared by. -/
theorem eq_of_rstrip (hv : IsEntry v) (hw : IsEntry w) (h : rstrip v = rstrip w) : v = w := by
  have hkeeps : ∀ x : Str, (∀ c, x.getLast? = some c → c ∉ delimiters) → rstrip x = x := by
    intro x hx
    unfold rstrip
    rw [List.rdropWhile_eq_self_iff]
    intro hne hslash
    apply hx _ (List.getLast?_eq_some_getLast hne)
    rw [of_decide_eq_true hslash]
    decide
  have hentry : ∀ x q, (∀ c, x.getLast? = some c → c ∉ delimiters) →
      rstrip (x ++ [q]) = if q = '/' then x else x ++ [q] := by
    intro x q hx
    have hconcat := List.rdropWhile_concat (fun c => decide (c = '/')) x q
    by_cases hq : q = '/'
    · rw [if_pos hq]
      rw [if_pos (decide_eq_true hq)] at hconcat
      exact hconcat.trans (hkeeps x hx)
    · rw [if_neg hq]
      rw [if_neg (fun h => hq (of_decide_eq_true h))] at hconcat
      exact hconcat
  obtain ⟨x, q, rfl, hq, hx⟩ := hv
  obtain ⟨y, r, rfl, hr, hy⟩ := hw
  rw [hentry x q hx, hentry y r hy] at h
  by_cases hslash : q = '/'
  · rw [if_pos hslash] at h
    by_cases hslash' : r = '/'
    · rw [if_pos hslash'] at h
      rw [h, hslash, hslash']
    · rw [if_neg hslash'] at h
      rw [h] at hx
      exact absurd hr (hx r List.getLast?_concat)
  · rw [if_neg hslash] at h
    by_cases hslash' : r = '/'
    · rw [if_pos hslash'] at h
      rw [← h] at hy
      exact absurd hq (hy q List.getLast?_concat)
    · rw [if_neg hslash'] at h
      exact h

theorem expandsAlike (h : ∀ a ∈ S, ∀ b ∈ S, ¬ Clash a b)
    (hruns : ∀ a ∈ S, ∀ b ∈ S, a ≠ b → runs a ≠ runs b) : ExpandsAlike S := by
  intro urlpfx urlsfx url reqs reqs' hnodup hperm hreqs
  unfold expandReqs
  dsimp only
  rw [mergeSort_eq_of_perm (fun v => OrderDual.toDual (verKey (rstrip v))) _ _ hperm]
  · intro v hv w hw
    rw [← decide_not, decide_eq_decide, vcmp_neg_iff (h _ (hreqs v hv).2 _ (hreqs w hw).2),
      OrderDual.toDual_le_toDual]
    exact not_lt
  · intro v hv w hw heq
    have hkeys : verKey (rstrip v) = verKey (rstrip w) := OrderDual.toDual.injective heq
    by_contra hne
    apply hruns _ (hreqs v hv).2 _ (hreqs w hw).2 _ (runs_eq_of_verKey hkeys)
    intro hstrip
    exact hne (eq_of_rstrip (hreqs v hv).1 (hreqs w hw).1 hstrip)

/-- Versions with the same runs stay as they are enumerated. -/
theorem runs_ne_of_sortsAlike (hpre : Preordered S) (h : SortsAlike S) (ha : a ∈ S) (hb : b ∈ S)
    (hne : a ≠ b) : runs a ≠ runs b := by
  intro hruns
  have hclash := (preordered_iff S).mp hpre
  have hab : vcmp a b = 0 := (vcmp_zero_iff (hclash a ha b hb)).mpr (verKey_eq hruns)
  have hba : vcmp b a = 0 := (vcmp_zero_iff (hclash b hb a ha)).mpr (verKey_eq hruns.symm)
  have hnodup : [a, b].Nodup := by
    rw [List.nodup_cons, List.mem_singleton]
    exact ⟨hne, List.nodup_singleton b⟩
  have hmem : ∀ v ∈ [a, b], v ∈ S := by
    intro v hv
    rcases List.mem_cons.mp hv with rfl | hv
    · exact ha
    · exact List.mem_singleton.mp hv ▸ hb
  have heq := h [a, b] [b, a] hnodup (List.Perm.swap b a []) hmem
  unfold sortVersions at heq
  rw [mergeSort_pair (by rw [hba]; rfl), mergeSort_pair (by rw [hab]; rfl)] at heq
  exact hne (List.cons.inj heq).1

/-- The comparison is sound on the versions that do not clash and have runs of their own. -/
theorem ver_conv_sound_iff (S : Set Str) :
    (Preordered S ∧ SortsAlike S ∧ ExpandsAlike S) ↔
      ∀ a ∈ S, ∀ b ∈ S, ¬ Clash a b ∧ (a ≠ b → runs a ≠ runs b) := by
  constructor
  · intro h a ha b hb
    exact ⟨(preordered_iff S).mp h.1 a ha b hb, runs_ne_of_sortsAlike h.1 h.2.1 ha hb⟩
  · intro h
    have hclash : ∀ a ∈ S, ∀ b ∈ S, ¬ Clash a b := fun a ha b hb => (h a ha b hb).1
    have hruns : ∀ a ∈ S, ∀ b ∈ S, a ≠ b → runs a ≠ runs b := fun a ha b hb => (h a ha b hb).2
    exact ⟨(preordered_iff S).mpr hclash, sortsAlike hclash hruns, expandsAlike hclash hruns⟩

/-- A release is less than its candidate, and the candidate less than the release. -/
theorem releaseCandidate_not_preordered :
    vcmp "1.0".toList "1.0~rc1".toList = -1 ∧ vcmp "1.0~rc1".toList "1.0".toList = -1 ∧
      ¬ Preordered {v | ∀ c ∈ v, c.toNat < 128} := by
  have hclash : Clash "1.0".toList "1.0~rc1".toList := by
    refine ⟨2, fun m hm => ?_, by decide, rfl⟩
    have hm : m = 0 ∨ m = 1 := by omega
    rcases hm with rfl | rfl
    · rfl
    · rfl
  obtain ⟨hlt, hlt'⟩ := vcmp_of_clash hclash
  refine ⟨hlt, hlt', fun hpre => ?_⟩
  have hascii : ∀ c ∈ "1.0".toList, c.toNat < 128 := by simp
  have hascii' : ∀ c ∈ "1.0~rc1".toList, c.toNat < 128 := by simp
  have hopposite := hpre.opposite _ hascii _ hascii'
  rw [hlt, hlt'] at hopposite
  exact absurd hopposite (by decide)

end Cbuild.Update
