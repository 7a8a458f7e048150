import Cbuild.Bulk.Order

/-! # The implicit dependency on `base-cbuild`

Every request outside the closure of `base-cbuild` is to be sorted after it. The edge is
left out for what is in `cbvisit`, and the walks of earlier requests put their own
dependencies there, requests among them.
-/

namespace Cbuild.Bulk

open Lib

variable {o : Opts} {w : World} {R : Finset Str} {p q : Str}

/-- What the parse loop leaves in `templates`. -/
def recorded (o : Opts) (w : World) (pkgs : List Str) : List (Str × Tmpl) :=
  match w.depTemplate baseCbuild with
  | .error _ => []
  | .ok base => (parseAll o w (resolve o w pkgs) base).templates

/-- A request that has been recorded and is to come after `base-cbuild`. -/
structure NeedsBase (o : Opts) (w : World) (pkgs : List Str) (p : Str) : Prop where
  recorded : ∃ t, (p, t) ∈ recorded o w pkgs
  ne : p ≠ baseCbuild
  outside : ¬ InBase w p

/-- `base-cbuild` is a predecessor of all of them, and is listed before them. Entries that are
printed with a version are not names. -/
structure BaseFirst (o : Opts) (w : World) (pkgs : List Str) : Prop where
  pred : ∀ p, NeedsBase o w pkgs p → (orderGraph o w pkgs).Pred p baseCbuild
  listed : o.doBuild ≠ .print true → ∀ l, StaticOrder (orderGraph o w pkgs) l →
    baseCbuild ∈ listOf o w pkgs l → ∀ p ∈ listOf o w pkgs l, NeedsBase o w pkgs p →
    Precedes baseCbuild p (listOf o w pkgs l)

/-! ## The handled requests -/

/-- The loop may skip the rest of the requests or be left: the sorter and the record are those of
the requests handled before. -/
theorem exists_parsed {base : Tmpl} (hbase : w.depTemplate baseCbuild = .ok base)
    (hB : ¬ BaseRaises o w) (pkgs : List Str) :
    ∃ ps rest s, (resolve o w pkgs).sorted = ps ++ rest ∧ Parsed o w (requested o w pkgs) ps s ∧
      (parseAll o w (resolve o w pkgs) base).templates = s.templates ∧
      (parseAll o w (resolve o w pkgs) base).walk.depg = s.walk.depg := by
  by_cases hesc : Escapes o w (resolve o w pkgs)
  · obtain ⟨ps, p, rest, hsplit, hlive, htold, hraise⟩ := exists_first_raises hB hesc
    obtain ⟨s, _, failed, _, hparsed, _, _, hleft⟩ := parseAll_left hbase hsplit hlive htold hraise
    have hall : parseAll o w (resolve o w pkgs) base = s.escape failed := by
      rw [parseAll, hsplit, hleft]
    exact ⟨ps, p :: rest, s, hsplit, hparsed, by rw [hall]; rfl, by rw [hall]; rfl⟩
  · by_cases hgo : o.bulkcont = true ∨ NoFailure o w (resolve o w pkgs)
    · exact ⟨_, [], _, (List.append_nil _).symm, parsed_all hbase hesc hgo, rfl, rfl⟩
    · obtain ⟨hcont, hno⟩ := not_or.mp hgo
      obtain ⟨hstop, -⟩ := parseAll_stop (Bool.eq_false_iff.mpr hcont) hbase hesc hno
      cases hstop with
      | before _ hb =>
          exact ⟨[], _, _, rfl, parsed_nil hbase hB, by rw [hb, parseStart_templates], by rw [hb]⟩
      | first ps p rest hsplit _ _ _ s' _ _ hparsed hb =>
          exact ⟨ps ++ [p], rest, s', by simp [hsplit], hparsed, by rw [hb], by rw [hb]⟩

/-- The sorter and the record of any run that walks `base-cbuild`. -/
theorem exists_handled (hraw : o.doRaw = false) {base : Tmpl}
    (hbase : w.depTemplate baseCbuild = .ok base) (hB : ¬ BaseRaises o w) (pkgs : List Str) :
    ∃ ps : List Str, (∀ q ∈ ps, q ∈ requested o w pkgs) ∧
      (∀ q t, (q, t) ∈ recorded o w pkgs ↔ q ∈ ps ∧ Accepted o w (requested o w pkgs) q ∧
        w.bulkTemplate q = .ok t) ∧
      ∀ a, a ∈ (orderGraph o w pkgs).adds ↔ EnteredByBase w a ∨
        ∃ q ∈ ps, Walkable w q ∧ EnteredBy w (requested o w pkgs) q a := by
  obtain ⟨ps, rest, s, hsplit, hparsed, htemplates, hdepg⟩ := exists_parsed hbase hB pkgs
  refine ⟨ps, fun q hq => ?_, fun q t => ?_, fun a => ?_⟩
  · apply (mem_sorted _ q).mp
    rw [hsplit]
    exact List.mem_append_left rest hq
  · unfold recorded
    rw [hbase]
    dsimp only
    rw [htemplates]
    exact hparsed.templates q t
  · unfold orderGraph
    rw [hbase]
    dsimp only
    rw [hdepg]
    exact (hparsed.visited hraw).adds a

theorem NeedsBase.parses {pkgs : List Str} (h : NeedsBase o w pkgs p) :
    ∃ base, w.depTemplate baseCbuild = .ok base := by
  obtain ⟨t, ht⟩ := h.recorded
  cases hbase : w.depTemplate baseCbuild with
  | ok base => exact ⟨base, rfl⟩
  | error e =>
      unfold Bulk.recorded at ht
      rw [hbase] at ht
      exact absurd ht List.not_mem_nil

theorem NeedsBase.told {pkgs : List Str} (h : NeedsBase o w pkgs p) {base : Tmpl}
    (hbase : w.depTemplate baseCbuild = .ok base) : ¬ BaseRaises o w := by
  intro hB
  obtain ⟨t, ht⟩ := h.recorded
  have hout := (parseStart_escaped_iff (r := resolve o w pkgs) hbase).mpr hB
  unfold Bulk.recorded at ht
  rw [hbase] at ht
  dsimp only at ht
  rw [parseAll, foldl_parseStep_left _ _ hout, parseStart_templates] at ht
  exact absurd ht List.not_mem_nil

/-- The request asks for `base-cbuild` itself, or no earlier walk has met it as a dependency. -/
def EdgeMade (w : World) (R : Finset Str) (p : Str) : Prop :=
  BulkDep w p baseCbuild ∨ ∀ q ∈ R, q < p → Walkable w q → ¬ Seen w R q p

theorem pred_base_iff (hraw : o.doRaw = false) {pkgs : List Str} (h : NeedsBase o w pkgs p) :
    (orderGraph o w pkgs).Pred p baseCbuild ↔ EdgeMade w (requested o w pkgs) p := by
  obtain ⟨base, hbase⟩ := h.parses
  obtain ⟨ps, hmem, hrecorded, hadds⟩ := exists_handled hraw hbase (h.told hbase) pkgs
  obtain ⟨t, ht⟩ := h.recorded
  obtain ⟨hp, hacc, -⟩ := (hrecorded p t).mp ht
  constructor
  · intro hpred
    obtain ⟨ds, hds, hd⟩ := hpred
    rcases (hadds _).mp hds with hB | ⟨q, hq, hwalk, hq'⟩
    · rcases hB.1 with heq | hin
      · exact absurd heq h.ne
      · exact absurd hin h.outside
    · rcases enteredBy_iff.mp ⟨ds, hq', hd⟩ with ⟨rfl, hdep⟩ | ⟨rfl, -, hout⟩ | ⟨hchain, -⟩
      · exact Or.inl hdep
      · exact Or.inr hout.2.2
      · exact absurd (hmem p hp) hchain.notMem
  · intro hedge
    have hentered : ∃ ds, EnteredBy w (requested o w pkgs) p (p, ds) ∧ baseCbuild ∈ ds := by
      apply enteredBy_iff.mpr
      rcases hedge with hdep | hunseen
      · exact Or.inl ⟨rfl, hdep⟩
      · exact Or.inr (Or.inl ⟨rfl, rfl, h.ne, h.outside, hunseen⟩)
    obtain ⟨ds, hds, hd⟩ := hentered
    exact ⟨ds, (hadds _).mpr (Or.inr ⟨p, hp, hacc.1, hds⟩), hd⟩

/-- `base-cbuild` comes first exactly when each request that needs it asks for it, or has not been
met as a dependency by an earlier walk. -/
theorem baseFirst_iff (hraw : o.doRaw = false) (pkgs : List Str) :
    BaseFirst o w pkgs ↔ ∀ p, NeedsBase o w pkgs p → EdgeMade w (requested o w pkgs) p := by
  constructor
  · intro h p hp
    exact (pred_base_iff hraw hp).mp (h.pred p hp)
  · intro h
    have hpred : ∀ p, NeedsBase o w pkgs p → (orderGraph o w pkgs).Pred p baseCbuild :=
      fun p hp => (pred_base_iff hraw hp).mpr (h p hp)
    apply BaseFirst.mk hpred
    intro hv l hl hbase p hmem hp
    apply (listOf_precedes_iff hraw hv hbase hmem).mpr
    exact hl.edges p baseCbuild (hpred p hp)

theorem baseFirst_noDeps : BaseFirst continuing noDeps [baseCbuild, "main/a".toList] := by
  apply (baseFirst_iff rfl _).mpr
  intro p _
  apply Or.inr
  intro q _ _ _ hseen
  have hnone : ∀ d, ¬ BulkDep noDeps q d := by
    intro d hd
    obtain ⟨t, ht, hmem⟩ := hd
    cases ht
    exact absurd hmem List.not_mem_nil
  rcases hseen with hdep | ⟨n, ⟨d, hdep, -⟩, -⟩
  · exact hnone p hdep
  · exact hnone d hdep

def withBase : List Str :=
  ["main/a".toList, "main/b".toList, baseCbuild, "main/c".toList]

/-- `main/a` needs `main/b`, which is requested too and may come before `base-cbuild`. -/
theorem threeInARow_not_baseFirst : ¬ BaseFirst continuing threeInARow withBase := by
  have hsorted : (resolve continuing threeInARow withBase).sorted = withBase :=
    sorted_eq withBase (by decide) (by decide)
  have hgraph : orderGraph continuing threeInARow withBase =
      ⟨[(baseCbuild, []), ("main/a".toList, [baseCbuild]), ("main/a".toList, ["main/b".toList]),
        ("main/b".toList, ["main/c".toList]), (baseCbuild, []), ("main/c".toList, [])]⟩ := by
    simp only [orderGraph, parseAll, hsorted]
    decide
  have hlist : listOf continuing threeInARow withBase
      ["main/c".toList, "main/b".toList, baseCbuild, "main/a".toList] =
      ["main/c".toList, "main/b".toList, baseCbuild, "main/a".toList] := by
    simp only [listOf, bulkpkg, parseAll, hsorted]
    decide
  have hneeds : NeedsBase continuing threeInARow withBase "main/b".toList := by
    refine ⟨⟨⟨some ["main/c".toList], false, none, none⟩, ?_⟩, by decide, ?_⟩
    · simp only [recorded, parseAll, hsorted]
      decide
    · intro hin
      obtain ⟨d, ⟨l, hl, hd⟩, -⟩ := hin
      cases hl
      exact absurd hd List.not_mem_nil
  intro h
  have hfirst := h.listed (by decide) ["main/c".toList, "main/b".toList, baseCbuild, "main/a".toList]
    (by rw [hgraph]; decide) (by rw [hlist]; decide) "main/b".toList (by rw [hlist]; decide) hneeds
  rw [hlist] at hfirst
  exact absurd hfirst (by decide)

end Cbuild.Bulk
