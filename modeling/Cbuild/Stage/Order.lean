import Cbuild.Stage.Rows

/-! # The order in which `apk` lists

`check_stage` puts what `apk` lists into maps in which the last writer wins. Two answers that list
the same in another order give the same verdict as long as neither the packages that are compared
nor the rows for one of them give two versions to a name that is dropped and asked for.
-/

namespace Cbuild.Stage

open Lib

/-! ## Added and dropped -/

/-- What one side of a package notes in a map. -/
def noted (side : Pair → Package → List Str) (pair : Pair) (n : Str) (p : Package) :
    Option (Option Str) :=
  (noteProviders [] (side pair p)).get n

theorem noteProviders_get_append (prs prs' : List Str) (n : Str) :
    (noteProviders [] (prs ++ prs')).get n =
      ((noteProviders [] prs').get n).or ((noteProviders [] prs).get n) := by
  rw [noteProviders_append, noteProviders_get, noteProviders_get [] prs', Dict.get_nil,
    Option.or_none]

/-- The last writer wins. -/
theorem noteProviders_flatMap_get {α : Type} (l : List α) (f : α → List Str) (n : Str) :
    (noteProviders [] (l.flatMap f)).get n =
      l.reverse.findSome? fun a => (noteProviders [] (f a)).get n := by
  induction l using List.reverseRecOn with
  | nil => rfl
  | append_singleton l a ih =>
      rw [List.flatMap_append, noteProviders_get_append, ih, List.reverse_append]
      show ((noteProviders [] ([a].flatMap f)).get n).or _ = _
      rw [List.flatMap_singleton, List.reverse_singleton, List.singleton_append,
        List.findSome?_cons]
      cases (noteProviders [] (f a)).get n <;> rfl

/-- The packages of the last pair that says something about the name say the same. -/
def OneVersion (side : Pair → Package → List Str) (srs : List Pair) (provm : ByRepo) (n : Str) :
    Prop :=
  ∀ before pair after, srs = before ++ pair :: after →
    (∀ pair' ∈ after, ∀ p ∈ provm, noted side pair' n p = none) →
    ∀ p ∈ provm, ∀ p' ∈ provm, ∀ t t', noted side pair n p = some t → noted side pair n p' = some t' →
      t = t'

section

variable {side : Pair → Package → List Str} {provm provm' : ByRepo} {srs : List Pair} {pair : Pair}
  {n : Str}

/-- For every package of the first map there is one in the second that says the same of the name. -/
def NotedIn (side : Pair → Package → List Str) (srs : List Pair) (n : Str) (provm provm' : ByRepo) :
    Prop :=
  ∀ p ∈ provm, ∃ p' ∈ provm', ∀ pair ∈ srs, noted side pair n p' = noted side pair n p

def lastNoted (side : Pair → Package → List Str) (provm : ByRepo) (n : Str) (pair : Pair) :
    Option (Option Str) :=
  provm.reverse.findSome? (noted side pair n)

theorem lastNoted_eq_none : lastNoted side provm n pair = none ↔
    ∀ p ∈ provm, noted side pair n p = none := by
  unfold lastNoted
  rw [List.findSome?_eq_none_iff]
  simp only [List.mem_reverse]

theorem lastNoted_mem {t : Option Str} (h : lastNoted side provm n pair = some t) :
    ∃ p ∈ provm, noted side pair n p = some t := by
  obtain ⟨p, hp, ht⟩ := List.exists_of_findSome?_eq_some h
  exact ⟨p, List.mem_reverse.mp hp, ht⟩

theorem NotedIn.lastNoted_none (h : NotedIn side srs n provm' provm) (hpair : pair ∈ srs)
    (hnone : lastNoted side provm n pair = none) : lastNoted side provm' n pair = none := by
  rw [lastNoted_eq_none] at hnone ⊢
  intro p' hp'
  obtain ⟨p, hp, heq⟩ := h p' hp'
  rw [← heq pair hpair]
  exact hnone p hp

theorem lastNoted_eq (h : NotedIn side srs n provm provm') (h' : NotedIn side srs n provm' provm)
    (hpair : pair ∈ srs) (hone : ∀ p ∈ provm, ∀ p' ∈ provm, ∀ t t', noted side pair n p = some t →
      noted side pair n p' = some t' → t = t') :
    lastNoted side provm n pair = lastNoted side provm' n pair := by
  cases hlast : lastNoted side provm n pair with
  | none => exact (h'.lastNoted_none hpair hlast).symm
  | some t =>
      cases hlast' : lastNoted side provm' n pair with
      | none =>
          rw [h.lastNoted_none hpair hlast'] at hlast
          cases hlast
      | some t' =>
          obtain ⟨p, hp, ht⟩ := lastNoted_mem hlast
          obtain ⟨p₁, hp₁, ht'⟩ := lastNoted_mem hlast'
          obtain ⟨p', hp', heq⟩ := h' p₁ hp₁
          rw [hone p hp p' hp' t t' ht ((heq pair hpair).trans ht')]

/-- What is noted last of a name with one version does not depend on the order of the packages. -/
theorem findSome_lastNoted_eq (h : NotedIn side srs n provm provm')
    (h' : NotedIn side srs n provm' provm) (hone : OneVersion side srs provm n) :
    srs.reverse.findSome? (lastNoted side provm n) =
      srs.reverse.findSome? (lastNoted side provm' n) := by
  have hback : ∀ before after, srs = before ++ after →
      (∀ pair ∈ after, lastNoted side provm n pair = none) →
      before.reverse.findSome? (lastNoted side provm n) =
        before.reverse.findSome? (lastNoted side provm' n) := by
    intro before
    induction before using List.reverseRecOn with
    | nil => exact fun _ _ _ => rfl
    | append_singleton before pair ih =>
        intro after hsrs hafter
        rw [List.append_assoc] at hsrs
        have heq : lastNoted side provm n pair = lastNoted side provm' n pair :=
          lastNoted_eq h h' (by rw [hsrs]; simp) (hone before pair after hsrs fun pair' hp' =>
            lastNoted_eq_none.mp (hafter pair' hp'))
        rw [List.reverse_append, List.reverse_singleton, List.singleton_append,
          List.findSome?_cons, List.findSome?_cons, ← heq]
        cases hlast : lastNoted side provm n pair with
        | some t => rfl
        | none => exact ih (pair :: after) hsrs (List.forall_mem_cons.mpr ⟨hlast, hafter⟩)
  exact hback srs [] (List.append_nil srs).symm fun _ h => absurd h List.not_mem_nil

theorem flatMap_side_get (srs : List Pair) (n : Str) :
    (noteProviders [] (srs.flatMap fun pair => provm.flatMap (side pair))).get n =
      srs.reverse.findSome? (lastNoted side provm n) := by
  rw [noteProviders_flatMap_get]
  congr 1
  funext pair
  rw [noteProviders_flatMap_get]
  rfl

end

/-! ## The maps -/

section

variable {r : Repos} {q q' : ApkAnswers}

/-- A package that is replaced has provided the name. -/
def Dropped (r : Repos) (q : ApkAnswers) (n : Str) : Prop :=
  ∃ pair ∈ r.srs, ∃ p ∈ r.provm q, ∃ pr ∈ oldProviders pair p, (parseProvider pr).1 = n

/-- Two rows have a package staged and not staged, and the second provides the name. -/
def MayDrop (r : Repos) (q : ApkAnswers) (n : Str) : Prop :=
  ∃ pair ∈ r.srs, ∃ row ∈ q.providers r.srs, ∃ row' ∈ q.providers r.srs, row.name = row'.name ∧
    pair.1 ∈ row.repositories ∧ pair.2 ∈ row'.repositories ∧ ¬ row.values.Perm row'.values ∧
    ∃ pr ∈ row'.values, (parseProvider pr).1 = n

/-- What is asked for the names that are dropped. -/
def asked (q : ApkAnswers) (names : List Str) : List Str :=
  if names ≠ [] then (q.rdepends names).dedup else []

/-- To ask for the name too makes no difference, and no dependency that is looked at is on it. -/
structure NeverAsked (r : Repos) (q : ApkAnswers) (n : Str) : Prop where
  apart : ∀ names, (∀ m ∈ names, MayDrop r q m) → n ∉ names →
    ∀ d, d ∈ asked q (n :: names) ↔ d ∈ asked q names
  unused : ∀ d ∈ revdeps q (r.changes q).2, ∀ deps, r.dependsOf q d = some deps →
    ∀ ad ∈ deps, (parseDep ad).1 ≠ n

/-- The name may be dropped, and it is asked for. -/
def InQuestion (r : Repos) (q : ApkAnswers) (n : Str) : Prop := MayDrop r q n ∧ ¬ NeverAsked r q n

/-- What a row says about a name. -/
def Row.notes (row : Row) (n : Str) : Option (Option Str) :=
  (noteProviders [] (pySorted row.values)).get n

/-- A name in question is provided by the package in a repository of the pair, or the package is
found when its providers are searched for. -/
def Concerns (r : Repos) (q : ApkAnswers) (pair : Pair) (p : Str) : Prop :=
  ∃ n, InQuestion r q n ∧ (p ∈ q.search n ∨
    (∃ row ∈ rowsAt (q.providers r.srs) p pair.1, row.notes n ≠ none) ∨
    ∃ row ∈ rowsAt (q.providers r.srs) p pair.2, row.notes n ≠ none)

/-- The rows for the package in the repository say the same about the names in question. -/
def NotesOnce (r : Repos) (q : ApkAnswers) (p repo : Str) : Prop :=
  ∀ row ∈ rowsAt (q.providers r.srs) p repo, ∀ row' ∈ rowsAt (q.providers r.srs) p repo,
    ∀ n, InQuestion r q n → row.notes n = row'.notes n

/-- If one of the rows in the first repository has the values of one in the second, they all
have. -/
def ChangedOnce (rows : List Row) (pair : Pair) (p : Str) : Prop :=
  ∀ new ∈ rowsAt rows p pair.1, ∀ old ∈ rowsAt rows p pair.2, new.values.Perm old.values →
    ∀ new' ∈ rowsAt rows p pair.1, ∀ old' ∈ rowsAt rows p pair.2, new'.values.Perm old'.values

/-- It does not matter which row for the package in a repository of the pair comes last. -/
structure Settled (r : Repos) (q : ApkAnswers) (pair : Pair) (p : Str) : Prop where
  new : NotesOnce r q p pair.1
  old : NotesOnce r q p pair.2
  changed : Concerns r q pair p → ChangedOnce (q.providers r.srs) pair p

/-- The rows for a package in the first repository that lists it have the same dependencies on
names that may be dropped. -/
def DependsOnce (r : Repos) (q : ApkAnswers) (rows : List Row) (d : Str) : Prop :=
  ∀ repo, (r.rs ++ r.rr).find? (fun repo => decide (Lists rows d repo)) = some repo →
    ∀ row ∈ rowsAt rows d repo, ∀ row' ∈ rowsAt rows d repo,
      ∀ ad ∈ row.values, MayDrop r q (parseDep ad).1 → ad ∈ row'.values

/-- A name in question is left with one version on either side, whatever row for a staged package
comes last, and a reverse dependency is listed once. -/
structure Unambiguous (r : Repos) (q : ApkAnswers) : Prop where
  listed : ∀ pair ∈ r.srs, ∀ p, Lists (q.providers r.srs) p pair.1 → Settled r q pair p
  versions : ∀ n, InQuestion r q n →
    OneVersion newProviders r.srs (r.provm q) n ∧ OneVersion oldProviders r.srs (r.provm q) n
  depends : ∀ d ∈ revdeps q (r.changes q).2,
    DependsOnce r q (q.depends (revdeps q (r.changes q).2)) d

/-! ## Rows for one package -/

theorem noted_newProviders (pair : Pair) (n : Str) (p : Package) : noted newProviders pair n p =
    if Replaced pair p then (noteProviders [] ((p.2.get pair.1).getD [])).get n else none := by
  unfold noted newProviders
  split <;> rfl

theorem noted_oldProviders (pair : Pair) (n : Str) (p : Package) : noted oldProviders pair n p =
    if Replaced pair p then (noteProviders [] ((p.2.get pair.2).getD [])).get n else none := by
  unfold noted oldProviders
  split <;> rfl

section

variable {pair : Pair} {p repo n : Str} {x x' : Dict Str (List Str)}

theorem Told.notes_none (h : Told (q.providers r.srs) p repo x)
    (hnone : ∀ row ∈ rowsAt (q.providers r.srs) p repo, row.notes n = none) :
    (noteProviders [] ((x.get repo).getD [])).get n = none := by
  cases h with
  | unlisted _ hx => rw [hx]; rfl
  | listed row h hx =>
      rw [hx, Option.getD_some]
      exact hnone row h

theorem Told.notes_eq (h : Told (q.providers r.srs) p repo x)
    (h' : Told (q.providers r.srs) p repo x') (hone : NotesOnce r q p repo) (hn : InQuestion r q n) :
    (noteProviders [] ((x'.get repo).getD [])).get n =
      (noteProviders [] ((x.get repo).getD [])).get n := by
  cases h with
  | unlisted hno hx =>
      cases h' with
      | unlisted _ hx' => rw [hx, hx']
      | listed _ h' _ => exact absurd (lists_of_mem_rowsAt h') hno
  | listed row h hx =>
      cases h' with
      | unlisted hno _ => exact absurd (lists_of_mem_rowsAt h) hno
      | listed row' h' hx' =>
          rw [hx, hx', Option.getD_some, Option.getD_some]
          exact hone row' h' row h n hn

theorem perm_of_pySorted_eq {l l' : List Str} (h : pySorted l = pySorted l') : l.Perm l' := by
  have hperm : (pySorted l).Perm l' := h ▸ List.mergeSort_perm l' _
  exact (List.mergeSort_perm l _).symm.trans hperm

/-- Whether a package is replaced does not depend on the rows that come last. -/
theorem Told.replaced {rows : List Row} (h : ∀ repo, Told rows p repo x)
    (h' : ∀ repo, Told rows p repo x') (hone : ChangedOnce rows pair p)
    (hrep : Replaced pair (p, x)) : Replaced pair (p, x') := by
  obtain ⟨hstaged, hne⟩ := hrep
  dsimp only at hstaged hne
  cases h pair.1 with
  | unlisted _ hx =>
      rw [hx] at hstaged
      cases hstaged
  | listed new hnew hx =>
      cases h' pair.1 with
      | unlisted hno _ => exact absurd (lists_of_mem_rowsAt hnew) hno
      | listed new' hnew' hx' =>
          refine ⟨by rw [hx']; rfl, fun heq => ?_⟩
          dsimp only at heq
          cases h' pair.2 with
          | unlisted _ hnone =>
              rw [hnone, hx'] at heq
              cases heq
          | listed old' hold' hy' =>
              cases h pair.2 with
              | unlisted hno _ => exact absurd (lists_of_mem_rowsAt hold') hno
              | listed old hold hy =>
                  rw [hx', hy', Option.some.injEq] at heq
                  have hsame' := perm_of_pySorted_eq heq.symm
                  have hperm := hone new' hnew' old' hold' hsame' new hnew old hold
                  rw [hx, hy] at hne
                  exact hne (congrArg some (pySorted_eq_of_perm hperm.symm))

theorem Told.replaced_iff {rows : List Row} (h : ∀ repo, Told rows p repo x)
    (h' : ∀ repo, Told rows p repo x') (hone : ChangedOnce rows pair p) :
    Replaced pair (p, x') ↔ Replaced pair (p, x) :=
  ⟨Told.replaced h' h hone, Told.replaced h h' hone⟩

theorem Told.not_replaced {rows : List Row} (h : Told rows p pair.1 x)
    (hno : ¬ Lists rows p pair.1) : ¬ Replaced pair (p, x) := by
  intro hrep
  have hstaged := hrep.1
  cases h with
  | unlisted _ hx =>
      rw [hx] at hstaged
      cases hstaged
  | listed row h _ => exact hno (lists_of_mem_rowsAt h)

/-- What is noted of a name in question does not depend on the rows that come last. -/
theorem Settled.noted_eq (hs : Settled r q pair p) (h : ∀ repo, Told (q.providers r.srs) p repo x)
    (h' : ∀ repo, Told (q.providers r.srs) p repo x') (hn : InQuestion r q n) :
    noted newProviders pair n (p, x') = noted newProviders pair n (p, x) ∧
      noted oldProviders pair n (p, x') = noted oldProviders pair n (p, x) := by
  rw [noted_newProviders, noted_newProviders, noted_oldProviders, noted_oldProviders]
  by_cases hnone : (∀ row ∈ rowsAt (q.providers r.srs) p pair.1, row.notes n = none) ∧
      ∀ row ∈ rowsAt (q.providers r.srs) p pair.2, row.notes n = none
  · -- nothing is said about the name, replaced or not
    have hno := fun (x : Dict Str (List Str)) (h : ∀ repo, Told (q.providers r.srs) p repo x) =>
      And.intro ((h pair.1).notes_none hnone.1) ((h pair.2).notes_none hnone.2)
    dsimp only
    rw [(hno x h).1, (hno x h).2, (hno x' h').1, (hno x' h').2]
    simp
  · rw [not_and_or] at hnone
    push Not at hnone
    have hrep := Told.replaced_iff h h' (hs.changed ⟨n, hn, .inr hnone⟩)
    simp only [hrep, (h pair.1).notes_eq (h' pair.1) hs.new hn,
      (h pair.2).notes_eq (h' pair.2) hs.old hn, and_self]

end

section

variable {q₁ q₂ : ApkAnswers}

/-- Answers with the same rows note the same of the names in question. -/
theorem provm_notedIn (hu : Unambiguous r q) (h₁ : Relisted (q.providers r.srs) (q₁.providers r.srs))
    (h₂ : Relisted (q.providers r.srs) (q₂.providers r.srs)) {n : Str} (hn : InQuestion r q n) :
    NotedIn newProviders r.srs n (r.provm q₁) (r.provm q₂) ∧
      NotedIn oldProviders r.srs n (r.provm q₁) (r.provm q₂) := by
  have hat : ∀ p ∈ r.provm q₁, ∃ p' ∈ r.provm q₂, ∀ pair ∈ r.srs,
      noted newProviders pair n p' = noted newProviders pair n p ∧
        noted oldProviders pair n p' = noted oldProviders pair n p := by
    intro p hp
    obtain ⟨x, hx, htold, htold'⟩ := byRepo_mem h₁ h₂ hp
    refine ⟨(p.1, x), hx, fun pair hpair => ?_⟩
    by_cases hl : Lists (q.providers r.srs) p.1 pair.1
    · exact (hu.listed pair hpair p.1 hl).noted_eq htold htold' hn
    · have hno := (htold pair.1).not_replaced hl
      have hno' := (htold' pair.1).not_replaced hl
      rw [noted_newProviders, noted_newProviders, noted_oldProviders, noted_oldProviders,
        if_neg hno, if_neg hno', if_neg hno, if_neg hno']
      exact ⟨rfl, rfl⟩
  constructor <;> intro p hp <;> obtain ⟨p', hp', hsame⟩ := hat p hp
  · exact ⟨p', hp', fun pair hpair => (hsame pair hpair).1⟩
  · exact ⟨p', hp', fun pair hpair => (hsame pair hpair).2⟩

end

theorem mayDrop_of_dropped {n : Str} (hd : Dropped r q n) : MayDrop r q n := by
  obtain ⟨pair, hpair, p, hp, pr, hpr, hn⟩ := hd
  unfold oldProviders at hpr
  split at hpr
  case isFalse => cases hpr
  rename_i hrep
  have hat : ∀ repo, ByRepo.at (r.provm q) p.1 repo = p.2.get repo := fun repo => by
    rw [ByRepo.at, Repos.provm, Dict.get_of_mem (byRepo_keys _).1 hp, Option.bind_some]
  obtain ⟨hstaged, hne⟩ := hrep
  obtain ⟨new, hnew⟩ := Option.isSome_iff_exists.mp hstaged
  cases hold : p.2.get pair.2 with
  | none =>
      rw [hold] at hpr
      cases hpr
  | some old =>
      rw [hold, Option.getD_some] at hpr
      rw [hold, hnew] at hne
      rw [← hat] at hnew hold
      obtain ⟨row, hrow, hname, hrepo, rfl⟩ := byRepo_at_row hnew
      obtain ⟨row', hrow', hname', hrepo', rfl⟩ := byRepo_at_row hold
      refine ⟨pair, hpair, row, hrow, row', hrow', hname.trans hname'.symm, hrepo, hrepo', ?_, pr,
        (List.mergeSort_perm row'.values _).mem_iff.mp hpr, hn⟩
      intro hperm
      exact hne (congrArg some (pySorted_eq_of_perm hperm.symm))

theorem MayDrop.reordered (h : Reordered q q') {n : Str} (hd : MayDrop r q' n) : MayDrop r q n := by
  obtain ⟨pair, hpair, row, hrow, row', hrow', hname, hrepo, hrepo', hne, pr, hpr, hn⟩ := hd
  obtain ⟨row₁, hrow₁, hsame⟩ := (h.providers r.srs).2 row hrow
  obtain ⟨row₁', hrow₁', hsame'⟩ := (h.providers r.srs).2 row' hrow'
  refine ⟨pair, hpair, row₁, hrow₁, row₁', hrow₁', hsame.1.trans (hname.trans hsame'.1.symm),
    hsame.2.2.mem_iff.mpr hrepo, hsame'.2.2.mem_iff.mpr hrepo', ?_, pr,
    hsame'.2.1.mem_iff.mpr hpr, hn⟩
  exact fun hperm => hne (hsame.2.1.symm.trans (hperm.trans hsame'.2.1))

theorem sets_dropped_get_eq_none (r : Repos) (q : ApkAnswers) (n : Str) :
    (r.sets q).dropped.get n = none ↔ ¬ Dropped r q n := by
  unfold Repos.sets
  rw [(accumulate_eq r.srs (r.provm q)).2, noteProviders_get, Dict.get_nil, Option.or_none,
    Option.map_eq_none_iff, List.find?_eq_none]
  simp only [List.mem_reverse, List.mem_flatMap, decide_eq_true_eq, Dropped, not_exists, not_and]
  constructor
  · intro h pair hpair p hp pr hpr
    exact h pr ⟨pair, hpair, p, hp, hpr⟩
  · intro h pr ⟨pair, hpair, p, hp, hpr⟩
    exact h pair hpair p hp pr hpr

theorem changes_entries (r : Repos) (q : ApkAnswers) (n : Str) :
    entries (r.changes q) n = uncommon ((r.sets q).added.get n, (r.sets q).dropped.get n) :=
  cancel_entries _ _ n

/-- What the check takes for dropped has been provided before. -/
theorem mayDrop_of_changes {n : Str} (hn : (r.changes q).2.get n ≠ none) : MayDrop r q n := by
  apply mayDrop_of_dropped
  by_contra hno
  rw [← sets_dropped_get_eq_none] at hno
  have he := congrArg Prod.snd (changes_entries r q n)
  rw [hno] at he
  unfold entries uncommon at he
  apply hn
  refine he.trans ?_
  split <;> rfl

theorem changes_entries_eq (h : Reordered q q') (hu : Unambiguous r q) {n : Str}
    (hn : InQuestion r q n) : entries (r.changes q) n = entries (r.changes q') n := by
  have hsame := Relisted.refl (q.providers r.srs)
  obtain ⟨hnew, hold⟩ := provm_notedIn hu hsame (h.providers r.srs) hn
  obtain ⟨hnew', hold'⟩ := provm_notedIn hu (h.providers r.srs) hsame hn
  obtain ⟨hadded, hdropped⟩ := hu.versions n hn
  rw [changes_entries, changes_entries]
  unfold Repos.sets
  rw [(accumulate_eq r.srs (r.provm q)).1, (accumulate_eq r.srs (r.provm q)).2,
    (accumulate_eq r.srs (r.provm q')).1, (accumulate_eq r.srs (r.provm q')).2,
    flatMap_side_get, flatMap_side_get, flatMap_side_get, flatMap_side_get,
    findSome_lastNoted_eq hnew hnew' hadded, findSome_lastNoted_eq hold hold' hdropped]

theorem noteProviders_nodup {m : Providers} (hm : (Dict.keys m).Nodup) (prs : List Str) :
    (Dict.keys (noteProviders m prs)).Nodup := by
  induction prs generalizing m with
  | nil => exact hm
  | cons pr prs ih => exact ih (Dict.nodup_set hm)

theorem foldl_cancelStep_nodup (ks : List Str) {s : Providers × Providers}
    (h : (Dict.keys s.2).Nodup) : (Dict.keys (ks.foldl cancelStep s).2).Nodup := by
  induction ks generalizing s with
  | nil => exact h
  | cons k ks ih =>
      apply ih
      unfold cancelStep
      split
      · exact Dict.nodup_erase h
      · exact h

theorem changes_nodup (r : Repos) (q : ApkAnswers) : (Dict.keys (r.changes q).2).Nodup := by
  apply foldl_cancelStep_nodup
  unfold Repos.sets
  rw [(accumulate_eq r.srs (r.provm q)).2]
  exact noteProviders_nodup (m := []) List.nodup_nil _

/-! ## The question for reverse dependencies -/

theorem revdeps_eq_asked (q : ApkAnswers) (dropped : Providers) :
    revdeps q dropped = asked q (Dict.keys dropped) := by
  have hkeys : dropped ≠ [] ↔ Dict.keys dropped ≠ [] := by
    unfold Dict.keys
    simp
  unfold revdeps asked
  simp only [hkeys]

theorem asked_perm (h : Reordered q q') {l l' : List Str} (hl : l.Perm l') :
    (asked q l).Perm (asked q' l') := by
  have hne : l ≠ [] ↔ l' ≠ [] := by
    rw [← List.length_pos_iff, ← List.length_pos_iff, hl.length_eq]
  unfold asked
  by_cases hnil : l ≠ []
  · rw [if_pos hnil, if_pos (hne.mp hnil)]
    exact (h.rdepends l l' hl).dedup
  · rw [if_neg hnil, if_neg fun hnil' => hnil (hne.mpr hnil')]

/-- Names that make no difference can be left out of the question. -/
theorem mem_asked_append {never rest : List Str} (hnever : ∀ n ∈ never, NeverAsked r q n)
    (hnodup : (never ++ rest).Nodup) (hmay : ∀ n ∈ never ++ rest, MayDrop r q n) (d : Str) :
    d ∈ asked q (never ++ rest) ↔ d ∈ asked q rest := by
  induction never with
  | nil => rfl
  | cons n never ih =>
      obtain ⟨hn, hnodup'⟩ := List.nodup_cons.mp hnodup
      have hmay' : ∀ m ∈ never ++ rest, MayDrop r q m :=
        fun m hm => hmay m (List.mem_cons_of_mem n hm)
      rw [List.cons_append, (hnever n List.mem_cons_self).apart (never ++ rest) hmay' hn]
      exact ih (fun m hm => hnever m (List.mem_cons_of_mem n hm)) hnodup' hmay'

/-- Questions that agree about the other names have the same answer. -/
theorem mem_asked_iff (h : Reordered q q') {l l' : List Str} (hl : l.Nodup) (hl' : l'.Nodup)
    (hd : ∀ n ∈ l, MayDrop r q n) (hd' : ∀ n ∈ l', MayDrop r q n)
    (hsame : ∀ n, ¬ NeverAsked r q n → (n ∈ l ↔ n ∈ l')) (d : Str) :
    d ∈ asked q l ↔ d ∈ asked q l' := by
  classical
  -- to ask in another order is no other question
  have hperm : ∀ {l l' : List Str}, l.Perm l' → (d ∈ asked q l ↔ d ∈ asked q l') := fun hp =>
    ((asked_perm h hp).mem_iff).trans ((asked_perm h (List.Perm.refl _)).mem_iff).symm
  have hsplit : ∀ l : List Str, l.Nodup → (∀ n ∈ l, MayDrop r q n) →
      (d ∈ asked q l ↔ d ∈ asked q (l.filter fun n => ¬ NeverAsked r q n)) := by
    intro l hnodup hmay
    have happend : (l.filter (fun n => NeverAsked r q n) ++
        l.filter fun n => ¬ NeverAsked r q n).Perm l := by
      simpa using List.filter_append_perm (fun n => decide (NeverAsked r q n)) l
    rw [← hperm happend]
    refine mem_asked_append (fun n hn => ?_) (happend.nodup_iff.mpr hnodup)
      (fun n hn => hmay n (happend.mem_iff.mp hn)) d
    simpa using (List.mem_filter.mp hn).2
  rw [hsplit l hl hd, hsplit l' hl' hd']
  apply hperm
  rw [List.perm_ext_iff_of_nodup (hl.filter _) (hl'.filter _)]
  intro n
  simp only [List.mem_filter, decide_eq_true_eq]
  exact and_congr_left fun hn => hsame n hn

theorem revdeps_perm (h : Reordered q q') (hu : Unambiguous r q) :
    (revdeps q (r.changes q).2).Perm (revdeps q' (r.changes q').2) := by
  have hkey : ∀ (q : ApkAnswers) (n : Str),
      n ∈ Dict.keys (r.changes q).2 ↔ (r.changes q).2.get n ≠ none := by
    intro q n
    rw [← Dict.get_isSome_iff, Option.isSome_iff_ne_none]
  have hmay : ∀ n ∈ Dict.keys (r.changes q).2, MayDrop r q n := fun n hn =>
    mayDrop_of_changes ((hkey q n).mp hn)
  have hmay' : ∀ n ∈ Dict.keys (r.changes q').2, MayDrop r q n := fun n hn =>
    (mayDrop_of_changes ((hkey q' n).mp hn)).reordered h
  have hnodup : ∀ (q : ApkAnswers) (l : List Str), (asked q l).Nodup := by
    intro q l
    unfold asked
    split
    · exact List.nodup_dedup _
    · exact List.nodup_nil
  rw [revdeps_eq_asked, revdeps_eq_asked]
  refine List.Perm.trans ?_ (asked_perm h (List.Perm.refl _))
  rw [List.perm_ext_iff_of_nodup (hnodup q _) (hnodup q _)]
  refine mem_asked_iff h (changes_nodup r q) (changes_nodup r q') hmay hmay' fun n hn => ?_
  by_cases hd : MayDrop r q n
  · have he := congrArg Prod.snd (changes_entries_eq h hu ⟨hd, hn⟩)
    rw [hkey, hkey]
    unfold entries at he
    dsimp only at he
    rw [he]
  · exact iff_of_false (fun hmem => hd (hmay n hmem)) fun hmem => hd (hmay' n hmem)

/-! ## What is replaced -/

theorem comparePackage_replaced (pair : Pair) (s : Sets) (p : Package) :
    (comparePackage pair s p).replaced =
      s.replaced ++ if Replaced pair p then [p.1] else [] := by
  unfold comparePackage
  by_cases hrep : Replaced pair p
  · rw [if_pos hrep]
    obtain ⟨staged, hstaged⟩ := Option.isSome_iff_exists.mp hrep.1
    have hne := hrep.2
    rw [hstaged] at hne ⊢
    dsimp only
    rw [if_neg hne]
  · rw [if_neg hrep, List.append_nil]
    unfold Replaced at hrep
    cases hstaged : p.2.get pair.1 with
    | none => rfl
    | some staged =>
        rw [hstaged] at hrep
        simp only [Option.isSome_some, true_and, ne_eq, not_not] at hrep
        dsimp only
        rw [if_pos hrep]

theorem mem_replaced (srs : List Pair) (provm : ByRepo) (x : Str) :
    x ∈ (accumulate srs provm).replaced ↔ ∃ pair ∈ srs, ∃ p ∈ provm, Replaced pair p ∧ p.1 = x := by
  have hpair : ∀ (pair : Pair) (provm : ByRepo) (s : Sets),
      x ∈ (provm.foldl (comparePackage pair) s).replaced ↔
        x ∈ s.replaced ∨ ∃ p ∈ provm, Replaced pair p ∧ p.1 = x := by
    intro pair provm
    induction provm with
    | nil => simp
    | cons p provm ih =>
        intro s
        rw [List.foldl_cons, ih, comparePackage_replaced, List.mem_append, or_assoc]
        apply or_congr_right
        rw [List.exists_mem_cons_iff]
        apply or_congr_left
        by_cases hrep : Replaced pair p <;> simp [hrep, eq_comm]
  have hall : ∀ (srs : List Pair) (s : Sets),
      x ∈ (srs.foldl (fun s pair => provm.foldl (comparePackage pair) s) s).replaced ↔
        x ∈ s.replaced ∨ ∃ pair ∈ srs, ∃ p ∈ provm, Replaced pair p ∧ p.1 = x := by
    intro srs
    induction srs with
    | nil => simp
    | cons pair srs ih =>
        intro s
        rw [List.foldl_cons, ih, hpair, or_assoc]
        apply or_congr_right
        rw [List.exists_mem_cons_iff]
  unfold accumulate
  rw [hall]
  simp

theorem replaced_le (hu : Unambiguous r q) {q₁ q₂ : ApkAnswers}
    (h₁ : Relisted (q.providers r.srs) (q₁.providers r.srs))
    (h₂ : Relisted (q.providers r.srs) (q₂.providers r.srs)) {n x : Str} (hn : InQuestion r q n)
    (hfound : x ∈ q.search n) (hx : x ∈ (r.sets q₁).replaced) : x ∈ (r.sets q₂).replaced := by
  obtain ⟨pair, hpair, p, hp, hrep, rfl⟩ := (mem_replaced r.srs (r.provm q₁) x).mp hx
  obtain ⟨y, hy, htold, htold'⟩ := byRepo_mem h₁ h₂ hp
  refine (mem_replaced r.srs (r.provm q₂) _).mpr ⟨pair, hpair, (p.1, y), hy, ?_, rfl⟩
  by_cases hl : Lists (q.providers r.srs) p.1 pair.1
  · have hone := (hu.listed pair hpair p.1 hl).changed ⟨n, hn, .inl hfound⟩
    exact Told.replaced htold htold' hone hrep
  · exact absurd hrep ((htold pair.1).not_replaced hl)

/-- Of what is found for a name in question the same is replaced. -/
theorem replaced_iff (h : Reordered q q') (hu : Unambiguous r q) {n x : Str} (hn : InQuestion r q n)
    (hfound : x ∈ q.search n) : x ∈ (r.sets q).replaced ↔ x ∈ (r.sets q').replaced := by
  have hsame := Relisted.refl (q.providers r.srs)
  exact ⟨replaced_le hu hsame (h.providers r.srs) hn hfound,
    replaced_le hu (h.providers r.srs) hsame hn hfound⟩

/-! ## Dependencies -/

/-- The dependencies of a package that are on certain names, whatever their order. -/
def SameDeps (P : Str → Prop) (o o' : Option (List Str)) : Prop :=
  (o = none ↔ o' = none) ∧ ∀ ad, P (parseDep ad).1 →
    ((∃ deps, o = some deps ∧ ad ∈ deps) ↔ ∃ deps, o' = some deps ∧ ad ∈ deps)

/-- What is looked at of a package: the dependencies in a row for the first repository, or the
names of the repositories if none of the known ones lists it. -/
theorem dependsOf_cases (rows : List Row) (repos : List Str) (d : Str) :
    (dependsOf repos (byRepo rows) d = none ∧ ∀ row ∈ rows, row.name ≠ d) ∨
    ∃ deps, dependsOf repos (byRepo rows) d = some deps ∧ (∃ row ∈ rows, row.name = d) ∧
      match repos.find? (fun repo => decide (Lists rows d repo)) with
      | some repo => ∃ row ∈ rows, row.name = d ∧ repo ∈ row.repositories ∧
          ∀ ad, ad ∈ deps ↔ ad ∈ row.values
      | none => ∀ ad, ad ∈ deps ↔ Lists rows d ad := by
  have hkeys := (byRepo_keys rows).2 d
  rw [← Dict.get_isSome_iff] at hkeys
  unfold dependsOf
  cases hm : (byRepo rows).get d with
  | none =>
      rw [hm] at hkeys
      refine Or.inl ⟨rfl, fun row hrow hname => ?_⟩
      exact Bool.false_ne_true (hkeys.mpr ⟨row, hrow, hname⟩)
  | some m =>
      rw [hm] at hkeys
      have hat : ∀ repo, ByRepo.at (byRepo rows) d repo = m.get repo := fun repo => by
        rw [ByRepo.at, hm, Option.bind_some]
      have hlists : (fun repo => (m.get repo).isSome) = fun repo => decide (Lists rows d repo) := by
        funext repo
        rw [Bool.eq_iff_iff, ← hat, byRepo_at_isSome, decide_eq_true_iff]
      refine Or.inr ⟨_, rfl, hkeys.mp rfl, ?_⟩
      dsimp only
      rw [hlists]
      cases hfind : repos.find? fun repo => decide (Lists rows d repo) with
      | none =>
          intro ad
          rw [← Dict.get_isSome_iff, ← hat, byRepo_at_isSome]
      | some repo =>
          have hsome := List.find?_some hfind
          rw [decide_eq_true_iff, ← byRepo_at_isSome] at hsome
          obtain ⟨v, hv⟩ := Option.isSome_iff_exists.mp hsome
          obtain ⟨row, hrow, hname, hrepo, rfl⟩ := byRepo_at_row hv
          refine ⟨row, hrow, hname, hrepo, fun ad => ?_⟩
          dsimp only
          rw [← hat, hv, Option.getD_some]
          exact (List.mergeSort_perm row.values _).mem_iff

theorem dependsOf_same {rows rows' : List Row} (hr : Relisted rows rows') {d : Str}
    (h : DependsOnce r q rows d) : SameDeps (MayDrop r q)
      (dependsOf (r.rs ++ r.rr) (byRepo rows) d) (dependsOf (r.rs ++ r.rr) (byRepo rows') d) := by
  have hlists : (fun repo => decide (Lists rows d repo)) = fun repo => decide (Lists rows' d repo) := by
    funext repo
    rw [decide_eq_decide, lists_iff hr]
  have hnames : (∃ row ∈ rows, row.name = d) ↔ ∃ row' ∈ rows', row'.name = d := by
    have hsome := byRepo_get_isSome hr d
    rw [Bool.eq_iff_iff, Dict.get_isSome_iff, Dict.get_isSome_iff, (byRepo_keys rows).2,
      (byRepo_keys rows').2] at hsome
    exact hsome
  rcases dependsOf_cases rows (r.rs ++ r.rr) d with ⟨hnone, hno⟩ | ⟨deps, hdeps, hrow, hmem⟩
  · rcases dependsOf_cases rows' (r.rs ++ r.rr) d with ⟨hnone', _⟩ | ⟨_, _, hrow', _⟩
    · rw [hnone, hnone']
      exact ⟨Iff.rfl, fun _ _ => Iff.rfl⟩
    · obtain ⟨row, hrow, hname⟩ := hnames.mpr hrow'
      exact absurd hname (hno row hrow)
  · rcases dependsOf_cases rows' (r.rs ++ r.rr) d with ⟨_, hno'⟩ | ⟨deps', hdeps', _, hmem'⟩
    · obtain ⟨row', hrow', hname'⟩ := hnames.mp hrow
      exact absurd hname' (hno' row' hrow')
    · rw [hdeps, hdeps']
      refine ⟨by simp, fun ad had => ?_⟩
      simp only [Option.some.injEq, exists_eq_left']
      rw [← hlists] at hmem'
      cases hfind : (r.rs ++ r.rr).find? fun repo => decide (Lists rows d repo) with
      | none =>
          rw [hfind] at hmem hmem'
          rw [hmem, hmem', lists_iff hr]
      | some repo =>
          rw [hfind] at hmem hmem'
          obtain ⟨row, hrow, hname, hrepo, hvalues⟩ := hmem
          obtain ⟨row', hrow', hname', hrepo', hvalues'⟩ := hmem'
          obtain ⟨row'', hrow'', hsame⟩ := hr.2 row' hrow'
          have hat := mem_rowsAt.mpr ⟨hrow, hname, hrepo⟩
          have hat'' := mem_rowsAt.mpr ⟨hrow'', hsame.1.trans hname', hsame.2.2.mem_iff.mpr hrepo'⟩
          rw [hvalues, hvalues', ← hsame.2.1.mem_iff]
          constructor
          · intro hv
            exact h repo hfind row hat row'' hat'' ad hv had
          · intro hv
            exact h repo hfind row'' hat'' row hat ad hv had

/-! ## What is reported -/

/-- `d` is recorded for the name `k`. -/
def Recorded (c : Dict Str (List Str)) (k d : Str) : Prop := ∃ ds, c.get k = some ds ∧ d ∈ ds

theorem recorded_record (c : Dict Str (List Str)) (ad d k d' : Str) :
    Recorded (record c ad d) k d' ↔ Recorded c k d' ∨ ad = k ∧ d' = d := by
  unfold Recorded record
  rw [Dict.get_set]
  by_cases hk : ad = k
  · subst hk
    cases hget : c.get ad <;> simp
  · simp [hk]

/-- The dependencies `deps` of `d` have been checked. -/
structure Checked (s : Providers × Providers) (d : Str) (deps : List Str)
    (c c' : Dict Str (List Str)) : Prop where
  evaluated : ∀ ad ∈ deps, checkDep s.2 s.1 ad ≠ none
  recorded : ∀ k d', Recorded c' k d' ↔ Recorded c k d' ∨
    d' = d ∧ ∃ ad ∈ deps, (parseDep ad).1 = k ∧ checkDep s.2 s.1 ad = some true
  filled : (∀ k, c.get k ≠ some []) → ∀ k, c'.get k ≠ some []

variable {s : Providers × Providers}

theorem record_filled {c : Dict Str (List Str)} (h : ∀ k, c.get k ≠ some []) (ad d k : Str) :
    (record c ad d).get k ≠ some [] := by
  unfold record
  rw [Dict.get_set]
  by_cases hk : ad = k
  · simp [hk]
  · rw [if_neg hk]
    exact h k

theorem checkDeps_checked {d : Str} {deps : List Str} {c c' : Dict Str (List Str)}
    (h : checkDeps s.1 s.2 d c deps = some c') : Checked s d deps c c' := by
  induction deps generalizing c with
  | nil =>
      cases h
      exact ⟨fun _ h => absurd h List.not_mem_nil, by simp, fun h => h⟩
  | cons ad deps ih =>
      unfold checkDeps at h
      split at h
      · cases h
      · rename_i hb
        obtain ⟨heval, hrec, hfill⟩ := ih h
        refine ⟨List.forall_mem_cons.mpr ⟨by simp [hb], heval⟩, ?_,
          fun hc => hfill (record_filled hc _ _)⟩
        intro k d'
        rw [hrec, recorded_record, List.exists_mem_cons_iff, hb]
        constructor
        · rintro ((h | ⟨hk, hd⟩) | ⟨hd, h⟩)
          · exact Or.inl h
          · exact Or.inr ⟨hd, Or.inl ⟨hk, rfl⟩⟩
          · exact Or.inr ⟨hd, Or.inr h⟩
        · rintro (h | ⟨hd, ⟨hk, -⟩ | h⟩)
          · exact Or.inl (Or.inl h)
          · exact Or.inl (Or.inr ⟨hk, hd⟩)
          · exact Or.inr ⟨hd, h⟩
      · rename_i hb
        obtain ⟨heval, hrec, hfill⟩ := ih h
        refine ⟨List.forall_mem_cons.mpr ⟨by simp [hb], heval⟩, ?_, hfill⟩
        intro k d'
        rw [hrec, List.exists_mem_cons_iff, hb]
        simp

/-- Some dependency of a reverse dependency raises, or there is no answer for it. -/
def Raises (s : Providers × Providers) (depends : Str → Option (List Str)) (revs : List Str) :
    Prop :=
  ∃ d ∈ revs, depends d = none ∨
    ∃ deps, depends d = some deps ∧ ∃ ad ∈ deps, checkDep s.2 s.1 ad = none

/-- A dependency with this name of the reverse dependency `d` is lost. -/
def Finds (s : Providers × Providers) (depends : Str → Option (List Str)) (revs : List Str)
    (k d : Str) : Prop :=
  d ∈ revs ∧ ∃ deps, depends d = some deps ∧
    ∃ ad ∈ deps, (parseDep ad).1 = k ∧ checkDep s.2 s.1 ad = some true

theorem checkDeps_eq_none {d : Str} {deps : List Str} {c : Dict Str (List Str)}
    (h : checkDeps s.1 s.2 d c deps = none) : ∃ ad ∈ deps, checkDep s.2 s.1 ad = none := by
  induction deps generalizing c with
  | nil => cases h
  | cons ad deps ih =>
      unfold checkDeps at h
      split at h
      · rename_i hb
        exact ⟨ad, List.mem_cons_self, hb⟩
      · obtain ⟨ad', had', hnone⟩ := ih h
        exact ⟨ad', List.mem_cons_of_mem ad had', hnone⟩
      · obtain ⟨ad', had', hnone⟩ := ih h
        exact ⟨ad', List.mem_cons_of_mem ad had', hnone⟩

variable {depends : Str → Option (List Str)}

theorem checkRevdeps_eq_none {revs : List Str} {c : Dict Str (List Str)}
    (h : checkRevdeps s.1 s.2 depends c revs = none) : Raises s depends revs := by
  induction revs generalizing c with
  | nil => cases h
  | cons d revs ih =>
      unfold checkRevdeps at h
      split at h
      · rename_i hdeps
        exact ⟨d, List.mem_cons_self, Or.inl hdeps⟩
      · rename_i deps hdeps
        split at h
        · rename_i hc
          exact ⟨d, List.mem_cons_self, Or.inr ⟨deps, hdeps, checkDeps_eq_none hc⟩⟩
        · obtain ⟨d', hd', hraise⟩ := ih h
          exact ⟨d', List.mem_cons_of_mem d hd', hraise⟩

theorem checkRevdeps_checked {revs : List Str} {c c' : Dict Str (List Str)}
    (h : checkRevdeps s.1 s.2 depends c revs = some c') : ¬ Raises s depends revs ∧
      (∀ k d, Recorded c' k d ↔ Recorded c k d ∨ Finds s depends revs k d) ∧
      ((∀ k, c.get k ≠ some []) → ∀ k, c'.get k ≠ some []) := by
  induction revs generalizing c with
  | nil =>
      cases h
      exact ⟨by simp [Raises], by simp [Finds], fun h => h⟩
  | cons d revs ih =>
      unfold checkRevdeps at h
      split at h
      · cases h
      rename_i deps hdeps
      split at h
      · cases h
      rename_i c₁ hc₁
      obtain ⟨heval, hrec, hfill⟩ := checkDeps_checked hc₁
      obtain ⟨hno, hrec', hfill'⟩ := ih h
      refine ⟨?_, ?_, fun hc => hfill' (hfill hc)⟩
      · intro hraise
        obtain ⟨d', hd', hraise⟩ := hraise
        obtain rfl | hd' := List.mem_cons.mp hd'
        · rw [hdeps] at hraise
          obtain h | ⟨deps', h, ad, had, hnone⟩ := hraise
          · cases h
          · cases h
            exact heval ad had hnone
        · exact hno ⟨d', hd', hraise⟩
      · intro k d'
        rw [hrec', hrec, or_assoc]
        apply or_congr_right
        unfold Finds
        rw [List.mem_cons]
        constructor
        · rintro (⟨rfl, h⟩ | ⟨hd', h⟩)
          · exact ⟨Or.inl rfl, deps, hdeps, h⟩
          · exact ⟨Or.inr hd', h⟩
        · rintro ⟨rfl | hd', deps', hdeps', h⟩
          · rw [hdeps] at hdeps'
            cases hdeps'
            exact Or.inl ⟨rfl, h⟩
          · exact Or.inr ⟨hd', deps', hdeps', h⟩

/-- The outcome `b` of the check is met for a dependency of `d` on the name. -/
def Shows (s : Providers × Providers) (depends : Str → Option (List Str)) (d k : Str)
    (b : Option Bool) : Prop :=
  ∃ deps, depends d = some deps ∧ ∃ ad ∈ deps, (parseDep ad).1 = k ∧ checkDep s.2 s.1 ad = b

/-- What the findings are made from, up to order and to dependencies that are passed over. -/
structure SameChecks (s s' : Providers × Providers) (depends depends' : Str → Option (List Str))
    (revs revs' : List Str) : Prop where
  known : ∀ d ∈ revs, depends d = none ↔ depends' d = none
  shows : ∀ d ∈ revs, ∀ k b, b ≠ some false → (Shows s depends d k b ↔ Shows s' depends' d k b)
  revs : revs.Perm revs'

section

variable {s' : Providers × Providers} {depends' : Str → Option (List Str)} {revs revs' : List Str}

theorem SameChecks.symm (h : SameChecks s s' depends depends' revs revs') :
    SameChecks s' s depends' depends revs' revs where
  known d hd := (h.known d (h.revs.mem_iff.mpr hd)).symm
  shows d hd k b hb := (h.shows d (h.revs.mem_iff.mpr hd) k b hb).symm
  revs := h.revs.symm

theorem Raises.same (h : SameChecks s s' depends depends' revs revs')
    (hr : Raises s depends revs) : Raises s' depends' revs' := by
  obtain ⟨d, hd, hr⟩ := hr
  refine ⟨d, h.revs.mem_iff.mp hd, ?_⟩
  obtain hnone | ⟨deps, hdeps, ad, had, hnone⟩ := hr
  · exact Or.inl ((h.known d hd).mp hnone)
  · obtain ⟨deps', hdeps', ad', had', -, hnone'⟩ :=
      (h.shows d hd _ none nofun).mp ⟨deps, hdeps, ad, had, rfl, hnone⟩
    exact Or.inr ⟨deps', hdeps', ad', had', hnone'⟩

theorem Finds.same (h : SameChecks s s' depends depends' revs revs') {k d : Str}
    (hf : Finds s depends revs k d) : Finds s' depends' revs' k d :=
  ⟨h.revs.mem_iff.mp hf.1, (h.shows d hf.1 k (some true) (by simp)).mp hf.2⟩

/-- A dependency that is not passed over is on a name that is dropped. -/
theorem dropped_of_checkDep {ad : Str} (h : checkDep s.2 s.1 ad ≠ some false) :
    s.2.get (parseDep ad).1 ≠ none := by
  intro hnone
  apply h
  unfold checkDep
  cases hp : parseDep ad with
  | mk name c =>
      rw [hp] at hnone
      dsimp only at hnone
      cases c with
      | none =>
          dsimp only
          rw [hnone]
      | some c =>
          obtain ⟨ao, av⟩ := c
          dsimp only
          rw [hnone]

theorem checkDep_congr {ad : Str} (h : entries s (parseDep ad).1 = entries s' (parseDep ad).1) :
    checkDep s.2 s.1 ad = checkDep s'.2 s'.1 ad := by
  have hadded : s.1.get (parseDep ad).1 = s'.1.get (parseDep ad).1 := congrArg Prod.fst h
  have hdropped : s.2.get (parseDep ad).1 = s'.2.get (parseDep ad).1 := congrArg Prod.snd h
  unfold checkDep
  cases hp : parseDep ad with
  | mk name c =>
      rw [hp] at hadded hdropped
      dsimp only at hadded hdropped
      cases c with
      | none =>
          dsimp only
          rw [hadded, hdropped]
      | some c =>
          obtain ⟨ao, av⟩ := c
          dsimp only
          rw [hadded, hdropped]

end

theorem narrow_get (q : ApkAnswers) (replaced : List Str) (c : Dict Str (List Str)) (k : Str) :
    (narrow q replaced c).get k = if ∀ pd ∈ q.search k, pd ∈ replaced then c.get k else none := by
  have hget := Dict.get_filter (d := c) (k := k) fun name =>
    (q.search name).all fun pd => replaced.contains pd
  simp only [List.all_eq_true, List.contains_iff_mem] at hget
  exact hget

theorem recorded_narrow {q : ApkAnswers} {replaced : List Str} {c : Dict Str (List Str)} {k d : Str} :
    Recorded (narrow q replaced c) k d ↔ Recorded c k d ∧ ∀ pd ∈ q.search k, pd ∈ replaced := by
  unfold Recorded
  rw [narrow_get]
  by_cases hall : ∀ pd ∈ q.search k, pd ∈ replaced
  · simp only [if_pos hall, and_iff_left hall]
  · simp [hall]

theorem narrow_eq_nil_iff {q : ApkAnswers} {replaced : List Str} {c : Dict Str (List Str)}
    (hc : ∀ k, c.get k ≠ some []) :
    narrow q replaced c = [] ↔ ∀ k d, ¬ Recorded (narrow q replaced c) k d := by
  constructor
  · intro hnil k d h
    rw [hnil] at h
    obtain ⟨ds, hds, -⟩ := h
    cases hds
  · intro hno
    by_contra hne
    obtain ⟨e, he⟩ := List.exists_mem_of_ne_nil _ hne
    obtain ⟨ds, hds⟩ := Option.isSome_iff_exists.mp
      (Dict.get_isSome_iff.mpr (List.mem_map.mpr ⟨e, he, rfl⟩))
    cases ds with
    | nil =>
        rw [narrow_get] at hds
        split at hds
        · exact hc e.1 hds
        · cases hds
    | cons d ds => exact hno e.1 d ⟨_, hds, List.mem_cons_self⟩

end

/-! ## The verdict -/

/-- The findings, before a name with another provider is dropped. -/
def Repos.found (r : Repos) (q : ApkAnswers) : Option (Dict Str (List Str)) :=
  checkRevdeps (r.changes q).1 (r.changes q).2 (r.dependsOf q) [] (revdeps q (r.changes q).2)

/-- `d` is named as to be rebuilt because of its dependency on `k`. -/
def Reports (r : Repos) (q : ApkAnswers) (k d : Str) : Prop :=
  ∃ c, r.found q = some c ∧ Recorded (narrow q (r.sets q).replaced c) k d

/-- Neither the verdict nor what is reported depends on the order of what is listed. -/
def OrderFree (r : Repos) (q : ApkAnswers) : Prop :=
  ∀ q', Reordered q q' → (∀ force, checkStage r q force = checkStage r q' force) ∧
    ∀ k d, Reports r q k d ↔ Reports r q' k d

variable {r : Repos} {q q' : ApkAnswers}

theorem found_spec (r : Repos) (q : ApkAnswers) :
    (r.found q = none ∧ Raises (r.changes q) (r.dependsOf q) (revdeps q (r.changes q).2)) ∨
    ∃ c, r.found q = some c ∧ ¬ Raises (r.changes q) (r.dependsOf q) (revdeps q (r.changes q).2) ∧
      (∀ k d, Recorded c k d ↔ Finds (r.changes q) (r.dependsOf q) (revdeps q (r.changes q).2) k d) ∧
      ∀ k, c.get k ≠ some [] := by
  cases hfound : r.found q with
  | none => exact Or.inl ⟨rfl, checkRevdeps_eq_none hfound⟩
  | some c =>
      obtain ⟨hno, hrec, hfill⟩ := checkRevdeps_checked hfound
      refine Or.inr ⟨c, rfl, hno, fun k d => ?_, hfill (by simp)⟩
      rw [hrec]
      simp [Recorded]

theorem reports_iff (r : Repos) (q : ApkAnswers) (k d : Str) : Reports r q k d ↔
    ¬ Raises (r.changes q) (r.dependsOf q) (revdeps q (r.changes q).2) ∧
      Finds (r.changes q) (r.dependsOf q) (revdeps q (r.changes q).2) k d ∧
      ∀ pd ∈ q.search k, pd ∈ (r.sets q).replaced := by
  unfold Reports
  obtain ⟨hnone, hraise⟩ | ⟨c, hc, hno, hrec, -⟩ := found_spec r q
  · simp [hnone, hraise]
  · simp only [hc, Option.some.injEq, exists_eq_left', recorded_narrow, hrec, hno,
      not_false_eq_true, true_and]

theorem checkStage_eq (r : Repos) (q : ApkAnswers) (force : Bool) : checkStage r q force =
    if force then some (some r.rs)
    else match r.found q with
      | none => none
      | some checkdeps =>
          if narrow q (r.sets q).replaced checkdeps = [] then some (some r.rs) else some none := rfl

/-- The verdict, in terms of what raises and what is reported. -/
theorem checkStage_cases (r : Repos) (q : ApkAnswers) :
    (Raises (r.changes q) (r.dependsOf q) (revdeps q (r.changes q).2) ∧ checkStage r q false = none) ∨
    ¬ Raises (r.changes q) (r.dependsOf q) (revdeps q (r.changes q).2) ∧
      (((∀ k d, ¬ Reports r q k d) ∧ checkStage r q false = some (some r.rs)) ∨
        ((∃ k d, Reports r q k d) ∧ checkStage r q false = some none)) := by
  rw [checkStage_eq, if_neg Bool.false_ne_true]
  obtain ⟨hnone, hraise⟩ | ⟨c, hc, hno, -, hfill⟩ := found_spec r q
  · rw [hnone]
    exact Or.inl ⟨hraise, rfl⟩
  · rw [hc]
    dsimp only
    refine Or.inr ⟨hno, ?_⟩
    have hreports : ∀ k d, Reports r q k d ↔ Recorded (narrow q (r.sets q).replaced c) k d := by
      intro k d
      unfold Reports
      simp [hc]
    by_cases hnil : narrow q (r.sets q).replaced c = []
    · rw [if_pos hnil]
      left
      refine ⟨fun k d => ?_, rfl⟩
      rw [hreports]
      exact (narrow_eq_nil_iff hfill).mp hnil k d
    · rw [if_neg hnil]
      right
      refine ⟨?_, rfl⟩
      rw [narrow_eq_nil_iff hfill] at hnil
      push Not at hnil
      obtain ⟨k, d, h⟩ := hnil
      exact ⟨k, d, (hreports k d).mpr h⟩

theorem sameChecks (h : Reordered q q') (hu : Unambiguous r q) :
    SameChecks (r.changes q) (r.changes q') (r.dependsOf q) (r.dependsOf q')
      (revdeps q (r.changes q).2) (revdeps q' (r.changes q').2) := by
  have hrevs := revdeps_perm h hu
  have hdeps : ∀ d ∈ revdeps q (r.changes q).2,
      SameDeps (MayDrop r q) (r.dependsOf q d) (r.dependsOf q' d) := fun d hd =>
    dependsOf_same (h.depends _ _ hrevs) (hu.depends d hd)
  -- a dependency on a name that may be dropped is checked alike
  have hcheck : ∀ d ∈ revdeps q (r.changes q).2, ∀ deps, r.dependsOf q d = some deps →
      ∀ ad ∈ deps, MayDrop r q (parseDep ad).1 →
      checkDep (r.changes q).2 (r.changes q).1 ad = checkDep (r.changes q').2 (r.changes q').1 ad := by
    intro d hd deps hd' ad had hmay
    refine checkDep_congr (changes_entries_eq h hu ⟨hmay, fun hnever => ?_⟩)
    exact hnever.unused d hd deps hd' ad had rfl
  refine ⟨fun d hd => (hdeps d hd).1, fun d hd k b hb => ⟨?_, ?_⟩, hrevs⟩
  · rintro ⟨deps, hdepends, ad, had, rfl, rfl⟩
    have hmay := mayDrop_of_changes (dropped_of_checkDep hb)
    obtain ⟨deps', hdepends', had'⟩ := ((hdeps d hd).2 ad hmay).mp ⟨deps, hdepends, had⟩
    exact ⟨deps', hdepends', ad, had', rfl, (hcheck d hd deps hdepends ad had hmay).symm⟩
  · rintro ⟨deps', hdepends', ad, had', rfl, rfl⟩
    have hmay := (mayDrop_of_changes (dropped_of_checkDep hb)).reordered h
    obtain ⟨deps, hdepends, had⟩ := ((hdeps d hd).2 ad hmay).mpr ⟨deps', hdepends', had'⟩
    exact ⟨deps, hdepends, ad, had, rfl, hcheck d hd deps hdepends ad had hmay⟩

/-- What is found concerns a name in question. -/
theorem inQuestion_of_finds {k d : Str}
    (hf : Finds (r.changes q) (r.dependsOf q) (revdeps q (r.changes q).2) k d) : InQuestion r q k := by
  obtain ⟨hd, deps, hdeps, ad, had, rfl, hcheck⟩ := hf
  refine ⟨mayDrop_of_changes (dropped_of_checkDep (by rw [hcheck]; simp)), fun hnever => ?_⟩
  exact hnever.unused d hd deps hdeps ad had rfl

theorem reports_same (h : Reordered q q') (hu : Unambiguous r q) (k d : Str) :
    Reports r q k d ↔ Reports r q' k d := by
  have hs := sameChecks h hu
  have hraises := Iff.intro (Raises.same hs) (Raises.same hs.symm)
  have hfinds := Iff.intro (Finds.same (k := k) (d := d) hs) (Finds.same hs.symm)
  rw [reports_iff, reports_iff, hraises, ← hfinds]
  apply and_congr_right
  intro _
  apply and_congr_right
  intro hf
  have hreplaced := fun pd => replaced_iff h hu (x := pd) (inQuestion_of_finds hf)
  simp only [← (h.search k).mem_iff]
  exact forall₂_congr hreplaced

/-- Where nothing is dropped nobody is asked for. -/
theorem quiet (h : ∀ n, ¬ MayDrop r q n) : checkStage r q false = some (some r.rs) ∧
    ∀ k d, ¬ Reports r q k d := by
  have hnil : (r.changes q).2 = [] := by
    by_contra hne
    obtain ⟨e, he⟩ := List.exists_mem_of_ne_nil _ hne
    have hsome := Dict.get_isSome_iff.mpr (List.mem_map.mpr ⟨e, he, rfl⟩)
    exact h e.1 (mayDrop_of_changes (Option.isSome_iff_ne_none.mp hsome))
  have hrevs : revdeps q (r.changes q).2 = [] := by
    rw [hnil]
    rfl
  have hreports : ∀ k d, ¬ Reports r q k d := by
    intro k d hrep
    obtain ⟨-, hfinds, -⟩ := (reports_iff r q k d).mp hrep
    have hd := hfinds.1
    rw [hrevs] at hd
    cases hd
  refine ⟨?_, hreports⟩
  obtain ⟨⟨d, hd, -⟩, -⟩ | ⟨-, ⟨-, heq⟩ | ⟨⟨k, d, hrep⟩, -⟩⟩ := checkStage_cases r q
  · rw [hrevs] at hd
    cases hd
  · exact heq
  · exact absurd hrep (hreports k d)

/-- Where a name can be dropped, the order does not matter if what may be asked for has one
version. -/
theorem orderFree_of_unambiguous (r : Repos) (q : ApkAnswers)
    (hamb : (∃ n, MayDrop r q n) → Unambiguous r q) : OrderFree r q := by
  intro q' h
  by_cases hdrop : ∃ n, MayDrop r q n
  case neg =>
    have hno : ∀ n, ¬ MayDrop r q n := fun n hn => hdrop ⟨n, hn⟩
    obtain ⟨heq, hrep⟩ := quiet hno
    obtain ⟨heq', hrep'⟩ := quiet fun n hn => hno n (hn.reordered h)
    refine ⟨fun force => ?_, fun k d => iff_of_false (hrep k d) (hrep' k d)⟩
    cases force with
    | true => rfl
    | false => rw [heq, heq']
  have hu := hamb hdrop
  have hs := sameChecks h hu
  have hreports := reports_same h hu
  refine ⟨fun force => ?_, hreports⟩
  cases force with
  | true => rfl
  | false =>
      obtain ⟨hraise, heq⟩ | ⟨hno, ⟨hnone, heq⟩ | ⟨⟨k, d, hrep⟩, heq⟩⟩ := checkStage_cases r q <;>
        obtain ⟨hraise', heq'⟩ | ⟨hno', ⟨hnone', heq'⟩ | ⟨⟨k', d', hrep'⟩, heq'⟩⟩ :=
          checkStage_cases r q'
      · rw [heq, heq']
      · exact absurd (hraise.same hs) hno'
      · exact absurd (hraise.same hs) hno'
      · exact absurd (hraise'.same hs.symm) hno
      · rw [heq, heq']
      · exact absurd ((hreports k' d').mpr hrep') (hnone k' d')
      · exact absurd (hraise'.same hs.symm) hno
      · exact absurd ((hreports k d).mp hrep) (hnone' k d)
      · rw [heq, heq']

/-! ### Two providers of a name -/

/-- Answers on the packages in the rows; `x` needs `n=1`, which `a` and `b` can provide. -/
def answers (rows : List Row) : ApkAnswers :=
  { providers := fun _ => rows
    rdepends := fun _ => ["x".toList]
    depends := fun _ => [⟨"x".toList, ["n=1".toList], [regular]⟩]
    search := fun _ => ["a".toList, "b".toList] }

/-- `a` goes from `n=1` to `n=2`. -/
def rowsA : List Row :=
  [⟨"a".toList, ["n=1".toList], [regular]⟩, ⟨"a".toList, ["n=2".toList], [staged]⟩]

def rowB : Row := ⟨"b".toList, ["n=1".toList], [staged]⟩

theorem orderFree_rowsA : OrderFree upgrade (answers rowsA) := by
  have hprovm : upgrade.provm (answers rowsA) =
      [("a".toList, [(regular, ["n=1".toList]), (staged, ["n=2".toList])])] := by decide +kernel
  have hone : ∀ side n, OneVersion side upgrade.srs (upgrade.provm (answers rowsA)) n := by
    intro side n before pair after _ _ p hp p' hp' t t' ht ht'
    rw [hprovm] at hp hp'
    rw [List.mem_singleton.mp hp] at ht
    rw [List.mem_singleton.mp hp', ht] at ht'
    exact Option.some.inj ht'
  -- each repository has one row
  have hrow : ∀ p repo, ∀ row ∈ rowsAt rowsA p repo, ∀ row' ∈ rowsAt rowsA p repo, row = row' := by
    have hne : regular ≠ staged := by decide
    intro p repo row hrow row' hrow'
    obtain ⟨hmem, -, hrepo⟩ := mem_rowsAt.mp hrow
    obtain ⟨hmem', -, hrepo'⟩ := mem_rowsAt.mp hrow'
    simp only [rowsA, List.mem_cons, List.not_mem_nil, or_false] at hmem hmem'
    obtain rfl | rfl := hmem <;> obtain rfl | rfl := hmem'
    · rfl
    · rw [List.mem_singleton] at hrepo hrepo'
      exact absurd (hrepo.symm.trans hrepo') hne
    · rw [List.mem_singleton] at hrepo hrepo'
      exact absurd (hrepo'.symm.trans hrepo) hne
    · rfl
  refine orderFree_of_unambiguous upgrade (answers rowsA) fun _ =>
    ⟨fun pair _ p _ => ⟨?_, ?_, fun _ => ?_⟩, fun n _ => ⟨hone _ n, hone _ n⟩, ?_⟩
  · intro row hat row' hat' n _
    rw [hrow p pair.1 row hat row' hat']
  · intro row hat row' hat' n _
    rw [hrow p pair.2 row hat row' hat']
  · intro new hnew old hold hperm new' hnew' old' hold'
    rwa [hrow p pair.1 new' hnew' new hnew, hrow p pair.2 old' hold' old hold]
  · intro d _ repo _ row hat row' hat' ad had _
    rw [List.mem_singleton.mp (mem_rowsAt.mp hat').1]
    rw [List.mem_singleton.mp (mem_rowsAt.mp hat).1] at had
    exact had

/-- With a staged `b` that provides `n=1` listed after `a` nothing is dropped, and listed before
it `n=1` is. -/
theorem twoProviders_not_orderFree : ¬ OrderFree upgrade (answers (rowsA ++ [rowB])) := by
  intro h
  have hperm : (rowsA ++ [rowB]).Perm (rowB :: rowsA) := List.perm_append_comm
  have hreordered : Reordered (answers (rowsA ++ [rowB])) (answers (rowB :: rowsA)) := by
    refine ⟨fun _ => ⟨?_, ?_⟩, fun _ _ _ => .refl _, fun _ _ _ => ⟨?_, ?_⟩, fun _ => .refl _⟩
    · exact fun row hrow => ⟨row, hperm.mem_iff.mp hrow, rfl, .refl _, .refl _⟩
    · exact fun row hrow => ⟨row, hperm.mem_iff.mpr hrow, rfl, .refl _, .refl _⟩
    · exact fun row hrow => ⟨row, hrow, rfl, .refl _, .refl _⟩
    · exact fun row hrow => ⟨row, hrow, rfl, .refl _, .refl _⟩
  have hverdict := (h _ hreordered).1 false
  revert hverdict
  decide +kernel

end Cbuild.Stage
