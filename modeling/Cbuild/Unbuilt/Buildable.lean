import Cbuild.Unbuilt.Listing
import Cbuild.Lib.Search
import Mathlib

/-! # What the listing filters out

The search from a template follows the dependencies of what is neither broken nor in the
repository, one after the other until one leads to something broken. It marks what it has
gone through only when it leaves it, so a cycle that it gets into is never left.
-/

namespace Cbuild.Unbuilt

open Lib

variable {w : World} {outdated : Bool}

/-! ## The graph -/

/-- What `_get_tmpl` makes of a name. -/
def World.read (w : World) (pn : Str) : Entry :=
  if w.tmpls.contains pn then
    match w.initFromMod pn with
    | .error _ => .done
    | .ok tmpl => if tmpl.broken = true then .broken else .tmpl tmpl
  else .done

/-- Explicitly broken. -/
def Broken (w : World) (pn : Str) : Prop := w.read pn = .broken

def Depends (w : World) (pn d : Str) : Prop :=
  ∃ t ds, w.read pn = .tmpl t ∧ t.buildDeps = .ok ds ∧ d ∈ ds

def InRepo (w : World) (pn : Str) : Prop :=
  ∃ t, w.read pn = .tmpl t ∧ (w.repovers.get t.pkgname).isSome = true

/-- The dependencies that lead on from a template: of one that is in the repository, none. -/
def World.expands (w : World) (pn : Str) : Option (Except Exn (List Str)) :=
  match w.read pn with
  | .tmpl t => if (w.repovers.get t.pkgname).isSome then none else some t.buildDeps
  | _ => none

def Leads (w : World) (a b : Str) : Prop := ∃ ds, w.expands a = some (.ok ds) ∧ b ∈ ds

/-- Broken, or something broken is reached through templates that are not in the repository. -/
def Bad (w : World) (n : Str) : Prop := ∃ b, Relation.ReflTransGen (Leads w) n b ∧ Broken w b

/-- Something broken is reachable, and what lies in between is not in the repository. -/
def ReachesBroken (w : World) (pn : Str) : Prop := ∃ d, Depends w pn d ∧ Bad w d

/-- The dependencies that are searched: unless broken, and until one is bad. -/
def Followed (w : World) : List Str → Str → Prop
  | [], _ => False
  | d :: ds, x => (x = d ∧ ¬ Broken w d) ∨ (¬ Bad w d ∧ Followed w ds x)

def Follows (w : World) (a b : Str) : Prop := ∃ ds, w.expands a = some (.ok ds) ∧ Followed w ds b

/-- The search meets no template whose dependencies cannot be listed, and no cycle. -/
def Searchable (w : World) (pn : Str) : Prop :=
  ∀ n, Relation.ReflTransGen (Follows w) pn n →
    (∀ e, w.expands n ≠ some (.error e)) ∧ ¬ Relation.TransGen (Follows w) n n

/-- The search from `n` comes to an end. -/
inductive Ends (w : World) : Str → Prop
  | intro (n : Str) (hlist : ∀ e, w.expands n ≠ some (.error e))
      (hnext : ∀ d, Follows w n d → Ends w d) : Ends w n

theorem Followed.not_broken {ds : List Str} {x : Str} (h : Followed w ds x) : ¬ Broken w x := by
  induction ds with
  | nil => exact False.elim h
  | cons d ds ih =>
      rcases h with ⟨rfl, hno⟩ | ⟨-, h⟩
      · exact hno
      · exact ih h

theorem Broken.bad {n : Str} (h : Broken w n) : Bad w n := ⟨n, .refl, h⟩

theorem bad_iff {n : Str} : Bad w n ↔ Broken w n ∨ ∃ ds, w.expands n = some (.ok ds) ∧ ∃ d ∈ ds, Bad w d := by
  constructor
  · intro h
    obtain ⟨b, hpath, hb⟩ := h
    rcases Relation.ReflTransGen.cases_head hpath with rfl | ⟨d, ⟨ds, hds, hd⟩, hrest⟩
    · exact Or.inl hb
    · exact Or.inr ⟨ds, hds, d, hd, b, hrest, hb⟩
  · intro h
    rcases h with h | ⟨ds, hds, d, hd, b, hpath, hb⟩
    · exact h.bad
    · exact ⟨b, .head ⟨ds, hds, hd⟩ hpath, hb⟩

/-- Nothing is searched below a template that leads nowhere. -/
theorem not_bad_of_leaf {n : Str} (h : w.expands n = none) (hno : ¬ Broken w n) :
    ¬ Bad w n ∧ Ends w n := by
  constructor
  · intro hbad
    rcases bad_iff.mp hbad with hb | ⟨ds, hds, -⟩
    · exact hno hb
    · rw [h] at hds
      nomatch hds
  · apply Ends.intro
    · intro e he
      rw [h] at he
      nomatch he
    · intro d hd
      obtain ⟨ds, hds, -⟩ := hd
      rw [h] at hds
      nomatch hds

theorem expands_of_read {n : Str} {t : Tmpl} (h : w.read n = .tmpl t) :
    w.expands n = if (w.repovers.get t.pkgname).isSome then none else some t.buildDeps := by
  unfold World.expands
  rw [h]

theorem not_broken_of_tmpl {n : Str} {t : Tmpl} (h : w.read n = .tmpl t) : ¬ Broken w n := by
  unfold Broken
  rw [h]
  exact Entry.noConfusion

/-- What leads on is a template of the listing. -/
theorem mem_of_expands {n : Str} {r : Except Exn (List Str)} (h : w.expands n = some r) :
    n ∈ w.tmpls := by
  by_contra hn
  have hread : w.read n = .done := by
    unfold World.read
    rw [if_neg (fun hc => hn (List.contains_iff_mem.mp hc))]
  unfold World.expands at h
  rw [hread] at h
  nomatch h

theorem Ends.not_cycle {n : Str} (h : Ends w n) : ¬ Relation.TransGen (Follows w) n n := by
  induction h with
  | intro n _ _ ih =>
      intro hcycle
      obtain ⟨d, hd, hback⟩ := Relation.TransGen.head'_iff.mp hcycle
      exact ih d hd (.tail' hback hd)

theorem Ends.searchable {n : Str} (h : Ends w n) : Searchable w n := by
  intro m hpath
  have hm : Ends w m := by
    induction hpath with
    | refl => exact h
    | tail _ hstep ih =>
        cases ih with
        | intro _ _ hnext => exact hnext _ hstep
  refine ⟨?_, hm.not_cycle⟩
  cases hm with
  | intro _ hlist _ => exact hlist

/-! ## What is in the map -/

/-- Entries are what has been read, or stand for what has been gone through. -/
def Memo.Sound (w : World) (s : Memo) : Prop :=
  ∀ n e, s.tmpls.get n = some e → e = w.read n ∨ e = .done ∧ ¬ Bad w n ∧ Ends w n

/-- Nothing leaves the map. -/
def Memo.Keeps (s s' : Memo) : Prop :=
  ∀ n, (s.tmpls.get n).isSome = true → (s'.tmpls.get n).isSome = true

/-- The outcome of a search that decides `P`. -/
structure Decides (w : World) (s : Memo) (r : Bool × Memo) (P : Prop) : Prop where
  sound : r.2.Sound w
  keeps : s.Keeps r.2
  iff : r.1 = true ↔ P

variable {s s' : Memo}

theorem Memo.Keeps.refl (s : Memo) : s.Keeps s := fun _ h => h

theorem Memo.Keeps.trans {s s' s'' : Memo} (h : s.Keeps s') (h' : s'.Keeps s'') : s.Keeps s'' :=
  fun n hn => h' n (h n hn)

theorem Memo.keeps_enter (s : Memo) (pn : Str) (e : Entry) : s.Keeps (s.enter pn e) := by
  intro n hn
  show ((s.tmpls.set pn e).get n).isSome = true
  rw [Dict.get_set]
  split
  · rfl
  · exact hn

theorem Memo.Sound.enter (h : s.Sound w) {pn : Str} {e : Entry}
    (he : e = w.read pn ∨ e = .done ∧ ¬ Bad w pn ∧ Ends w pn) : (s.enter pn e).Sound w := by
  intro n e' hn
  have hn' : (if pn = n then some e else s.tmpls.get n) = some e' := by
    rw [← Dict.get_set]
    exact hn
  split at hn'
  · rename_i heq
    cases hn'
    exact heq ▸ he
  · exact h n e' hn'

theorem Memo.Sound.tmpl (h : s.Sound w) {n : Str} {t : Tmpl} (hn : s.tmpls.get n = some (.tmpl t)) :
    w.read n = .tmpl t := by
  rcases h n _ hn with hread | ⟨hdone, -⟩
  · exact hread.symm
  · nomatch hdone

theorem Memo.Sound.broken (h : s.Sound w) {n : Str} (hn : s.tmpls.get n = some .broken) :
    Broken w n := by
  rcases h n _ hn with hread | ⟨hdone, -⟩
  · exact hread.symm
  · nomatch hdone

/-- What is done with is neither broken nor leads to something broken. -/
theorem Memo.Sound.done (h : s.Sound w) {n : Str} (hn : s.tmpls.get n = some .done) :
    ¬ Bad w n ∧ Ends w n := by
  rcases h n _ hn with hread | ⟨-, hdone⟩
  · apply not_bad_of_leaf
    · unfold World.expands
      rw [← hread]
    · unfold Broken
      rw [← hread]
      exact Entry.noConfusion
  · exact hdone

theorem getTmpl_spec (w : World) (pn : Str) (s : Memo) :
    ((getTmpl w pn s).1 = true ↔ Broken w pn) ∧
      (getTmpl w pn s).2.tmpls = s.tmpls.set pn (w.read pn) := by
  unfold getTmpl Broken World.read
  split
  · cases w.initFromMod pn with
    | error e => simp [Memo.enter]
    | ok t => cases h : t.broken <;> simp [h, Memo.enter]
  · simp [Memo.enter]

theorem Memo.Sound.getTmpl (h : s.Sound w) (pn : Str) :
    (getTmpl w pn s).2.Sound w ∧ s.Keeps (getTmpl w pn s).2 ∧
      ((getTmpl w pn s).2.tmpls.get pn).isSome = true := by
  have htmpls := (getTmpl_spec w pn s).2
  refine ⟨?_, ?_, ?_⟩
  · intro n e hn
    rw [htmpls] at hn
    exact h.enter (Or.inl rfl) n e hn
  · intro n hn
    rw [htmpls]
    exact s.keeps_enter pn (w.read pn) n hn
  · rw [htmpls, Dict.get_set, if_pos rfl]
    rfl

/-! ## The search is exact -/

section

variable {check : Str → Memo → Fueled Exn (Bool × Memo)}

/-- A search that ends has decided whether the template is bad. -/
def Exact (w : World) (check : Str → Memo → Fueled Exn (Bool × Memo)) : Prop :=
  ∀ pn s r, s.Sound w → (check pn s).Returns r → Decides w s r (Bad w pn) ∧ Ends w pn

theorem checkDep_spec (hcheck : Exact w check) {d : Str} {s : Memo} {r : Bool × Memo}
    (hs : s.Sound w) (h : (checkDep w check d s).Returns r) :
    Decides w s r (Bad w d) ∧ (¬ Broken w d → Ends w d) := by
  unfold checkDep at h
  cases hd : s.tmpls.get d with
  | some e =>
      rw [hd] at h
      cases e with
      | broken =>
          have hbroken := hs.broken hd
          cases Fueled.pure_returns.mp h
          exact ⟨⟨hs, .refl s, iff_of_true rfl hbroken.bad⟩, fun hno => absurd hbroken hno⟩
      | tmpl t => exact ⟨(hcheck d s r hs h).1, fun _ => (hcheck d s r hs h).2⟩
      | done => exact ⟨(hcheck d s r hs h).1, fun _ => (hcheck d s r hs h).2⟩
  | none =>
      rw [hd] at h
      dsimp only at h
      obtain ⟨hread, -⟩ := getTmpl_spec w d s
      obtain ⟨hsound, hkeeps, -⟩ := hs.getTmpl d
      cases hg : getTmpl w d s with
      | mk b s₁ =>
          rw [hg] at h hread hsound hkeeps
          cases b with
          | true =>
              have hbroken := hread.mp rfl
              cases Fueled.pure_returns.mp h
              exact ⟨⟨hsound, hkeeps, iff_of_true rfl hbroken.bad⟩, fun hno => absurd hbroken hno⟩
          | false =>
              obtain ⟨hdec, hends⟩ := hcheck d s₁ r hsound h
              exact ⟨⟨hdec.sound, hkeeps.trans hdec.keeps, hdec.iff⟩, fun _ => hends⟩

theorem anyBroken_spec (hcheck : Exact w check) {ds : List Str} {s : Memo} {r : Bool × Memo}
    (hs : s.Sound w) (h : (anyBroken (checkDep w check) ds s).Returns r) :
    Decides w s r (∃ d ∈ ds, Bad w d) ∧ ∀ d, Followed w ds d → Ends w d := by
  induction ds generalizing s with
  | nil =>
      cases Fueled.pure_returns.mp h
      exact ⟨⟨hs, .refl s, by simp⟩, fun _ hd => False.elim hd⟩
  | cons d ds ih =>
      unfold anyBroken at h
      obtain ⟨⟨b, s₁⟩, hdep, hrest⟩ := Fueled.bind_returns.mp h
      obtain ⟨hdec, hends⟩ := checkDep_spec hcheck hs hdep
      cases b with
      | true =>
          cases Fueled.pure_returns.mp hrest
          have hbad := hdec.iff.mp rfl
          refine ⟨⟨hdec.sound, hdec.keeps, ?_⟩, ?_⟩
          · exact iff_of_true rfl ⟨d, List.mem_cons_self, hbad⟩
          · intro x hx
            rcases hx with ⟨rfl, hno⟩ | ⟨hgood, -⟩
            · exact hends hno
            · exact absurd hbad hgood
      | false =>
          obtain ⟨hdec', hends'⟩ := ih hdec.sound hrest
          have hgood : ¬ Bad w d := fun hbad => Bool.false_ne_true (hdec.iff.mpr hbad)
          refine ⟨⟨hdec'.sound, hdec.keeps.trans hdec'.keeps, ?_⟩, ?_⟩
          · rw [hdec'.iff]
            simp [hgood]
          · intro x hx
            rcases hx with ⟨rfl, hno⟩ | ⟨-, hx⟩
            · exact hends hno
            · exact hends' x hx

end

theorem checkTmpls_exact (fuel : Nat) : Exact w (checkTmpls w fuel) := by
  induction fuel with
  | zero =>
      intro pn s r _ h
      nomatch h
  | succ fuel ih =>
      intro pn s r hs h
      unfold checkTmpls at h
      cases he : s.tmpls.get pn with
      | none =>
          rw [he] at h
          exact absurd h Fueled.throw_returns
      | some e =>
          rw [he] at h
          cases e with
          | broken => exact absurd h Fueled.throw_returns
          | done =>
              obtain ⟨hgood, hends⟩ := hs.done he
              cases Fueled.pure_returns.mp h
              exact ⟨⟨hs, .refl s, iff_of_false Bool.false_ne_true hgood⟩, hends⟩
          | tmpl t =>
              have hread := hs.tmpl he
              have hexp := expands_of_read hread
              have hno := not_broken_of_tmpl hread
              dsimp only at h
              split at h
              · rename_i hrepo
                rw [if_pos hrepo] at hexp
                obtain ⟨hgood, hends⟩ := not_bad_of_leaf hexp hno
                cases Fueled.pure_returns.mp h
                exact ⟨⟨hs, .refl s, iff_of_false Bool.false_ne_true hgood⟩, hends⟩
              · rename_i hrepo
                rw [if_neg hrepo] at hexp
                obtain ⟨ds, hds, h⟩ := Fueled.bind_returns.mp h
                rw [Fueled.lift_returns] at hds
                rw [hds] at hexp
                obtain ⟨⟨b, s₁⟩, hany, h⟩ := Fueled.bind_returns.mp h
                obtain ⟨hdec, hnext⟩ := anyBroken_spec ih hs hany
                have hends : Ends w pn := by
                  apply Ends.intro
                  · intro e hlist
                    rw [hexp] at hlist
                    nomatch hlist
                  · intro d hd
                    obtain ⟨ds', hds', hd⟩ := hd
                    rw [hexp] at hds'
                    cases hds'
                    exact hnext d hd
                have hbad : Bad w pn ↔ ∃ d ∈ ds, Bad w d := by
                  rw [bad_iff, hexp]
                  simp [hno]
                rw [hbad]
                cases b with
                | true =>
                    cases Fueled.pure_returns.mp h
                    exact ⟨⟨hdec.sound, hdec.keeps, hdec.iff⟩, hends⟩
                | false =>
                    cases Fueled.pure_returns.mp h
                    have hgood : ¬ ∃ d ∈ ds, Bad w d := fun hd => Bool.false_ne_true (hdec.iff.mpr hd)
                    refine ⟨⟨?_, hdec.keeps.trans (s₁.keeps_enter pn .done), ?_⟩, hends⟩
                    · exact hdec.sound.enter (Or.inr ⟨rfl, fun hd => hgood (hbad.mp hd), hends⟩)
                    · exact iff_of_false Bool.false_ne_true hgood

/-! ## The search ends -/

theorem Searchable.step {n d : Str} (h : Searchable w n) (hd : Follows w n d) : Searchable w d :=
  fun m hm => h m (.head hd hm)

/-- It is enough that the dependencies that are followed can be searched. -/
theorem anyBroken_returns {check : Str → Memo → Fueled Exn (Bool × Memo)} (hcheck : Exact w check)
    {ds : List Str} (hends : ∀ d, Followed w ds d → ∀ s : Memo, s.Sound w →
      (s.tmpls.get d).isSome = true → ∃ r, (check d s).Returns r) {s : Memo} (hs : s.Sound w) :
    ∃ r, (anyBroken (checkDep w check) ds s).Returns r := by
  induction ds generalizing s with
  | nil => exact ⟨(false, s), Fueled.pure_returns.mpr rfl⟩
  | cons d ds ih =>
      have hdep : ∃ r, (checkDep w check d s).Returns r := by
        unfold checkDep
        cases hd : s.tmpls.get d with
        | some e =>
            have hsome : (s.tmpls.get d).isSome = true := by
              rw [hd]
              rfl
            cases e with
            | broken => exact ⟨(true, s), Fueled.pure_returns.mpr rfl⟩
            | tmpl t => exact hends d (Or.inl ⟨rfl, not_broken_of_tmpl (hs.tmpl hd)⟩) s hs hsome
            | done => exact hends d (Or.inl ⟨rfl, fun hb => (hs.done hd).1 hb.bad⟩) s hs hsome
        | none =>
            dsimp only
            obtain ⟨hread, -⟩ := getTmpl_spec w d s
            obtain ⟨hsound, -, hsome⟩ := hs.getTmpl d
            cases hg : getTmpl w d s with
            | mk b s₁ =>
                rw [hg] at hread hsound hsome
                cases b with
                | true => exact ⟨(true, s₁), Fueled.pure_returns.mpr rfl⟩
                | false =>
                    apply hends d (Or.inl ⟨rfl, ?_⟩) s₁ hsound hsome
                    intro hb
                    exact Bool.false_ne_true (hread.mpr hb)
      obtain ⟨⟨b, s₁⟩, hr⟩ := hdep
      obtain ⟨hdec, -⟩ := checkDep_spec hcheck hs hr
      unfold anyBroken
      cases b with
      | true => exact ⟨(true, s₁), Fueled.bind_returns.mpr ⟨(true, s₁), hr, Fueled.pure_returns.mpr rfl⟩⟩
      | false =>
          have hgood : ¬ Bad w d := fun hbad => Bool.false_ne_true (hdec.iff.mpr hbad)
          obtain ⟨r, hrest⟩ := ih (fun x hx => hends x (Or.inr ⟨hgood, hx⟩)) hdec.sound
          exact ⟨r, Fueled.bind_returns.mpr ⟨(false, s₁), hr, hrest⟩⟩

/-- The search holds one template of the listing for each call that has not returned, so the
listing bounds its depth. -/
theorem checkTmpls_returns (fuel : Nat) (P : Finset Str) {pn : Str} {s : Memo} (hs : s.Sound w)
    (hsome : (s.tmpls.get pn).isSome = true) (hno : ¬ Broken w pn) (hsearch : Searchable w pn)
    (hP : ∀ p ∈ P, Relation.TransGen (Follows w) p pn)
    (hfuel : (w.tmpls.toFinset \ P).card < fuel) : ∃ r, (checkTmpls w fuel pn s).Returns r := by
  induction fuel generalizing P pn s with
  | zero => omega
  | succ fuel ih =>
      unfold checkTmpls
      cases he : s.tmpls.get pn with
      | none =>
          rw [he] at hsome
          nomatch hsome
      | some e =>
          cases e with
          | broken => exact absurd (hs.broken he) hno
          | done => exact ⟨(false, s), Fueled.pure_returns.mpr rfl⟩
          | tmpl t =>
              have hexp := expands_of_read (hs.tmpl he)
              dsimp only
              split
              · exact ⟨(false, s), Fueled.pure_returns.mpr rfl⟩
              · rename_i hrepo
                rw [if_neg hrepo] at hexp
                obtain ⟨hlist, hcycle⟩ := hsearch pn .refl
                cases hds : t.buildDeps with
                | error e => exact absurd (hds ▸ hexp) (hlist e)
                | ok ds =>
                    rw [hds] at hexp
                    have hpn : pn ∉ P := fun hmem => hcycle (hP pn hmem)
                    have hlt := card_sdiff_insert_lt (List.mem_toFinset.mpr (mem_of_expands hexp)) hpn
                    have hnext : ∀ d, Followed w ds d → ∀ s : Memo, s.Sound w →
                        (s.tmpls.get d).isSome = true → ∃ r, (checkTmpls w fuel d s).Returns r := by
                      intro d hd s' hs' hsome'
                      have hstep : Follows w pn d := ⟨ds, hexp, hd⟩
                      apply ih (insert pn P) hs' hsome' hd.not_broken (hsearch.step hstep)
                      · intro p hp
                        rcases Finset.mem_insert.mp hp with rfl | hp
                        · exact .single hstep
                        · exact .tail (hP p hp) hstep
                      · omega
                    obtain ⟨⟨b, s₁⟩, hany⟩ := anyBroken_returns (checkTmpls_exact fuel) hnext hs
                    refine ⟨if b = true then (true, s₁) else (false, s₁.enter pn .done), ?_⟩
                    apply Fueled.bind_returns.mpr ⟨ds, Fueled.lift_returns.mpr rfl, _⟩
                    apply Fueled.bind_returns.mpr ⟨(b, s₁), hany, _⟩
                    cases b <;> exact Fueled.pure_returns.mpr rfl

/-! ## The listing -/

/-- Both filters keep the roots readable and start the search with what they have read. -/
theorem getTmpls_spec (w : World) (vers : List Str) :
    (getTmpls w vers).2.Sound w ∧
      (∀ pn, pn ∈ (getTmpls w vers).1 ↔ pn ∈ vers ∧ ¬ Broken w pn) ∧
      ∀ pn ∈ vers, ((getTmpls w vers).2.tmpls.get pn).isSome = true := by
  induction vers using List.reverseRecOn with
  | nil =>
      refine ⟨?_, by simp [getTmpls], nofun⟩
      intro n e h
      nomatch h
  | append_singleton vers pn ih =>
      obtain ⟨hs, hmem, hsome⟩ := ih
      have happ : getTmpls w (vers ++ [pn]) =
          (if (getTmpl w pn (getTmpls w vers).2).1 = true then (getTmpls w vers).1
            else (getTmpls w vers).1 ++ [pn], (getTmpl w pn (getTmpls w vers).2).2) := by
        unfold getTmpls
        rw [List.foldl_append, List.foldl_cons, List.foldl_nil]
        cases getTmpl w pn _ with
        | mk b s => cases b <;> rfl
      obtain ⟨hread, -⟩ := getTmpl_spec w pn (getTmpls w vers).2
      obtain ⟨hsound, hkeeps, hpn⟩ := hs.getTmpl pn
      rw [happ]
      refine ⟨hsound, ?_, ?_⟩
      · intro x
        dsimp only
        split
        · rename_i hb
          have hbroken := hread.mp hb
          rw [hmem, List.mem_append, List.mem_singleton]
          constructor
          · intro h
            exact ⟨Or.inl h.1, h.2⟩
          · intro h
            refine ⟨h.1.resolve_right ?_, h.2⟩
            rintro rfl
            exact h.2 hbroken
        · rename_i hb
          have hno : ¬ Broken w pn := fun h => hb (hread.mpr h)
          rw [List.mem_append, hmem, List.mem_append, List.mem_singleton]
          constructor
          · intro h
            rcases h with h | rfl
            · exact ⟨Or.inl h.1, h.2⟩
            · exact ⟨Or.inr rfl, hno⟩
          · intro h
            rcases h.1 with hx | rfl
            · exact Or.inl ⟨hx, h.2⟩
            · exact Or.inr rfl
      · intro x hx
        rcases List.mem_append.mp hx with hx | hx
        · exact hkeeps x (hsome x hx)
        · rw [List.mem_singleton.mp hx]
          exact hpn

/-- What is listed of the roots, if all of them can be searched. -/
theorem listBuildable_spec {fuel : Nat} {vers : List Str} {s : Memo} {l : List (Str × Option Str)}
    (hs : s.Sound w) (h : (listBuildable w fuel vers s).Returns l) :
    (∀ pn, pn ∈ l.map Prod.fst ↔ pn ∈ vers ∧ ¬ Bad w pn) ∧ ∀ pn ∈ vers, Ends w pn := by
  induction vers generalizing s l with
  | nil =>
      cases Fueled.pure_returns.mp h
      exact ⟨by simp, by simp⟩
  | cons pn vers ih =>
      obtain ⟨⟨b, s₁⟩, hcheck, h⟩ := Fueled.bind_returns.mp h
      obtain ⟨hdec, hends⟩ := checkTmpls_exact fuel pn s _ hs hcheck
      obtain ⟨fvers, hrest, h⟩ := Fueled.bind_returns.mp h
      obtain ⟨hmem, hall⟩ := ih hdec.sound hrest
      cases Fueled.pure_returns.mp h
      refine ⟨?_, List.forall_mem_cons.mpr ⟨hends, hall⟩⟩
      intro x
      have hb := hdec.iff
      cases b with
      | true =>
          show x ∈ fvers.map Prod.fst ↔ _
          have hbad := hb.mp rfl
          rw [hmem, List.mem_cons]
          constructor
          · intro h
            exact ⟨Or.inr h.1, h.2⟩
          · intro h
            refine ⟨h.1.resolve_left ?_, h.2⟩
            rintro rfl
            exact h.2 hbad
      | false =>
          show x ∈ pn :: fvers.map Prod.fst ↔ _
          have hgood : ¬ Bad w pn := fun h => Bool.false_ne_true (hb.mpr h)
          rw [List.mem_cons, hmem, List.mem_cons]
          constructor
          · intro h
            rcases h with rfl | h
            · exact ⟨Or.inl rfl, hgood⟩
            · exact ⟨Or.inr h.1, h.2⟩
          · intro h
            rcases h.1 with rfl | hx
            · exact Or.inl rfl
            · exact Or.inr ⟨hx, h.2⟩

theorem listBuildable_returns (fuel : Nat) (hfuel : w.tmpls.toFinset.card < fuel)
    {vers : List Str} {s : Memo} (hs : s.Sound w)
    (hvers : ∀ pn ∈ vers, (s.tmpls.get pn).isSome = true ∧ ¬ Broken w pn ∧ Searchable w pn) :
    ∃ l, (listBuildable w fuel vers s).Returns l := by
  induction vers generalizing s with
  | nil => exact ⟨[], Fueled.pure_returns.mpr rfl⟩
  | cons pn vers ih =>
      rw [List.forall_mem_cons] at hvers
      obtain ⟨hsome, hno, hsearch⟩ := hvers.1
      obtain ⟨⟨b, s₁⟩, hcheck⟩ := checkTmpls_returns fuel ∅ hs hsome hno hsearch
        (fun p hp => absurd hp (Finset.notMem_empty p)) (by rwa [Finset.sdiff_empty])
      obtain ⟨hdec, -⟩ := checkTmpls_exact fuel pn s _ hs hcheck
      obtain ⟨fvers, hrest⟩ := ih hdec.sound
        (fun x hx => ⟨hdec.keeps x (hvers.2 x hx).1, (hvers.2 x hx).2⟩)
      exact ⟨_, Fueled.bind_returns.mpr ⟨(b, s₁), hcheck,
        Fueled.bind_returns.mpr ⟨fvers, hrest, Fueled.pure_returns.mpr rfl⟩⟩⟩

/-! ### Candidates -/

/-- The module can be loaded and says what version it is. -/
def Complete (w : World) (pn : Str) : Prop :=
  ∃ apn apv apr, w.rawMod pn = .ok ⟨some apn, some apv, some apr⟩

/-- Its version is not the one in the repository, or it does not say what its version is. -/
def NotInVersion (w : World) (outdated : Bool) (m : RawMod) : Prop :=
  (m.pkgname = none ∨ m.pkgver = none ∨ m.pkgrel = none) ∨
    ∃ apn apv apr, m = ⟨some apn, some apv, some apr⟩ ∧
      (outdated = true → (w.repovers.get apn).isSome = true) ∧
      w.repovers.get apn ≠ some (prv apv apr)

def Candidate (w : World) (outdated : Bool) (pn : Str) : Prop :=
  pn ∈ w.tmpls ∧ ∃ m, w.rawMod pn = .ok m ∧ NotInVersion w outdated m

theorem notInVersion_iff {apn : Str} {apv apr : Option Str} :
    NotInVersion w outdated ⟨some apn, some apv, some apr⟩ ↔
      ¬ (outdated = true ∧ (w.repovers.get apn).isNone = true) ∧
        ¬ w.repovers.get apn = some (prv apv apr) := by
  unfold NotInVersion
  constructor
  · intro h
    rcases h with h | ⟨_, _, _, heq, hout, hver⟩
    · simp at h
    · cases heq
      refine ⟨?_, hver⟩
      intro h
      have := hout h.1
      rw [Option.isNone_iff_eq_none.mp h.2] at this
      nomatch this
  · intro h
    refine Or.inr ⟨apn, apv, apr, rfl, ?_, h.2⟩
    intro hout
    cases hget : w.repovers.get apn with
    | some v => rfl
    | none => exact absurd ⟨hout, by rw [hget]; rfl⟩ h.1

theorem modStep_complete (outdated : Bool) {pn apn : Str} {apv apr : Option Str}
    (h : w.rawMod pn = .ok ⟨some apn, some apv, some apr⟩) (vers : List Str) :
    ∃ vers', modStep w outdated vers pn = .ok vers' ∧ ∀ x, x ∈ vers' ↔ x ∈ vers ∨
      x = pn ∧ NotInVersion w outdated ⟨some apn, some apv, some apr⟩ := by
  rw [notInVersion_iff]
  unfold modStep
  rw [h]
  by_cases hout : outdated = true ∧ (w.repovers.get apn).isNone = true
  · refine ⟨vers, ?_, by simp [hout]⟩
    simp [getattr, hout, bind, Except.bind, pure, Except.pure]
  · by_cases hver : w.repovers.get apn = some (prv apv apr)
    · refine ⟨vers, ?_, by simp [hver]⟩
      simp [getattr, hver, bind, Except.bind, pure, Except.pure]
    · have hnew : ¬ (outdated = true ∧ (w.repovers.get apn).isNone = true) ∧
          ¬ w.repovers.get apn = some (prv apv apr) := ⟨hout, hver⟩
      refine ⟨vers ++ [pn], ?_, ?_⟩
      · simp only [getattr, bind, Except.bind, pure, Except.pure, if_neg hout, if_neg hver,
          Option.isNone_some, Bool.false_eq_true, or_self, if_false]
      · intro x
        rw [List.mem_append, List.mem_singleton, and_iff_left hnew]

/-- A template that does not say what it is ends the listing. -/
theorem modStep_incomplete {pn : Str} (h : ¬ Complete w pn) (vers vers' : List Str) :
    modStep w outdated vers pn ≠ .ok vers' := by
  intro hok
  apply h
  unfold modStep at hok
  obtain ⟨⟨pkgname, pkgver, pkgrel⟩, hm, hok⟩ := except_bind_eq_ok.mp hok
  obtain ⟨apn, hapn, hok⟩ := except_bind_eq_ok.mp hok
  obtain ⟨apv, hapv, hok⟩ := except_bind_eq_ok.mp hok
  obtain ⟨apr, hapr, -⟩ := except_bind_eq_ok.mp hok
  have hsome : ∀ {α : Type} {a : Option α} {b : α}, getattr a = .ok b → a = some b := by
    intro α a b hab
    cases a with
    | none => nomatch hab
    | some a' =>
        cases hab
        rfl
  refine ⟨apn, apv, apr, ?_⟩
  rw [hm, ← hsome hapn, ← hsome hapv, ← hsome hapr]

/-- The first loop gets to its end if every module says what it is, and finds the candidates. -/
theorem foldlM_modStep (w : World) (outdated : Bool) (pns : List Str) (vers : List Str) :
    (∀ vers', pns.foldlM (modStep w outdated) vers = .ok vers' →
      (∀ pn ∈ pns, Complete w pn) ∧ ∀ x, x ∈ vers' ↔ x ∈ vers ∨
        x ∈ pns ∧ ∃ m, w.rawMod x = .ok m ∧ NotInVersion w outdated m) ∧
      ((∀ pn ∈ pns, Complete w pn) → ∃ vers', pns.foldlM (modStep w outdated) vers = .ok vers') := by
  induction pns generalizing vers with
  | nil =>
      refine ⟨?_, fun _ => ⟨vers, rfl⟩⟩
      intro vers' h
      cases h
      simp
  | cons pn pns ih =>
      rw [List.foldlM_cons, List.forall_mem_cons]
      constructor
      · intro vers' h
        obtain ⟨vers₁, hstep, h⟩ := except_bind_eq_ok.mp h
        obtain ⟨hall, hmem⟩ := (ih vers₁).1 vers' h
        have hpn : Complete w pn := by
          by_contra hno
          exact modStep_incomplete hno vers vers₁ hstep
        refine ⟨⟨hpn, hall⟩, ?_⟩
        obtain ⟨apn, apv, apr, hm⟩ := hpn
        obtain ⟨vers₂, hstep', hmem'⟩ := modStep_complete outdated hm vers
        rw [hstep] at hstep'
        cases hstep'
        intro x
        rw [hmem, hmem', List.mem_cons, or_assoc, or_and_right]
        apply or_congr_right
        apply or_congr_left
        constructor
        · intro hx
          exact ⟨hx.1, _, hx.1 ▸ hm, hx.2⟩
        · intro hx
          obtain ⟨rfl, m, hm', hver⟩ := hx
          rw [hm] at hm'
          cases hm'
          exact ⟨rfl, hver⟩
      · intro h
        obtain ⟨apn, apv, apr, hm⟩ := h.1
        obtain ⟨vers₁, hstep, -⟩ := modStep_complete outdated hm vers
        obtain ⟨vers', hrest⟩ := (ih vers₁).2 h.2
        exact ⟨vers', except_bind_eq_ok.mpr ⟨vers₁, hstep, hrest⟩⟩

/-! ## Exactness -/

/-- The listing comes to an end and has exactly the candidates that are not broken and from which
nothing broken is reachable through templates outside the repository. -/
def ListsBuildable (w : World) (outdated : Bool) : Prop :=
  ∃ fuel l, (getUnbuilt w outdated fuel).Returns l ∧
    ∀ pn, pn ∈ l.map Prod.fst ↔ Candidate w outdated pn ∧ ¬ Broken w pn ∧ ¬ ReachesBroken w pn

theorem bad_iff_reachesBroken {pn : Str} (hno : ¬ Broken w pn) (hrepo : ¬ InRepo w pn) :
    Bad w pn ↔ ReachesBroken w pn := by
  rw [bad_iff]
  unfold ReachesBroken Depends World.expands
  cases hread : w.read pn with
  | broken => exact absurd hread hno
  | done => simp [hno]
  | tmpl t =>
      have hout : ¬ (w.repovers.get t.pkgname).isSome = true := fun h => hrepo ⟨t, hread, h⟩
      dsimp only
      rw [if_neg hout]
      constructor
      · intro h
        obtain ⟨ds, hds, d, hd, hbad⟩ := h.resolve_left hno
        exact ⟨d, ⟨t, ds, rfl, Option.some.inj hds, hd⟩, hbad⟩
      · intro h
        obtain ⟨d, ⟨t', ds, ht, hds, hd⟩, hbad⟩ := h
        cases ht
        exact Or.inr ⟨ds, congrArg some hds, d, hd, hbad⟩

theorem not_bad_of_inRepo {pn : Str} (h : InRepo w pn) : ¬ Bad w pn := by
  obtain ⟨t, hread, hrepo⟩ := h
  have hexp := expands_of_read hread
  rw [if_pos hrepo] at hexp
  exact (not_bad_of_leaf hexp (not_broken_of_tmpl hread)).1

theorem getUnbuilt_returns {fuel : Nat} {l : List (Str × Option Str)} :
    (getUnbuilt w outdated fuel).Returns l ↔ ∃ vers, w.vers outdated = .ok vers ∧
      (listBuildable w fuel (getTmpls w vers).1 (getTmpls w vers).2).Returns l := by
  unfold getUnbuilt
  rw [Fueled.bind_returns]
  simp only [Fueled.lift_returns]

theorem listsBuildable_iff (w : World) (outdated : Bool) :
    ListsBuildable w outdated ↔ (∀ pn ∈ w.tmpls, Complete w pn) ∧
      ∀ pn, Candidate w outdated pn → ¬ Broken w pn →
        Searchable w pn ∧ (InRepo w pn → ¬ ReachesBroken w pn) := by
  have hloop := foldlM_modStep w outdated w.tmpls []
  constructor
  · intro h
    obtain ⟨fuel, l, hreturns, hexact⟩ := h
    obtain ⟨vers, hvers, hlist⟩ := getUnbuilt_returns.mp hreturns
    obtain ⟨hcomplete, hmem⟩ := hloop.1 vers hvers
    obtain ⟨hsound, hfvers, -⟩ := getTmpls_spec w vers
    obtain ⟨hlisted, hends⟩ := listBuildable_spec hsound hlist
    refine ⟨hcomplete, ?_⟩
    intro pn hcand hno
    have hpn : pn ∈ (getTmpls w vers).1 := (hfvers pn).mpr ⟨(hmem pn).mpr (Or.inr hcand), hno⟩
    refine ⟨(hends pn hpn).searchable, ?_⟩
    intro hrepo
    exact ((hexact pn).mp ((hlisted pn).mpr ⟨hpn, not_bad_of_inRepo hrepo⟩)).2.2
  · intro h
    obtain ⟨hcomplete, hsearch⟩ := h
    obtain ⟨vers, hvers⟩ := hloop.2 hcomplete
    have hmem := (hloop.1 vers hvers).2
    obtain ⟨hsound, hfvers, hsome⟩ := getTmpls_spec w vers
    have hcand : ∀ pn, pn ∈ vers ↔ Candidate w outdated pn := by
      intro pn
      rw [hmem]
      simp [Candidate]
    have hready : ∀ pn ∈ (getTmpls w vers).1, ((getTmpls w vers).2.tmpls.get pn).isSome = true ∧
        ¬ Broken w pn ∧ Searchable w pn := by
      intro pn hpn
      obtain ⟨hin, hno⟩ := (hfvers pn).mp hpn
      exact ⟨hsome pn hin, hno, (hsearch pn ((hcand pn).mp hin) hno).1⟩
    obtain ⟨l, hlist⟩ := listBuildable_returns (w.tmpls.toFinset.card + 1)
      (Nat.lt_succ_self _) hsound hready
    refine ⟨_, l, getUnbuilt_returns.mpr ⟨vers, hvers, hlist⟩, ?_⟩
    intro pn
    rw [(listBuildable_spec hsound hlist).1, hfvers, hcand, and_assoc]
    apply and_congr_right
    intro hc
    apply and_congr_right
    intro hno
    by_cases hrepo : InRepo w pn
    · exact iff_of_true (not_bad_of_inRepo hrepo) ((hsearch pn hc hno).2 hrepo)
    · rw [bad_iff_reachesBroken hno hrepo]

/-! ### Concrete listings -/

/-- Templates of version 1 with the given dependencies, and nothing in the repository. -/
def versionOne (tmpls : List Str) (pkgrel : Option (Option Str)) (deps : Str → List Str) : World where
  tmpls := tmpls
  indexes := []
  rawMod := fun pn => .ok ⟨some (pn.drop 5), some (some "1".toList), pkgrel⟩
  initFromMod := fun pn => .ok ⟨pn.drop 5, "1".toList, "0".toList, false, .ok (deps pn)⟩

def mainA : Str := "main/a".toList

def mainB : Str := "main/b".toList

section

variable (tmpls : List Str) (pkgrel : Option (Option Str)) (deps : Str → List Str) (pn : Str)

theorem versionOne_read : (versionOne tmpls pkgrel deps).read pn =
    if tmpls.contains pn then
      .tmpl ⟨pn.drop 5, "1".toList, "0".toList, false, .ok (deps pn)⟩ else .done := rfl

theorem versionOne_expands : (versionOne tmpls pkgrel deps).expands pn =
    if tmpls.contains pn then some (.ok (deps pn)) else none := by
  unfold World.expands
  rw [versionOne_read]
  by_cases h : tmpls.contains pn
  · rw [if_pos h, if_pos h]
    rfl
  · rw [if_neg h, if_neg h]

theorem versionOne_not_broken : ¬ Broken (versionOne tmpls pkgrel deps) pn := by
  unfold Broken
  rw [versionOne_read]
  split <;> exact Entry.noConfusion

end

def mainC : Str := "main/c".toList

def mainD : Str := "main/d".toList

/-- `main/a` depends on `main/b` and that on `main/c`, which is broken; `main/d` depends on
nothing. -/
def brokenEnd : World :=
  let deps (pn : Str) := if pn = mainA then [mainB] else if pn = mainB then [mainC] else []
  { versionOne [mainA, mainB, mainC, mainD] (some (some "0".toList)) deps with
    initFromMod := fun pn => .ok ⟨pn.drop 5, "1".toList, "0".toList, pn == mainC, .ok (deps pn)⟩ }

theorem brokenEnd_expands {n : Str} {deps : Except Exn (List Str)}
    (h : brokenEnd.expands n = some deps) :
    (n = mainA ∧ deps = .ok [mainB]) ∨ (n = mainB ∧ deps = .ok [mainC]) ∨ deps = .ok [] := by
  by_cases hn : n ∈ [mainA, mainB, mainC, mainD]
  · have hcases : n = mainA ∨ n = mainB ∨ n = mainC ∨ n = mainD := by simpa using hn
    rcases hcases with rfl | rfl | rfl | rfl
    · cases h
      exact .inl ⟨rfl, rfl⟩
    · cases h
      exact .inr (.inl ⟨rfl, rfl⟩)
    · cases h
    · cases h
      exact .inr (.inr rfl)
  · have hread : brokenEnd.read n = .done := if_neg (mt List.contains_iff_mem.mp hn)
    unfold World.expands at h
    rw [hread] at h
    cases h

/-- What is broken is not followed. -/
theorem brokenEnd_follows {n d : Str} (h : Follows brokenEnd n d) : n = mainA ∧ d = mainB := by
  obtain ⟨ds, hds, hd⟩ := h
  rcases brokenEnd_expands hds with ⟨rfl, heq⟩ | ⟨rfl, heq⟩ | heq
  · cases heq
    rcases hd with ⟨rfl, -⟩ | ⟨-, hnil⟩
    · exact ⟨rfl, rfl⟩
    · exact hnil.elim
  · cases heq
    rcases hd with ⟨rfl, hno⟩ | ⟨-, hnil⟩
    · exact absurd rfl hno
    · exact hnil.elim
  · cases heq
    exact hd.elim

/-- Only `main/d` is listed. -/
theorem listsBuildable_brokenEnd : ListsBuildable brokenEnd false := by
  apply (listsBuildable_iff _ _).mpr
  constructor
  · intro pn _
    exact ⟨_, _, _, rfl⟩
  · intro pn _ _
    constructor
    · intro n _
      constructor
      · intro e he
        rcases brokenEnd_expands he with ⟨_, heq⟩ | ⟨_, heq⟩ | heq
        · cases heq
        · cases heq
        · cases heq
      · intro hcycle
        obtain ⟨d, hfirst, -⟩ := Relation.TransGen.head'_iff.mp hcycle
        obtain ⟨d', -, hlast⟩ := Relation.TransGen.tail'_iff.mp hcycle
        have hsame := (brokenEnd_follows hfirst).1.symm.trans (brokenEnd_follows hlast).2
        exact absurd hsame (by decide)
    · intro hrepo
      obtain ⟨t, -, ht⟩ := hrepo
      cases ht

/-- `main/a` and `main/b` depend on each other. -/
def mutualDeps : World :=
  versionOne [mainA, mainB] (some (some "0".toList)) fun pn => if pn = mainA then [mainB] else [mainA]

theorem mutualDeps_follows : Follows mutualDeps mainA mainB ∧ Follows mutualDeps mainB mainA :=
  ⟨⟨[mainB], by unfold mutualDeps; rw [versionOne_expands]; decide,
      Or.inl ⟨rfl, versionOne_not_broken _ _ _ _⟩⟩,
    ⟨[mainA], by unfold mutualDeps; rw [versionOne_expands]; decide,
      Or.inl ⟨rfl, versionOne_not_broken _ _ _ _⟩⟩⟩

/-- Neither a template without `pkgrel` nor a cycle lets the listing get to its end. -/
theorem abort_not_listsBuildable :
    ¬ ListsBuildable (versionOne [mainA] none fun _ => []) false ∧
      ¬ ListsBuildable mutualDeps false := by
  constructor
  · intro h
    obtain ⟨fuel, l, hreturns, -⟩ := h
    obtain ⟨vers, hvers, -⟩ := getUnbuilt_returns.mp hreturns
    nomatch hvers
  · intro h
    obtain ⟨fuel, l, hreturns, -⟩ := h
    obtain ⟨vers, hvers, hlist⟩ := getUnbuilt_returns.mp hreturns
    obtain ⟨hsound, hfvers, -⟩ := getTmpls_spec mutualDeps vers
    have heq : vers = [mainA, mainB] := by
      have hok : mutualDeps.vers false = .ok [mainA, mainB] := by decide
      rw [hok] at hvers
      cases hvers
      rfl
    have hmem : mainA ∈ (getTmpls mutualDeps vers).1 := by
      rw [hfvers, heq]
      exact ⟨List.mem_cons_self, versionOne_not_broken _ _ _ _⟩
    apply ((listBuildable_spec hsound hlist).2 mainA hmem).not_cycle
    exact .tail (.single mutualDeps_follows.1) mutualDeps_follows.2

end Cbuild.Unbuilt
