import Cbuild.Fetch.Sources

/-! # What is there before the downloads

The first loop leaves the files that are right for every source of their name, the second
links what the cache has. What remains is exactly what neither had, once the sums tell the
entries of the cache apart.
-/

namespace Cbuild.Fetch

open Lib

/-- The postcondition of a run that does not raise. -/
abbrev Hook.Ensures {α : Type} (x : Hook α) (d : Disk) (Q : α → Disk → Prop) : Prop :=
  wp x Q (fun _ _ => True) d

theorem Hook.Ensures.of_ok {α : Type} {x : Hook α} {d d' : Disk} {Q : α → Disk → Prop} {a : α}
    (h : x.Ensures d Q) (hx : x.run d = .ok a d') : Q a d' :=
  (wp_of_ok hx).mp h

def IsFile (n : Option Node) : Prop := ∃ i, n = some (.file i)

variable (sha256 : Bytes → Str)

/-- The file of the source has the declared sum. -/
def Matches (d : Disk) (s : Source) : Prop :=
  ∃ i, d.src s.fname = some (.file i) ∧ getCksum sha256 (d.content i) = some s.ck

/-- The entry of the source in the cache has it. -/
def Cached (d : Disk) (s : Source) : Prop :=
  ∃ i, d.cache s.key = some (.file i) ∧ getCksum sha256 (d.content i) = some s.ck

/-- Neither is there. -/
def Missing (d : Disk) (s : Source) : Prop := ¬ Matches sha256 d s ∧ ¬ Cached sha256 d s

variable {sha256} {d d₀ : Disk} {s : Source}

/-! ## One source -/

theorem makeLink_spec (d : Disk) (s : Source) : (makeLink s).Ensures d fun _ d' =>
    ∃ i, d.src s.fname = some (.file i) ∧ d' = d.setCache s.key (some (.file i)) := by
  unfold makeLink Hook.Ensures
  rw [wp_bind, wp_get]
  split
  · rename_i i hi _
    exact ⟨i, hi, rfl⟩
  · rename_i i j hi hj
    rw [wp_ite]
    constructor
    · intro _
      exact ⟨i, hi, rfl⟩
    · intro hij
      have hji : j = i := not_not.mp hij
      refine ⟨i, hi, ?_⟩
      unfold Disk.setCache
      rw [← hji, ← hj, Function.update_eq_self]
  · trivial

theorem checkFile_spec (d : Disk) (s : Source) : (checkFile sha256 s).Ensures d fun b d' =>
    (b = true ∧ ∃ i, d.src s.fname = some (.file i) ∧ getCksum sha256 (d.content i) = some s.ck ∧
        d' = d.setCache s.key (some (.file i))) ∨
      (b = false ∧ ¬ Matches sha256 d s ∧
        (IsFile (d.src s.fname) ∧ d' = d.setSrc s.fname none ∨
          ¬ IsFile (d.src s.fname) ∧ d' = d)) := by
  unfold checkFile Hook.Ensures
  rw [wp_bind, wp_get]
  split
  · rename_i i hi
    rw [wp_ite]
    constructor
    · intro hsum
      rw [wp_bind]
      apply wp_mono (makeLink_spec d s)
      · intro _ d' hd'
        obtain ⟨i', hi', rfl⟩ := hd'
        rw [hi] at hi'
        cases hi'
        exact Or.inl ⟨rfl, i, hi, hsum, rfl⟩
      · exact fun _ _ _ => trivial
    · intro hsum
      refine Or.inr ⟨rfl, ?_, Or.inl ⟨⟨i, hi⟩, rfl⟩⟩
      intro hmatch
      obtain ⟨i', hi', hsum'⟩ := hmatch
      rw [hi] at hi'
      cases hi'
      exact hsum hsum'
  · rename_i hno
    have hfile : ¬ IsFile (d.src s.fname) := fun h => hno h.choose h.choose_spec
    refine Or.inr ⟨rfl, ?_, Or.inr ⟨hfile, rfl⟩⟩
    intro hmatch
    exact hfile ⟨hmatch.choose, hmatch.choose_spec.1⟩

/-- What `link_cksum` does: the file is there, or the cache has it, or it is left to be fetched,
in the last case after a corrupt entry of the cache has been removed. -/
inductive LinkCase (sha256 : Bytes → Str) (d : Disk) (s : Source) : Bool → Disk → Prop
  | kept (h : IsFile (d.src s.fname)) : LinkCase sha256 d s true d
  | linked (j : Nat) (hname : d.src s.fname = none) (hj : d.cache s.key = some (.file j))
      (hsum : getCksum sha256 (d.content j) = some s.ck) :
      LinkCase sha256 d s true (d.setSrc s.fname (some (.file j)))
  | left (hname : ¬ IsFile (d.src s.fname)) (hcache : ¬ IsFile (d.cache s.key) ∨ s.ck = []) :
      LinkCase sha256 d s false d
  | corrupt (hname : d.src s.fname = none) (hcache : ¬ Cached sha256 d s) :
      LinkCase sha256 d s false (d.setCache s.key none)

section

variable {all ss done : List Source}

/-- The state after `done` have been checked: files that do not match are gone, and matching ones
have entries in the cache. -/
structure Checked (sha256 : Bytes → Str) (all : List Source) (d₀ : Disk) (done : List Source)
    (d : Disk) : Prop where
  content : d.content = d₀.content
  src : ∀ n, d.src n = d₀.src n ∨
    (d.src n = none ∧ ∃ s ∈ all, s.fname = n ∧ ¬ Matches sha256 d₀ s)
  cache : ∀ k, d.cache k = d₀.cache k ∨
    ∃ s ∈ all, s.key = k ∧ Matches sha256 d₀ s ∧ d.cache k = d₀.src s.fname
  done : ∀ s ∈ done, Matches sha256 d₀ s ∨ ¬ IsFile (d.src s.fname)

theorem Checked.start (sha256 : Bytes → Str) (all : List Source) (d₀ : Disk) :
    Checked sha256 all d₀ [] d₀ :=
  ⟨rfl, fun _ => Or.inl rfl, fun _ => Or.inl rfl, by simp⟩

/-- A file that is still there is the one that was there. -/
theorem Checked.src_of_file (h : Checked sha256 all d₀ done d) {n : Str} {i : Nat}
    (hi : d.src n = some (.file i)) : d₀.src n = some (.file i) := by
  rcases h.src n with heq | ⟨hnone, -⟩
  · rw [← heq, hi]
  · rw [hi] at hnone
    nomatch hnone

theorem Checked.matches (h : Checked sha256 all d₀ done d) (hm : Matches sha256 d s) :
    Matches sha256 d₀ s := by
  obtain ⟨i, hi, hsum⟩ := hm
  rw [h.content] at hsum
  exact ⟨i, h.src_of_file hi, hsum⟩

theorem Checked.step (h : Checked sha256 all d₀ done d) (hs : s ∈ all) :
    (checkFile sha256 s).Ensures d fun b d' =>
      Checked sha256 all d₀ (done ++ [s]) d' ∧ (b = true → Matches sha256 d₀ s) := by
  apply wp_mono (checkFile_spec d s)
  · intro b d' hd'
    rcases hd' with ⟨rfl, i, hi, hsum, rfl⟩ | ⟨rfl, hno, hd'⟩
    · have hm : Matches sha256 d₀ s := h.matches ⟨i, hi, hsum⟩
      refine ⟨⟨h.content, h.src, ?_, ?_⟩, fun _ => hm⟩
      · intro k
        by_cases hk : k = s.key
        · subst hk
          refine Or.inr ⟨s, hs, rfl, hm, ?_⟩
          rw [h.src_of_file hi]
          exact Function.update_self _ _ _
        · rw [show (d.setCache s.key (some (.file i))).cache k = d.cache k from
            Function.update_of_ne hk _ _]
          exact h.cache k
      · intro t ht
        rcases List.mem_append.mp ht with ht | ht
        · exact h.done t ht
        · rw [List.mem_singleton.mp ht]
          exact Or.inl hm
    · rcases hd' with ⟨hfile, rfl⟩ | ⟨hfile, rfl⟩
      · have hno₀ : ¬ Matches sha256 d₀ s := by
          intro hm
          obtain ⟨i, hi⟩ := hfile
          obtain ⟨i', hi', hsum⟩ := hm
          rw [h.src_of_file hi] at hi'
          cases hi'
          rw [← h.content] at hsum
          exact hno ⟨i, hi, hsum⟩
        have hgone : (d.setSrc s.fname none).src s.fname = none := Function.update_self _ _ _
        have hrest : ∀ n, n ≠ s.fname → (d.setSrc s.fname none).src n = d.src n :=
          fun n hn => Function.update_of_ne hn _ _
        refine ⟨⟨h.content, ?_, h.cache, ?_⟩, nofun⟩
        · intro n
          by_cases hn : n = s.fname
          · subst hn
            exact Or.inr ⟨hgone, s, hs, rfl, hno₀⟩
          · rw [hrest n hn]
            exact h.src n
        · intro t ht
          by_cases hn : t.fname = s.fname
          · apply Or.inr
            rw [hn, hgone]
            exact nofun
          · rcases List.mem_append.mp ht with ht | ht
            · rw [hrest _ hn]
              exact h.done t ht
            · rw [List.mem_singleton.mp ht] at hn
              exact absurd rfl hn
      · refine ⟨⟨h.content, h.src, h.cache, ?_⟩, nofun⟩
        intro t ht
        rcases List.mem_append.mp ht with ht | ht
        · exact h.done t ht
        · rw [List.mem_singleton.mp ht]
          exact Or.inr hfile
  · exact fun _ _ _ => trivial

/-- Sources of one name have one sum. -/
def NamesAgree (all : List Source) : Prop :=
  ∀ s ∈ all, ∀ t ∈ all, s.fname = t.fname → s.ck = t.ck

/-- A file of a source's name matches the source. -/
def Right (sha256 : Bytes → Str) (all : List Source) (d : Disk) : Prop :=
  ∀ s ∈ all, IsFile (d.src s.fname) → Matches sha256 d s

theorem Checked.right (h : Checked sha256 all d₀ all d) : Right sha256 all d := by
  intro s hs hfile
  obtain ⟨i, hi⟩ := hfile
  rcases h.done s hs with hm | hno
  · obtain ⟨i', hi', hsum⟩ := hm
    rw [h.src_of_file hi] at hi'
    cases hi'
    rw [← h.content] at hsum
    exact ⟨i, hi, hsum⟩
  · exact absurd ⟨i, hi⟩ hno

theorem Right.step (hagree : NamesAgree all) (h : Right sha256 all d) (hs : s ∈ all) {b : Bool}
    {d' : Disk} (hcase : LinkCase sha256 d s b d') :
    Right sha256 all d' ∧ (b = true → IsFile (d'.src s.fname)) ∧
      ∀ n, IsFile (d.src n) → IsFile (d'.src n) := by
  cases hcase with
  | kept hfile => exact ⟨h, fun _ => hfile, fun _ => id⟩
  | left _ _ => exact ⟨h, nofun, fun _ => id⟩
  | corrupt _ _ => exact ⟨h, nofun, fun _ => id⟩
  | linked j hname hj hsum =>
      have hself : (d.setSrc s.fname (some (.file j))).src s.fname = some (.file j) :=
        Function.update_self _ _ _
      have hrest : ∀ n, n ≠ s.fname → (d.setSrc s.fname (some (.file j))).src n = d.src n :=
        fun n hn => Function.update_of_ne hn _ _
      refine ⟨?_, fun _ => ⟨j, hself⟩, ?_⟩
      · intro t ht hfile
        by_cases hn : t.fname = s.fname
        · refine ⟨j, ?_, ?_⟩
          · rw [hn]
            exact hself
          · rw [hagree t ht s hs hn]
            exact hsum
        · rw [hrest _ hn] at hfile
          obtain ⟨i, hi, hsum'⟩ := h t ht hfile
          exact ⟨i, (hrest _ hn).trans hi, hsum'⟩
      · intro n hfile
        by_cases hn : n = s.fname
        · exact ⟨j, hn ▸ hself⟩
        · rw [hrest n hn]
          exact hfile

/-- No two sources share an entry of the cache. -/
def KeysApart (all : List Source) : Prop :=
  ∀ s ∈ all, ∀ t ∈ all, s.key = t.key → s.fname = t.fname ∧ s.ck = t.ck

theorem Matches.congr {t : Source} (h : Matches sha256 d s) (hn : s.fname = t.fname)
    (hck : s.ck = t.ck) : Matches sha256 d t := by
  unfold Matches at h ⊢
  rwa [hn, hck] at h

/-- The state while files are linked, in terms of what was there at first. -/
structure Linked (sha256 : Bytes → Str) (all : List Source) (d₀ d : Disk) : Prop where
  content : d.content = d₀.content
  others : ∀ n, (∀ s ∈ all, s.fname ≠ n) → d.src n = d₀.src n
  present : ∀ s ∈ all, Matches sha256 d₀ s → d.src s.fname = d₀.src s.fname
  absent : ∀ s ∈ all, ¬ Matches sha256 d₀ s → ¬ IsFile (d.src s.fname) ∨
    (Cached sha256 d₀ s ∧ d.src s.fname = d₀.cache s.key)
  cache : ∀ s ∈ all, ¬ Matches sha256 d₀ s → d.cache s.key = d₀.cache s.key ∨
    (d.cache s.key = none ∧ ¬ Cached sha256 d₀ s)

theorem Checked.linked (hagree : NamesAgree all) (hkeys : KeysApart all)
    (h : Checked sha256 all d₀ all d) : Linked sha256 all d₀ d where
  content := h.content
  others := by
    intro n hn
    rcases h.src n with heq | ⟨-, s, hs, hname, -⟩
    · exact heq
    · exact absurd hname (hn s hs)
  present := by
    intro s hs hm
    rcases h.src s.fname with heq | ⟨-, t, ht, hname, hno⟩
    · exact heq
    · exact absurd (hm.congr hname.symm (hagree s hs t ht hname.symm)) hno
  absent := by
    intro s hs hno
    exact Or.inl ((h.done s hs).resolve_left hno)
  cache := by
    intro s hs hno
    rcases h.cache s.key with heq | ⟨t, ht, hkey, hm, -⟩
    · exact Or.inl heq
    · obtain ⟨hname, hck⟩ := hkeys t ht s hs hkey
      exact absurd (hm.congr hname hck) hno

theorem Linked.not_missing (h : Linked sha256 all d₀ d) (hs : s ∈ all)
    (hfile : IsFile (d.src s.fname)) : ¬ Missing sha256 d₀ s := by
  intro hmiss
  rcases h.absent s hs hmiss.1 with hno | hcached
  · exact hno hfile
  · exact hmiss.2 hcached.1

theorem Linked.not_matches (h : Linked sha256 all d₀ d) (hs : s ∈ all)
    (hno : ¬ IsFile (d.src s.fname)) : ¬ Matches sha256 d₀ s := by
  intro hm
  apply hno
  rw [h.present s hs hm]
  exact ⟨hm.choose, hm.choose_spec.1⟩

/-- A file of the cache that does not match is removed. -/
theorem Linked.removed (hkeys : KeysApart all) (h : Linked sha256 all d₀ d) (hs : s ∈ all)
    (hmiss : ¬ Cached sha256 d₀ s) : Linked sha256 all d₀ (d.setCache s.key none) := by
  refine ⟨h.content, h.others, h.present, h.absent, ?_⟩
  intro t ht hnot
  by_cases hk : t.key = s.key
  · obtain ⟨hn, hc⟩ := hkeys t ht s hs hk
    apply Or.inr
    constructor
    · rw [hk]
      exact Function.update_self _ _ _
    · unfold Cached at hmiss ⊢
      rwa [hk, hc]
  · rw [show (d.setCache s.key none).cache t.key = d.cache t.key from
      Function.update_of_ne hk _ _]
    exact h.cache t ht hnot

/-- A source is linked to its file in the cache. -/
theorem Linked.link (hagree : NamesAgree all) (h : Linked sha256 all d₀ d) (hs : s ∈ all)
    (hno : ¬ Matches sha256 d₀ s) (hcached : Cached sha256 d₀ s) {j : Nat}
    (hj : d₀.cache s.key = some (.file j)) :
    Linked sha256 all d₀ (d.setSrc s.fname (some (.file j))) := by
  have hself : (d.setSrc s.fname (some (.file j))).src s.fname = some (.file j) :=
    Function.update_self _ _ _
  have hrest : ∀ n, n ≠ s.fname → (d.setSrc s.fname (some (.file j))).src n = d.src n :=
    fun n hn => Function.update_of_ne hn _ _
  refine ⟨h.content, ?_, ?_, ?_, h.cache⟩
  · intro n hn
    rw [hrest n (hn s hs).symm]
    exact h.others n hn
  · intro t ht hm
    by_cases hn : t.fname = s.fname
    · exact absurd (hm.congr hn (hagree t ht s hs hn)) hno
    · rw [hrest _ hn]
      exact h.present t ht hm
  · intro t ht hnot
    by_cases hn : t.fname = s.fname
    · have hkey : t.key = s.key := by
        unfold Source.key
        rw [hn, hagree t ht s hs hn]
      apply Or.inr
      constructor
      · unfold Cached
        rw [hkey, hagree t ht s hs hn]
        exact hcached
      · rw [hn, hself, hkey, hj]
    · rw [hrest _ hn]
      exact h.absent t ht hnot

/-- A source is left exactly when it is missing, unless its sum is empty. -/
theorem Linked.step (hagree : NamesAgree all) (hkeys : KeysApart all) (hck : s.ck ≠ [])
    (h : Linked sha256 all d₀ d) (hs : s ∈ all) {b : Bool} {d' : Disk}
    (hcase : LinkCase sha256 d s b d') :
    Linked sha256 all d₀ d' ∧ (b = false ↔ Missing sha256 d₀ s) := by
  cases hcase with
  | kept hf => exact ⟨h, iff_of_false nofun (h.not_missing hs hf)⟩
  | left hname hcache =>
      have hno := h.not_matches hs hname
      refine ⟨h, iff_of_true rfl ⟨hno, ?_⟩⟩
      intro hcached
      rcases h.cache s hs hno with heq | ⟨-, hnot⟩
      · apply (hcache.resolve_right hck)
        rw [heq]
        exact ⟨hcached.choose, hcached.choose_spec.1⟩
      · exact hnot hcached
  | corrupt hname hcache =>
      have hno : ¬ Matches sha256 d₀ s := h.not_matches hs (by rw [hname]; exact nofun)
      have hmiss : ¬ Cached sha256 d₀ s := by
        intro hcached
        rcases h.cache s hs hno with heq | ⟨-, hnot⟩
        · apply hcache
          unfold Cached
          rw [heq, h.content]
          exact hcached
        · exact hnot hcached
      exact ⟨h.removed hkeys hs hmiss, iff_of_true rfl ⟨hno, hmiss⟩⟩
  | linked j hname hj hsum =>
      have hno : ¬ Matches sha256 d₀ s := h.not_matches hs (by rw [hname]; exact nofun)
      have hcache : d₀.cache s.key = some (.file j) := by
        rcases h.cache s hs hno with heq | ⟨hnone, -⟩
        · rw [← heq, hj]
        · rw [hj] at hnone
          nomatch hnone
      have hcached : Cached sha256 d₀ s := ⟨j, hcache, by rw [← h.content, hsum]⟩
      exact ⟨h.link hagree hs hno hcached hcache, iff_of_false nofun fun hmiss => hmiss.2 hcached⟩

end

end Cbuild.Fetch
