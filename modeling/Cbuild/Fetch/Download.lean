import Cbuild.Fetch.Prepare
import Mathlib

/-! # What is there when the hook returns

Only what has been downloaded is verified at the end. The rest was right before the
downloads and stays so unless two sources have one name, or a download goes through the file
of another source.
-/

namespace Cbuild.Fetch

open Lib

variable {sha256 : Bytes → Str} {all ss tofetch : List Source} {d d₀ d' : Disk} {s t : Source}

/-! ## Runs -/

/-- Sums are hexadecimal. -/
def Hexadecimal (sha256 : Bytes → Str) : Prop := ∀ b, sha256 b ≠ [] ∧ '_' ∉ sha256 b

theorem sum_eq {b : Bytes} {ck : Str} (h : getCksum sha256 b = some ck) : sha256 b = ck := by
  unfold getCksum at h
  split at h
  · nomatch h
  · exact Option.some.inj h

theorem Matches.ck (hsha : Hexadecimal sha256) (h : Matches sha256 d s) :
    s.ck ≠ [] ∧ '_' ∉ s.ck := by
  obtain ⟨i, -, hsum⟩ := h
  rw [← sum_eq hsum]
  exact hsha _

theorem keysApart (h : ∀ s ∈ all, '_' ∉ s.ck) : KeysApart all := by
  have htake : ∀ s ∈ all, s.key.takeWhile (· ≠ '_') = s.ck ∧
      s.key.dropWhile (· ≠ '_') = '_' :: s.fname := by
    intro s hs
    have hall : ∀ c ∈ s.ck, decide (c ≠ '_') = true := by
      intro c hc
      apply decide_eq_true
      intro heq
      exact h s hs (heq ▸ hc)
    unfold Source.key
    rw [List.takeWhile_append_of_pos hall, List.dropWhile_append_of_pos hall]
    simp
  intro s hs t ht hkey
  obtain ⟨hck, hrest⟩ := htake s hs
  obtain ⟨hck', hrest'⟩ := htake t ht
  rw [hkey] at hck hrest
  exact ⟨(List.cons.inj (hrest.symm.trans hrest')).2, hck.symm.trans hck'⟩

/-! ## A run that downloads -/

theorem Missing.congr (h : Missing sha256 d₀ s) (hagree : NamesAgree all) (hs : s ∈ all)
    (ht : t ∈ all) (hn : s.fname = t.fname) : Missing sha256 d₀ t := by
  have hck := hagree s hs t ht hn
  unfold Missing Matches Cached Source.key at h ⊢
  rwa [← hn, ← hck]

theorem part_ne_fname (t : Source) : t.fname ≠ t.part := by
  intro h
  have hlen := congrArg List.length h
  unfold Source.part at hlen
  rw [List.length_append] at hlen
  have hpos : 0 < ".part".toList.length := by decide
  omega

theorem part_inj (h : s.part = t.part) : s.fname = t.fname := List.append_cancel_right h

/-- The files in `names`, and the inodes behind them, are out of reach of the downloads. -/
structure Safe (tofetch : List Source) (d : Disk) (names : Str → Prop) (p : Pool) : Prop where
  src : ∀ n, names n → p.disk.src n = d.src n
  content : ∀ n, names n → ∀ i, d.src n = some (.file i) → p.disk.content i = d.content i
  phase : ∀ n, names n → ∀ i, d.src n = some (.file i) → ∀ k, p.phase k ≠ .writing i
  parts : ∀ n, names n → ∀ i, d.src n = some (.file i) → ∀ t ∈ tofetch,
    p.disk.src t.part ≠ some (.file i)

theorem Pool.move_phase (p : Pool) (k : Nat) (ph : Phase) (d : Disk) (k' : Nat) :
    (p.move k ph d).phase k' = if k' = k then ph else p.phase k' :=
  Function.update_apply p.phase k ph k'

theorem Disk.setSrc_src (d : Disk) (name : Str) (n : Option Node) (name' : Str) :
    (d.setSrc name n).src name' = if name' = name then n else d.src name' :=
  Function.update_apply d.src name n name'

theorem Disk.setContent_content (d : Disk) (i : Nat) (b : Bytes) (j : Nat) :
    (d.setContent i b).content j = if j = i then b else d.content j :=
  Function.update_apply d.content i b j

/-- The directory after the partial file of `t` has been created. -/
theorem created_src (d : Disk) (t : Source) (i : Nat) (n : Str) :
    ((d.setSrc t.part (some (.file i))).setContent i []).src n =
      if n = t.part then some (.file i) else d.src n :=
  Disk.setSrc_src d t.part (some (.file i)) n

/-- The directory after the partial file of `t` has been renamed. -/
theorem renamed_src (d : Disk) (t : Source) (node : Node) (n : Str) :
    ((d.setSrc t.fname (some node)).setSrc t.part none).src n =
      if n = t.part then none else if n = t.fname then some node else d.src n := by
  rw [Disk.setSrc_src, Disk.setSrc_src]

theorem Safe.step {names : Str → Prop} {p p' : Pool} (h : Safe tofetch d names p)
    (hnames : ∀ n, names n → ∀ t ∈ tofetch, n ≠ t.fname ∧ n ≠ t.part)
    (hstep : FetchStep tofetch p p') : Safe tofetch d names p' := by
  have hmem : ∀ {k : Nat} {t : Source}, tofetch[k]? = some t → t ∈ tofetch :=
    fun h => List.mem_of_getElem? h
  have hphase : ∀ n, names n → ∀ i, d.src n = some (.file i) → ∀ k ph d₁, ph ≠ .writing i →
      ∀ k', (p.move k ph d₁).phase k' ≠ .writing i := by
    intro n hn i hi k ph d₁ hph k'
    rw [Pool.move_phase]
    split
    · exact hph
    · exact h.phase n hn i hi k'
  cases hstep with
  | openFile k t i ht hk hpart =>
      refine ⟨h.src, h.content, ?_, h.parts⟩
      intro n hn j hj
      apply hphase n hn j hj
      intro heq
      cases heq
      exact h.parts n hn i hj t (hmem ht) hpart
  | create k t i ht hk hpart hi =>
      have hne : ∀ n, names n → ∀ j, d.src n = some (.file j) → j ≠ i := by
        intro n hn j hj heq
        subst heq
        exact hi.src n ((h.src n hn).trans hj)
      refine ⟨?_, ?_, ?_, ?_⟩
      · intro n hn
        exact (created_src p.disk t i n).trans ((if_neg (hnames n hn t (hmem ht)).2).trans (h.src n hn))
      · intro n hn j hj
        show ((p.disk.setSrc t.part (some (.file i))).setContent i []).content j = d.content j
        rw [Disk.setContent_content, if_neg (hne n hn j hj)]
        exact h.content n hn j hj
      · intro n hn j hj
        apply hphase n hn j hj
        intro heq
        cases heq
        exact hne n hn i hj rfl
      · intro n hn j hj t' ht'
        show ((p.disk.setSrc t.part (some (.file i))).setContent i []).src t'.part ≠ some (.file j)
        rw [created_src]
        split
        · intro heq
          cases heq
          exact hne n hn i hj rfl
        · exact h.parts n hn j hj t' ht'
  | write k i b hk =>
      refine ⟨h.src, ?_, h.phase, h.parts⟩
      intro n hn j hj
      show (p.disk.setContent i b).content j = d.content j
      rw [Disk.setContent_content, if_neg]
      · exact h.content n hn j hj
      · intro heq
        subst heq
        exact h.phase n hn j hj k hk
  | rename k t i n ht hk hpart hname =>
      split
      · refine ⟨h.src, h.content, ?_, h.parts⟩
        intro m hm j hj
        exact hphase m hm j hj k .fetched _ nofun
      · refine ⟨?_, h.content, ?_, ?_⟩
        · intro m hm
          show ((p.disk.setSrc t.fname (some n)).setSrc t.part none).src m = d.src m
          rw [renamed_src, if_neg (hnames m hm t (hmem ht)).2, if_neg (hnames m hm t (hmem ht)).1]
          exact h.src m hm
        · intro m hm j hj
          exact hphase m hm j hj k .fetched _ nofun
        · intro m hm j hj t' ht'
          show ((p.disk.setSrc t.fname (some n)).setSrc t.part none).src t'.part ≠ some (.file j)
          rw [renamed_src]
          split
          · exact nofun
          · split
            · rw [← hpart]
              exact h.parts m hm j hj t (hmem ht)
            · exact h.parts m hm j hj t' ht'

theorem Safe.run {names : Str → Prop} {p p' : Pool} (h : Safe tofetch d names p)
    (hnames : ∀ n, names n → ∀ t ∈ tofetch, n ≠ t.fname ∧ n ≠ t.part)
    (hrun : Relation.ReflTransGen (FetchStep tofetch) p p') : Safe tofetch d names p' := by
  induction hrun with
  | refl => exact h
  | tail _ hstep ih => exact ih.step hnames hstep

/-- While a source `x` is downloaded, its partial file is there only until all that download to
`x` have renamed it. -/
structure Passing (tofetch : List Source) (x y : Str) (p : Pool) : Prop where
  apart : ∀ i, p.disk.src x = some (.file i) → p.disk.src y ≠ some (.file i)
  passing : p.disk.src y = none ∨
    ∃ k u, tofetch[k]? = some u ∧ u.fname = x ∧ p.phase k ≠ .fetched

/-- A download to `x` goes on while another thread moves, or one that has not fetched. -/
theorem underway_move {p : Pool} {x : Str} {k : Nat} {u : Source} (hu : tofetch[k]? = some u)
    {ph : Phase} (hne : u.fname = x → ph ≠ .fetched) (d : Disk)
    (h : ∃ k u, tofetch[k]? = some u ∧ u.fname = x ∧ p.phase k ≠ .fetched) :
    ∃ k' u, tofetch[k']? = some u ∧ u.fname = x ∧ (p.move k ph d).phase k' ≠ .fetched := by
  obtain ⟨k', v, hv, hname, hk'⟩ := h
  refine ⟨k', v, hv, hname, ?_⟩
  rw [Pool.move_phase]
  split
  · rename_i heq
    rw [heq, hu] at hv
    cases hv
    exact hne hname
  · exact hk'

theorem Passing.create {p : Pool} (h : Passing tofetch t.fname t.part p) {k i : Nat} {u : Source}
    (hu : tofetch[k]? = some u) (hi : p.Fresh i) : Passing tofetch t.fname t.part
      (p.move k (.writing i) ((p.disk.setSrc u.part (some (.file i))).setContent i [])) := by
  constructor
  · intro j hx hy
    have hx' := (created_src p.disk u i t.fname).symm.trans hx
    have hy' := (created_src p.disk u i t.part).symm.trans hy
    split at hx'
    · cases hx'
      split at hy'
      · rename_i hxu hyu
        exact part_ne_fname t (hxu.trans hyu.symm)
      · exact hi.src _ hy'
    · split at hy'
      · cases hy'
        exact hi.src _ hx'
      · exact h.apart j hx' hy'
  · by_cases hpu : t.part = u.part
    · apply Or.inr
      refine ⟨k, u, hu, (part_inj hpu).symm, ?_⟩
      rw [Pool.move_phase, if_pos rfl]
      exact nofun
    · rcases h.passing with hnone | hex
      · apply Or.inl
        show ((p.disk.setSrc u.part (some (.file i))).setContent i []).src t.part = none
        rw [created_src, if_neg hpu]
        exact hnone
      · have hwriting : Phase.writing i ≠ .fetched := nofun
        exact Or.inr (underway_move hu (fun _ => hwriting) _ hex)

theorem Passing.rename {p : Pool} (h : Passing tofetch t.fname t.part p) {k : Nat} {u : Source}
    {n : Node} (hu : tofetch[k]? = some u) (hy : t.part ≠ u.fname) : Passing tofetch t.fname t.part
      (p.move k .fetched ((p.disk.setSrc u.fname (some n)).setSrc u.part none)) := by
  by_cases hpu : t.part = u.part
  · have hgone : ((p.disk.setSrc u.fname (some n)).setSrc u.part none).src t.part = none := by
      rw [renamed_src, if_pos hpu]
    refine ⟨?_, Or.inl hgone⟩
    intro j _ hy
    have := hgone.symm.trans hy
    nomatch this
  · have hne : u.fname ≠ t.fname := by
      intro heq
      apply hpu
      unfold Source.part
      rw [heq]
    have hstays : ((p.disk.setSrc u.fname (some n)).setSrc u.part none).src t.part =
        p.disk.src t.part := by
      rw [renamed_src, if_neg hpu, if_neg hy]
    constructor
    · intro j hx
      have hx' := (renamed_src p.disk u n t.fname).symm.trans hx
      split at hx'
      · nomatch hx'
      · rw [if_neg hne.symm] at hx'
        show ((p.disk.setSrc u.fname (some n)).setSrc u.part none).src t.part ≠ some (.file j)
        rw [hstays]
        exact h.apart j hx'
    · rcases h.passing with hnone | hex
      · exact Or.inl (hstays.trans hnone)
      · exact Or.inr (underway_move hu (fun heq => absurd heq hne) _ hex)

theorem Passing.step {p p' : Pool} (h : Passing tofetch t.fname t.part p)
    (hnames : ∀ u ∈ tofetch, u.fname ≠ t.part) (hstep : FetchStep tofetch p p') :
    Passing tofetch t.fname t.part p' := by
  cases hstep with
  | openFile k u i hu hk hpart =>
      have hwriting : Phase.writing i ≠ .fetched := nofun
      exact ⟨h.apart, h.passing.imp_right (underway_move hu (fun _ => hwriting) _)⟩
  | create k u i hu hk hpart hi => exact h.create hu hi
  | write k i b hk => exact ⟨h.apart, h.passing⟩
  | rename k u i n hu hk hpart hname =>
      split
      · -- the file stays where it is, which is not what happens to `x`
        rename_i hsame
        have hne : u.fname ≠ t.fname := by
          intro heq
          have hpu : u.part = t.part := by
            unfold Source.part
            rw [heq]
          cases n with
          | other => exact hname hsame
          | file j =>
              rw [heq] at hsame
              rw [hpu] at hpart
              exact h.apart j hsame hpart
        refine ⟨h.apart, h.passing.imp_right ?_⟩
        exact underway_move hu (fun heq => absurd heq hne) _
      · exact h.rename hu fun heq => hnames u (List.mem_of_getElem? hu) heq.symm

theorem Passing.run {p p' : Pool} (h : Passing tofetch t.fname t.part p)
    (hnames : ∀ u ∈ tofetch, u.fname ≠ t.part)
    (hrun : Relation.ReflTransGen (FetchStep tofetch) p p') :
    Passing tofetch t.fname t.part p' := by
  induction hrun with
  | refl => exact h
  | tail _ hstep ih => exact ih.step hnames hstep

/-! ## The hook -/

/-- Each source's file is there and has exactly the declared sum. -/
def Exact (sha256 : Bytes → Str) (all : List Source) (d : Disk) : Prop :=
  ∀ s ∈ all, ∃ i, d.src s.fname = some (.file i) ∧ sha256 (d.content i) = s.ck

theorem Exact.namesAgree (h : Exact sha256 all d') : NamesAgree all := by
  intro s hs t ht hn
  obtain ⟨i, hi, hsum⟩ := h s hs
  obtain ⟨j, hj, hsum'⟩ := h t ht
  rw [hn, hj] at hi
  cases hi
  exact hsum.symm.trans hsum'

/-- Whatever the servers deliver, if the hook returns every file is right. -/
def Sound (sha256 : Bytes → Str) (pkg : Pkg) (d₀ : Disk) : Prop :=
  ∀ all, pkg.sources = some all → ∀ d', Invokes sha256 all d₀ d' → Exact sha256 all d'

def Returns (sha256 : Bytes → Str) (pkg : Pkg) (d₀ : Disk) (all : List Source) : Prop :=
  pkg.sources = some all ∧ ∃ d', Invokes sha256 all d₀ d'

/-- The sum of "a". -/
def sumA : Str := "ca978112ca1bbdcafac231b39a23dc4da786eff8147c4e72b9807785afee48bb".toList

/-- The sum of "b". -/
def sumB : Str := "3e23e8160039594a33894f6564e1b1348bbd7a0088d42c4acb73eeaed59c009d".toList

def sums (b : Bytes) : Str := if b = [97] then sumA else if b = [98] then sumB else emptySha256

def archive (host : String) : Str := ("https://" ++ host ++ "/v1.tar.gz").toList

end Cbuild.Fetch
