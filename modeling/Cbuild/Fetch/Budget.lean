import Cbuild.Fetch.Progress

/-! # The budget of a download

An attempt that is not the last uses up one of the four retries, unless it is a chunk: a chunk is
counted as no attempt at all. So a download ends unless the chunks never do, and there is nothing in
a chunk that brings it to an end.
-/

namespace Cbuild.Fetch

open Lib

variable {dhdrs hdrs : Headers} {ehdrs : Option Headers} {part : Option Bytes}
  {servers : Nat → Server} {ntry n k : Nat} {s s' : Slot}

/-- The request of step `k`, if `fetch_url` has not returned before. -/
def requestAt (dhdrs : Headers) (ehdrs : Option Headers) (part : Option Bytes)
    (servers : Nat → Server) (k : Nat) : Option (Nat × Slot) :=
  requestOf dhdrs ehdrs part ((List.range k).map servers)

/-- It returns. -/
def Terminates (dhdrs : Headers) (ehdrs : Option Headers) (part : Option Bytes)
    (servers : Nat → Server) : Prop :=
  ∃ k, (fetchUrl dhdrs ehdrs ((List.range k).map servers) 0 (.init part)).isSome = true

/-- A request that another one follows has brought something, or is one of those that are counted. -/
def Counted (dhdrs : Headers) (ehdrs : Option Headers) (part : Option Bytes)
    (servers : Nat → Server) : Prop :=
  ∀ k ntry s n s', requestAt dhdrs ehdrs part servers k = some (ntry, s) →
    requestAt dhdrs ehdrs part servers (k + 1) = some (n, s') →
      s.fstatus < s'.fstatus ∨ n = ntry + 1

/-- The request of step `k` is answered with a chunk. -/
def ChunkAt (dhdrs : Headers) (ehdrs : Option Headers) (part : Option Bytes)
    (servers : Nat → Server) (k : Nat) (rqf : Response) : Prop :=
  ∃ hdrs ntry s, deleteNone (updateHeaders dhdrs ehdrs) = some hdrs ∧
    requestAt dhdrs ehdrs part servers k = some (ntry, s) ∧
    servers k ⟨hdrs, some (s.fstatus, s.flens)⟩ = some rqf ∧ Chunk rqf ntry s

theorem requestAt_succ (k : Nat) : requestAt dhdrs ehdrs part servers (k + 1) =
    (requestAt dhdrs ehdrs part servers k).bind fun r =>
      following r.1 (attempt dhdrs ehdrs (servers k) r.1 r.2) := by
  unfold requestAt requestOf
  rw [List.range_succ, List.map_append, requestAfter_append]
  congr 1
  funext r
  rw [List.map_singleton, requestAfter]
  cases following r.1 (attempt dhdrs ehdrs (servers k) r.1 r.2) with
  | none => rfl
  | some r => rfl

theorem requestAt_le (h : requestAt dhdrs ehdrs part servers k = some (ntry, s)) : ntry ≤ 4 := by
  induction k generalizing ntry s with
  | zero =>
      cases h
      exact Nat.zero_le 4
  | succ k ih =>
      rw [requestAt_succ] at h
      obtain ⟨r, hr, hnext⟩ := Option.bind_eq_some_iff.mp h
      exact (attempt_le (ih hr) hnext).2

/-- Once it has returned it makes no more requests. -/
theorem requestAt_mono {j : Nat} (hle : j ≤ k) (h : requestAt dhdrs ehdrs part servers j = none) :
    requestAt dhdrs ehdrs part servers k = none := by
  induction k, hle using Nat.le_induction with
  | base => exact h
  | succ k _ ih => rw [requestAt_succ, ih, Option.bind_none]

theorem terminates_iff : Terminates dhdrs ehdrs part servers ↔
    ∃ k, requestAt dhdrs ehdrs part servers k = none := by
  apply exists_congr
  intro k
  have hnone : fetchUrl dhdrs ehdrs ((List.range k).map servers) 0 (.init part) = none ↔
      (requestAt dhdrs ehdrs part servers k).isSome = true := fetchUrl_eq_none_iff _ 0 _
  rw [Option.isSome_iff_ne_none, ne_eq, hnone, Option.isSome_iff_ne_none, ne_eq, not_not]

/-! ## What an attempt uses up -/

/-- An attempt that is not the last is counted, or is answered with a chunk. -/
theorem attempt_following {urlopen : Server}
    (h : following ntry (attempt dhdrs ehdrs urlopen ntry s) = some (n, s')) :
    n = ntry + 1 ∨ (n = 1 ∧ ∃ hdrs rqf, deleteNone (updateHeaders dhdrs ehdrs) = some hdrs ∧
      urlopen ⟨hdrs, some (s.fstatus, s.flens)⟩ = some rqf ∧ Chunk rqf ntry s) := by
  cases hhdrs : deleteNone (updateHeaders dhdrs ehdrs) with
  | none =>
      have hraised : attempt dhdrs ehdrs urlopen ntry s = (.raised, s) := by
        unfold attempt
        rw [hhdrs]
      rw [hraised] at h
      exact Or.inl (raised_following h).1
  | some hdrs =>
      cases hresp : urlopen ⟨hdrs, if 0 < ntry then some (s.fstatus, s.flens) else none⟩ with
      | none =>
          rw [attempt_of_none hhdrs hresp] at h
          exact Or.inl (raised_following h).1
      | some rqf =>
          rw [attempt_of_some hhdrs hresp] at h
          rcases fetchStream_following h with hcounted | hchunk
          · exact Or.inl hcounted.1
          · rw [if_pos hchunk.2.retry] at hresp
            exact Or.inr ⟨hchunk.1, hdrs, rqf, rfl, hresp, hchunk.2⟩

/-- What follows a chunk. -/
theorem attempt_chunk (hhdrs : deleteNone (updateHeaders dhdrs ehdrs) = some hdrs)
    {urlopen : Server} {rqf : Response}
    (hresp : urlopen ⟨hdrs, some (s.fstatus, s.flens)⟩ = some rqf) (hchunk : Chunk rqf ntry s) :
    ∃ s', following ntry (attempt dhdrs ehdrs urlopen ntry s) = some (1, s') ∧
      s'.fstatus = s.fstatus + rqf.body.length := by
  have hresp' : urlopen ⟨hdrs, if 0 < ntry then some (s.fstatus, s.flens) else none⟩ =
      some rqf := by
    rw [if_pos hchunk.retry]
    exact hresp
  have hshort : ((some s.flens).any fun l =>
      l != 0 && ((s.fstatus + rqf.body.length : Nat) : Int) != l) = true := by
    have hne := hchunk.short
    simp [hchunk.known, hne]
  rw [attempt_of_some hhdrs hresp', fetchStream_of_range hchunk.retry hchunk.status]
  unfold readBody
  dsimp only
  rw [if_neg (by rw [hchunk.ends]; exact Bool.false_ne_true), if_pos hshort]
  exact ⟨_, rfl, rfl⟩

theorem counted_iff : Counted dhdrs ehdrs part servers ↔
    ∀ k rqf, ChunkAt dhdrs ehdrs part servers k rqf → rqf.body ≠ [] := by
  constructor
  · intro hcounted k rqf hchunk hempty
    obtain ⟨hdrs, ntry, s, hhdrs, hrequest, hresp, hchunk⟩ := hchunk
    obtain ⟨s', hnext, hcount⟩ := attempt_chunk hhdrs hresp hchunk
    have hnext : requestAt dhdrs ehdrs part servers (k + 1) = some (1, s') := by
      rw [requestAt_succ, hrequest]
      exact hnext
    have hretry := hchunk.retry
    rcases hcounted k ntry s 1 s' hrequest hnext with hmore | hone
    · rw [hcount, hempty, List.length_nil] at hmore
      omega
    · omega
  · intro hbodies k ntry s n s' hrequest hnext
    rw [requestAt_succ, hrequest] at hnext
    rcases attempt_following hnext with hcounted | hchunk
    · exact Or.inr hcounted
    · left
      obtain ⟨-, hdrs, rqf, hhdrs, hresp, hchunk⟩ := hchunk
      obtain ⟨s₁, hnext', hcount⟩ := attempt_chunk hhdrs hresp hchunk
      have hne := hbodies k rqf ⟨hdrs, ntry, s, hhdrs, hrequest, hresp, hchunk⟩
      have hpos := List.length_pos_iff.mpr hne
      have hslot : s' = s₁ := by
        have hboth := hnext.symm.trans hnext'
        injection hboth with hpair
        injection hpair
      rw [hslot, hcount]
      exact Nat.lt_add_of_pos_right hpos

/-! ## Termination -/

/-- Without chunks every request is one more of those that are counted. -/
theorem requestAt_counts {m : Nat} (hlast : ∀ k ≥ m, ∀ rqf, ¬ ChunkAt dhdrs ehdrs part servers k rqf)
    (j : Nat) (h : requestAt dhdrs ehdrs part servers (m + j) = some (ntry, s)) : j ≤ ntry := by
  induction j generalizing ntry s with
  | zero => exact Nat.zero_le ntry
  | succ j ih =>
      rw [← Nat.add_assoc, requestAt_succ] at h
      obtain ⟨r, hrequest, hnext⟩ := Option.bind_eq_some_iff.mp h
      obtain ⟨k, s₁⟩ := r
      have hle := ih hrequest
      rcases attempt_following hnext with hcounted | hchunk
      · omega
      · obtain ⟨-, hdrs, rqf, hhdrs, hresp, hchunk⟩ := hchunk
        have hnot := hlast (m + j) (Nat.le_add_right m j) rqf
        exact absurd ⟨hdrs, k, s₁, hhdrs, hrequest, hresp, hchunk⟩ hnot

theorem terminates_iff_chunks : Terminates dhdrs ehdrs part servers ↔
    ∃ m, ∀ k ≥ m, ∀ rqf, ¬ ChunkAt dhdrs ehdrs part servers k rqf := by
  rw [terminates_iff]
  constructor
  · intro hends
    obtain ⟨m, hnone⟩ := hends
    refine ⟨m, fun k hk rqf hchunk => ?_⟩
    obtain ⟨hdrs, ntry, s, -, hrequest, -, -⟩ := hchunk
    rw [requestAt_mono hk hnone] at hrequest
    cases hrequest
  · intro hlast
    obtain ⟨m, hlast⟩ := hlast
    refine ⟨m + 5, ?_⟩
    by_contra hsome
    obtain ⟨r, hrequest⟩ := Option.ne_none_iff_exists'.mp hsome
    have hle := requestAt_le hrequest
    have hcounts := requestAt_counts hlast 5 hrequest
    omega

/-- Every request brings something or is counted, and the download ends, exactly when no chunk is
empty and there is a last chunk. -/
theorem fetchUrl_terminates_iff (dhdrs : Headers) (ehdrs : Option Headers) (part : Option Bytes)
    (servers : Nat → Server) :
    (Counted dhdrs ehdrs part servers ∧ Terminates dhdrs ehdrs part servers) ↔
      (∀ k rqf, ChunkAt dhdrs ehdrs part servers k rqf → rqf.body ≠ []) ∧
        ∃ m, ∀ k ≥ m, ∀ rqf, ¬ ChunkAt dhdrs ehdrs part servers k rqf := by
  rw [counted_iff, terminates_iff_chunks]

/-- A server that announces one byte, and answers with no byte at all. -/
def emptyChunks (_ : Nat) : Server := fun rq =>
  some ⟨some (if rq.range.isSome then 206 else 200), some (some 1), [], false⟩

/-- Each resumption is like the one before. -/
theorem emptyChunks_not_terminates : ¬ ∀ (dhdrs : Headers) (ehdrs : Option Headers)
    (part : Option Bytes) (servers : Nat → Server),
    Counted dhdrs ehdrs part servers ∧ Terminates dhdrs ehdrs part servers := by
  intro hall
  have hcounted := (hall [] none none emptyChunks).1 1 1 ⟨0, 1, some []⟩ 1 ⟨0, 1, some []⟩ rfl rfl
  rcases hcounted with hmore | hone
  · cases hmore
  · cases hone

end Cbuild.Fetch
