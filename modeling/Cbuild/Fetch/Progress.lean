import Cbuild.Fetch.Retry

/-! # The recorded progress

Between two requests `fstatus` is the size of the partial file: an attempt opens it anew and counts
from nothing, or appends to it and counts on. What can go wrong is a partial file of an earlier
run, which is there before anything has been counted.
-/

namespace Cbuild.Fetch

open Lib

variable {dhdrs hdrs : Headers} {ehdrs : Option Headers} {servers : List Server} {ntry n m : Nat}
  {s s' : Slot} {part : Option Bytes} {b : Bytes}

/-! ## Requests -/

/-- The request that follows an attempt, unless `fetch_url` returns. -/
def following (ntry : Nat) : Streamed × Slot → Option (Nat × Slot)
  | (.resume ntry, s) => some (ntry, s)
  | (.raised, s) => if 3 < ntry then none else some (ntry + 1, s)
  | (.fetched, _) => none
  | (.failed _, _) => none

/-- The request that `fetch_url` makes when the server has done all this. -/
def requestAfter (dhdrs : Headers) (ehdrs : Option Headers) :
    List Server → Nat → Slot → Option (Nat × Slot)
  | [], ntry, s => some (ntry, s)
  | urlopen :: servers, ntry, s =>
      (following ntry (attempt dhdrs ehdrs urlopen ntry s)).bind fun r =>
        requestAfter dhdrs ehdrs servers r.1 r.2

@[simp] theorem following_raised : following ntry (.raised, s) =
    if 3 < ntry then none else some (ntry + 1, s) := rfl

@[simp] theorem following_resume (k : Nat) : following ntry (.resume k, s) = some (k, s) := rfl

@[simp] theorem following_fetched : following ntry (.fetched, s) = none := rfl

@[simp] theorem following_failed (e : FetchError) : following ntry (.failed e, s) = none := rfl

/-- One attempt of `fetch_url`: the rest goes on from the request that follows, or it was the
last. -/
theorem fetchUrl_of_following {urlopen : Server} {r : Nat × Slot}
    (h : following ntry (attempt dhdrs ehdrs urlopen ntry s) = some r) :
    fetchUrl dhdrs ehdrs (urlopen :: servers) ntry s = fetchUrl dhdrs ehdrs servers r.1 r.2 := by
  rw [fetchUrl]
  cases hattempt : attempt dhdrs ehdrs urlopen ntry s with
  | mk streamed s' =>
      rw [hattempt] at h
      cases streamed with
      | fetched => cases h
      | failed e => cases h
      | resume k =>
          cases h
          rfl
      | raised =>
          rw [following_raised] at h
          by_cases hntry : 3 < ntry
          · rw [if_pos hntry] at h
            cases h
          · rw [if_neg hntry] at h
            cases h
            exact if_neg hntry

theorem fetchUrl_of_last {urlopen : Server} (servers : List Server)
    (h : following ntry (attempt dhdrs ehdrs urlopen ntry s) = none) :
    ∃ e, fetchUrl dhdrs ehdrs (urlopen :: servers) ntry s =
        some (e, (attempt dhdrs ehdrs urlopen ntry s).2) ∧
      (e = none ↔ (attempt dhdrs ehdrs urlopen ntry s).1 = .fetched) := by
  rw [fetchUrl]
  cases hattempt : attempt dhdrs ehdrs urlopen ntry s with
  | mk streamed s' =>
      rw [hattempt] at h
      cases streamed with
      | fetched => exact ⟨none, rfl, by simp⟩
      | failed e => exact ⟨some e, rfl, by simp⟩
      | resume k => cases h
      | raised =>
          rw [following_raised] at h
          by_cases hntry : 3 < ntry
          · exact ⟨some .exception, if_pos hntry, by simp⟩
          · rw [if_neg hntry] at h
            cases h

/-- `fetch_url` has not returned exactly when there is a next request. -/
theorem fetchUrl_eq_none_iff (servers : List Server) (ntry : Nat) (s : Slot) :
    fetchUrl dhdrs ehdrs servers ntry s = none ↔
      (requestAfter dhdrs ehdrs servers ntry s).isSome = true := by
  induction servers generalizing ntry s with
  | nil => exact ⟨fun _ => rfl, fun _ => rfl⟩
  | cons urlopen servers ih =>
      rw [requestAfter]
      cases hnext : following ntry (attempt dhdrs ehdrs urlopen ntry s) with
      | some r =>
          rw [fetchUrl_of_following hnext]
          exact ih r.1 r.2
      | none =>
          obtain ⟨e, hdone, -⟩ := fetchUrl_of_last servers hnext
          rw [hdone]
          simp

theorem requestAfter_append (p q : List Server) (ntry : Nat) (s : Slot) :
    requestAfter dhdrs ehdrs (p ++ q) ntry s =
      (requestAfter dhdrs ehdrs p ntry s).bind fun r => requestAfter dhdrs ehdrs q r.1 r.2 := by
  induction p generalizing ntry s with
  | nil => rfl
  | cons urlopen p ih =>
      show (following _ _).bind _ = ((following _ _).bind _).bind _
      rw [Option.bind_assoc]
      congr 1
      funext r
      exact ih r.1 r.2

theorem following_slot {r : Streamed × Slot} (h : following ntry r = some (n, s')) : s' = r.2 := by
  obtain ⟨streamed, s⟩ := r
  cases streamed with
  | fetched => cases h
  | failed e => cases h
  | resume k =>
      cases h
      rfl
  | raised =>
      rw [following_raised] at h
      split at h
      next => cases h
      next =>
        cases h
        rfl

theorem not_failed_of_following {r : Streamed × Slot} (h : following ntry r = some (n, s'))
    (e : FetchError) : r.1 ≠ .failed e := by
  obtain ⟨streamed, s⟩ := r
  intro hfailed
  have hfailed : streamed = .failed e := hfailed
  rw [hfailed] at h
  cases h

theorem raised_following (h : following ntry (.raised, s) = some (n, s')) :
    n = ntry + 1 ∧ ntry ≤ 3 := by
  rw [following_raised] at h
  by_cases hntry : 3 < ntry
  · rw [if_pos hntry] at h
    cases h
  · rw [if_neg hntry] at h
    cases h
    exact ⟨rfl, by omega⟩

/-! ## What is made of a response -/

/-- `fetch_stream` raises before it opens the file. -/
def Unread (ntry : Nat) (rqf : Response) : Prop :=
  match rqf.status with
  | none => 0 < ntry
  | some status =>
      if status = 200 ∨ status = 206 then ntry = 0 ∧ rqf.contentLength = some none
      else responses.contains status = false

inductive Handled (ntry : Nat) (rqf : Response) (s : Slot) : Streamed × Slot → Prop
  | unread (h : Unread ntry rqf) : Handled ntry rqf s (.raised, s)
  | failed (e : FetchError) (s' : Slot) : Handled ntry rqf s (.failed e, s')
  | first (h : ntry = 0) (clen : Option Int)
      (hlen : rqf.status ≠ none → (rqf.status = some 200 ∨ rqf.status = some 206) ∧
        rqf.contentLength = clen.map some) :
      Handled ntry rqf s (readBody false clen ntry rqf { s with flens := clen.getD s.flens })
  | again (h : 0 < ntry) (hle : ntry ≤ 3) (hstatus : rqf.status = some 200) :
      Handled ntry rqf s (readBody false (some s.flens) ntry rqf { s with fstatus := 0 })
  | range (h : 0 < ntry) (hstatus : rqf.status = some 206) :
      Handled ntry rqf s (readBody true (some s.flens) 0 rqf s)

theorem fetchStream_handled (ntry : Nat) (rqf : Response) (s : Slot) :
    Handled ntry rqf s (fetchStream ntry rqf s) := by
  unfold fetchStream
  cases hstatus : rqf.status with
  | none =>
      dsimp only
      split
      next hretry => exact .unread (by simpa [Unread, hstatus] using hretry)
      next hfirst => exact .first (by omega) none fun hsome => absurd hstatus hsome
  | some status =>
      dsimp only
      split
      next hother =>
        have hother : ¬ (status = 200 ∨ status = 206) := by omega
        split
        next => exact .failed _ _
        next hresp => exact .unread (by simpa [Unread, hstatus, hother] using hresp)
      next hok =>
        split
        next hretry =>
          split
          · split
            next => exact .failed _ _
            next hagain hle =>
              have hagain : status = 200 := by omega
              rw [hagain] at hstatus
              exact .again hretry (by omega) hstatus
          next hrange =>
            have hrange : status = 206 := by omega
            rw [hrange] at hstatus
            exact .range hretry hstatus
        next hfirst =>
          have hfirst : ntry = 0 := by omega
          have hok : status = 200 ∨ status = 206 := by omega
          have hok' : rqf.status = some 200 ∨ rqf.status = some 206 := by
            rw [hstatus]
            exact hok.imp (congrArg some) (congrArg some)
          split
          next hlen => exact .unread (by simp [Unread, hstatus, hok, hfirst, hlen])
          next clen hlen => exact .first hfirst (some clen) fun _ => ⟨hok', hlen⟩
          next hlen => exact .first hfirst none fun _ => ⟨hok', hlen⟩

/-- The body is a part of the rest, and does not complete it. -/
structure Chunk (rqf : Response) (ntry : Nat) (s : Slot) : Prop where
  retry : 0 < ntry
  status : rqf.status = some 206
  ends : rqf.raises = false
  known : s.flens ≠ 0
  short : (s.fstatus + rqf.body.length : Int) ≠ s.flens

theorem readBody_following {append : Bool} {clen : Option Int} {rqf : Response} {k : Nat}
    (h : following ntry (readBody append clen k rqf s) = some (n, s')) :
    (rqf.raises = true ∧ n = ntry + 1 ∧ ntry ≤ 3) ∨
      (rqf.raises = false ∧ n = k + 1 ∧
        clen.any (fun l => l != 0 && ((s.fstatus + rqf.body.length : Nat) : Int) != l) = true) := by
  unfold readBody at h
  dsimp only at h
  by_cases hr : rqf.raises = true
  · rw [if_pos hr] at h
    exact Or.inl ⟨hr, raised_following h⟩
  · rw [if_neg hr] at h
    right
    split at h
    next hshort =>
      cases h
      exact ⟨by simpa using hr, rfl, hshort⟩
    next => cases h

/-- An attempt that is not the last uses up one of the attempts left, or is a chunk. -/
theorem fetchStream_following {rqf : Response}
    (h : following ntry (fetchStream ntry rqf s) = some (n, s')) :
    (n = ntry + 1 ∧ ntry ≤ 3) ∨ (n = 1 ∧ Chunk rqf ntry s) := by
  have hhandled := fetchStream_handled ntry rqf s
  generalize fetchStream ntry rqf s = r at h hhandled
  cases hhandled with
  | unread => exact Or.inl (raised_following h)
  | failed => cases h
  | first hfirst clen =>
      rcases readBody_following h with hr | hshort
      · exact Or.inl hr.2
      · exact Or.inl ⟨hshort.2.1, by omega⟩
  | again hretry hle =>
      rcases readBody_following h with hr | hshort
      · exact Or.inl hr.2
      · exact Or.inl ⟨hshort.2.1, hle⟩
  | range hretry hstatus =>
      rcases readBody_following h with hr | hshort
      · exact Or.inl hr.2
      · obtain ⟨hends, hn, hany⟩ := hshort
        have hany : s.flens ≠ 0 ∧ (s.fstatus + rqf.body.length : Int) ≠ s.flens := by
          simpa using hany
        exact Or.inr ⟨hn, hretry, hstatus, hends, hany.1, hany.2⟩

/-! ## The size of the partial file -/

def Slot.size (s : Slot) : Nat := (s.part.getD []).length

/-- The body is counted as it is written. -/
theorem readBody_size (append : Bool) (clen : Option Int) (ntry : Nat) (rqf : Response)
    (h : s.fstatus = if append then s.size else 0) :
    (readBody append clen ntry rqf s).2.fstatus = (readBody append clen ntry rqf s).2.size := by
  have hlen : s.fstatus + rqf.body.length =
      ((if append then s.part.getD [] else []) ++ rqf.body).length := by
    rw [List.length_append, h]
    cases append with
    | true => rfl
    | false => rfl
  unfold readBody
  dsimp only
  split
  · exact hlen
  · split
    · exact hlen
    · exact hlen

/-- `fetch_url` goes on after the response with a partial file that has been there before. -/
structure LeavesOld (ntry : Nat) (rqf : Response) : Prop where
  reads : Unread ntry rqf ∨ (0 < ntry ∧ rqf.status = some 206)
  goes : ntry ≤ 3 ∨ (ntry = 4 ∧ rqf.status = some 206 ∧ rqf.raises = false)

/-- The progress is right after a response if it has been right before, and if the response opens
the file anew. -/
theorem fetchStream_size {rqf : Response} (hle : ntry ≤ 4) (hfirst : ntry = 0 → s.fstatus = 0)
    (hsize : s.fstatus = s.size ∨ ¬ LeavesOld ntry rqf)
    (h : following ntry (fetchStream ntry rqf s) = some (n, s')) : s'.fstatus = s'.size := by
  have hslot := following_slot h
  have hhandled := fetchStream_handled ntry rqf s
  rw [hslot]
  generalize fetchStream ntry rqf s = r at h hhandled
  cases hhandled with
  | unread hunread =>
      apply hsize.resolve_right
      intro hold
      exact hold ⟨Or.inl hunread, Or.inl (raised_following h).2⟩
  | failed => cases h
  | first hzero clen =>
      apply readBody_size
      exact hfirst hzero
  | again hretry hle =>
      apply readBody_size
      rfl
  | range hretry hstatus =>
      apply readBody_size
      apply hsize.resolve_right
      intro hold
      refine hold ⟨Or.inr ⟨hretry, hstatus⟩, ?_⟩
      rcases readBody_following h with hr | hshort
      · exact Or.inl hr.2.2
      · by_cases hntry : ntry ≤ 3
        · exact Or.inl hntry
        · exact Or.inr ⟨by omega, hstatus, hshort.1⟩

theorem fetchStream_of_unread {rqf : Response} (h : Unread ntry rqf) :
    fetchStream ntry rqf s = (.raised, s) := by
  unfold Unread at h
  unfold fetchStream
  cases hstatus : rqf.status with
  | none =>
      rw [hstatus] at h
      exact if_pos h
  | some status =>
      rw [hstatus] at h
      dsimp only at h ⊢
      by_cases hok : status = 200 ∨ status = 206
      · rw [if_pos hok] at h
        rw [if_neg (by omega), if_neg (by omega), h.2]
      · rw [if_neg hok] at h
        rw [if_pos (by omega), h, if_neg Bool.false_ne_true]

theorem fetchStream_of_range {rqf : Response} (h : 0 < ntry) (hstatus : rqf.status = some 206) :
    fetchStream ntry rqf s = readBody true (some s.flens) 0 rqf s := by
  unfold fetchStream
  rw [hstatus]
  dsimp only
  rw [if_neg (by omega), if_pos h, if_neg (by omega)]

/-- A partial file of an earlier run that is not opened anew is not counted. -/
theorem init_of_leavesOld {rqf : Response} (hold : LeavesOld ntry rqf)
    (hpart : (part.getD []).length ≠ 0) :
    ∃ n s', following ntry (fetchStream ntry rqf (.init part)) = some (n, s') ∧
      s'.fstatus ≠ s'.size := by
  rcases hold.reads with hunread | hrange
  · rw [fetchStream_of_unread hunread]
    refine ⟨ntry + 1, .init part, ?_, hpart.symm⟩
    have hle : ntry ≤ 3 := by
      rcases hold.goes with hle | hlast
      · exact hle
      · simp [Unread, hlast.2.1] at hunread
        omega
    rw [following_raised, if_neg (by omega)]
  · rw [fetchStream_of_range hrange.1 hrange.2]
    have hsize : ∀ s : Slot, s.part = some (part.getD [] ++ rqf.body) →
        s.fstatus = rqf.body.length → s.fstatus ≠ s.size := by
      intro s hpart hcount heq
      rw [hcount, Slot.size, hpart, Option.getD_some, List.length_append] at heq
      omega
    have hshort : ((some (-1) : Option Int).any fun l =>
        l != 0 && ((0 + rqf.body.length : Nat) : Int) != l) = true := by
      have hne : (rqf.body.length : Int) ≠ -1 := by omega
      simp [hne]
    unfold readBody Slot.init
    dsimp only
    rw [if_pos hshort]
    cases hends : rqf.raises with
    | true =>
        have hle : ntry ≤ 3 := by
          apply hold.goes.resolve_right
          intro hlast
          rw [hends] at hlast
          cases hlast.2.2
        rw [if_pos rfl, following_raised, if_neg (by omega)]
        exact ⟨_, _, rfl, hsize _ rfl (Nat.zero_add _)⟩
    | false => exact ⟨_, _, rfl, hsize _ rfl (Nat.zero_add _)⟩

/-! ## Runs -/

/-- What the server first responds with, and to which attempt; before that nothing is known. -/
def firstResponse (hdrs : Headers) : List Server → Nat → Option (Nat × Response)
  | [], _ => none
  | urlopen :: servers, ntry =>
      match urlopen ⟨hdrs, if 0 < ntry then some (0, -1) else none⟩ with
      | some rqf => some (ntry, rqf)
      | none => firstResponse hdrs servers (ntry + 1)

/-- `requestAfter` of a source whose download has not begun. -/
def requestOf (dhdrs : Headers) (ehdrs : Option Headers) (part : Option Bytes)
    (servers : List Server) : Option (Nat × Slot) :=
  requestAfter dhdrs ehdrs servers 0 (.init part)

/-- The server has responded. -/
def Answered (dhdrs : Headers) (ehdrs : Option Headers) (servers : List Server) : Prop :=
  ∃ hdrs r, deleteNone (updateHeaders dhdrs ehdrs) = some hdrs ∧
    firstResponse hdrs servers 0 = some r

/-- At each request after the first response `fstatus` is the size of the partial file. -/
def Recorded (dhdrs : Headers) (ehdrs : Option Headers) (part : Option Bytes)
    (servers : List Server) : Prop :=
  ∀ p, p <+: servers → Answered dhdrs ehdrs p →
    ∀ ntry s, requestOf dhdrs ehdrs part p = some (ntry, s) → s.fstatus = s.size

theorem attempt_of_none (hhdrs : deleteNone (updateHeaders dhdrs ehdrs) = some hdrs)
    {urlopen : Server} (h : urlopen ⟨hdrs, if 0 < ntry then some (s.fstatus, s.flens) else none⟩ = none) :
    attempt dhdrs ehdrs urlopen ntry s = (.raised, s) := by
  unfold attempt
  rw [hhdrs]
  dsimp only
  rw [h]

theorem attempt_of_some (hhdrs : deleteNone (updateHeaders dhdrs ehdrs) = some hdrs)
    {urlopen : Server} {rqf : Response}
    (h : urlopen ⟨hdrs, if 0 < ntry then some (s.fstatus, s.flens) else none⟩ = some rqf) :
    attempt dhdrs ehdrs urlopen ntry s = fetchStream ntry rqf s := by
  unfold attempt
  rw [hhdrs]
  dsimp only
  rw [h]

/-- The attempts are counted from 0 to 4. -/
theorem attempt_le (hle : ntry ≤ 4) {urlopen : Server}
    (h : following ntry (attempt dhdrs ehdrs urlopen ntry s) = some (n, s')) :
    0 < n ∧ n ≤ 4 := by
  have hraised : attempt dhdrs ehdrs urlopen ntry s = (.raised, s) → 0 < n ∧ n ≤ 4 := by
    intro heq
    rw [heq] at h
    have hn := raised_following h
    omega
  cases hhdrs : deleteNone (updateHeaders dhdrs ehdrs) with
  | none =>
      apply hraised
      unfold attempt
      rw [hhdrs]
  | some hdrs =>
      cases hresp : urlopen ⟨hdrs, if 0 < ntry then some (s.fstatus, s.flens) else none⟩ with
      | none => exact hraised (attempt_of_none hhdrs hresp)
      | some rqf =>
          rw [attempt_of_some hhdrs hresp] at h
          rcases fetchStream_following h with hn | hchunk
          · omega
          · omega

/-- Once the progress is right it stays right. -/
theorem requestAfter_size (hhdrs : deleteNone (updateHeaders dhdrs ehdrs) = some hdrs)
    (hpos : 0 < ntry) (hle : ntry ≤ 4) (hsize : s.fstatus = s.size)
    (h : requestAfter dhdrs ehdrs servers ntry s = some (n, s')) : s'.fstatus = s'.size := by
  induction servers generalizing ntry s with
  | nil =>
      cases h
      exact hsize
  | cons urlopen servers ih =>
      rw [requestAfter] at h
      obtain ⟨r, hnext, hrest⟩ := Option.bind_eq_some_iff.mp h
      obtain ⟨k, s₁⟩ := r
      obtain ⟨hk, hk'⟩ := attempt_le hle hnext
      refine ih hk hk' ?_ hrest
      cases hresp : urlopen ⟨hdrs, if 0 < ntry then some (s.fstatus, s.flens) else none⟩ with
      | none =>
          rw [attempt_of_none hhdrs hresp] at hnext
          rw [following_slot hnext]
          exact hsize
      | some rqf =>
          rw [attempt_of_some hhdrs hresp] at hnext
          exact fetchStream_size hle (fun hzero => by omega) (Or.inl hsize) hnext

/-- The first response decides. -/
theorem requestAfter_first (hhdrs : deleteNone (updateHeaders dhdrs ehdrs) = some hdrs)
    (hle : ntry ≤ 4)
    (hold : (part.getD []).length = 0 ∨ ∀ i rqf, firstResponse hdrs servers ntry = some (i, rqf) →
      ¬ LeavesOld i rqf)
    {i : Nat} {rqf : Response} (hfirst : firstResponse hdrs servers ntry = some (i, rqf))
    (h : requestAfter dhdrs ehdrs servers ntry (.init part) = some (n, s')) :
    s'.fstatus = s'.size := by
  induction servers generalizing ntry with
  | nil => cases hfirst
  | cons urlopen servers ih =>
      rw [requestAfter] at h
      obtain ⟨r, hnext, hrest⟩ := Option.bind_eq_some_iff.mp h
      obtain ⟨k, s₁⟩ := r
      obtain ⟨hk, hk'⟩ := attempt_le hle hnext
      rw [firstResponse] at hfirst hold
      cases hresp : urlopen ⟨hdrs, if 0 < ntry then some (0, -1) else none⟩ with
      | none =>
          rw [hresp] at hfirst hold
          rw [attempt_of_none hhdrs hresp] at hnext
          have hslot := following_slot hnext
          have hcount := (raised_following hnext).1
          rw [hslot, hcount] at hrest
          exact ih (by omega) hold hfirst hrest
      | some rqf' =>
          rw [hresp] at hold
          rw [attempt_of_some hhdrs hresp] at hnext
          apply requestAfter_size hhdrs hk hk' _ hrest
          apply fetchStream_size hle (fun _ => rfl) _ hnext
          rcases hold with hempty | hanew
          · left
            show 0 = (part.getD []).length
            exact hempty.symm
          · exact Or.inr (hanew ntry rqf' rfl)

theorem firstResponse_ge {i : Nat} {rqf : Response}
    (h : firstResponse hdrs servers ntry = some (i, rqf)) : ntry ≤ i := by
  induction servers generalizing ntry with
  | nil => cases h
  | cons urlopen servers ih =>
      rw [firstResponse] at h
      split at h
      · cases h
        exact Nat.le_refl i
      · exact Nat.le_of_succ_le (ih h)

/-- What has been responded before is not forgotten. -/
theorem firstResponse_mono {p : List Server} (hp : p <+: servers) {r : Nat × Response}
    (h : firstResponse hdrs p ntry = some r) : firstResponse hdrs servers ntry = some r := by
  obtain ⟨q, rfl⟩ := hp
  induction p generalizing ntry with
  | nil => cases h
  | cons urlopen p ih =>
      rw [firstResponse] at h
      rw [List.cons_append, firstResponse]
      split at h
      · exact h
      · exact ih h

/-- The requests before the first response. -/
theorem requestAfter_upTo (part : Option Bytes)
    (hhdrs : deleteNone (updateHeaders dhdrs ehdrs) = some hdrs)
    {i : Nat} {rqf : Response} (hfirst : firstResponse hdrs servers ntry = some (i, rqf))
    (hle : i ≤ 4) : ∃ p, p <+: servers ∧ firstResponse hdrs p ntry = some (i, rqf) ∧
      requestAfter dhdrs ehdrs p ntry (.init part) =
        following i (fetchStream i rqf (.init part)) := by
  induction servers generalizing ntry with
  | nil => cases hfirst
  | cons urlopen servers ih =>
      rw [firstResponse] at hfirst
      cases hresp : urlopen ⟨hdrs, if 0 < ntry then some (0, -1) else none⟩ with
      | none =>
          rw [hresp] at hfirst
          obtain ⟨p, hp, hanswered, hrequest⟩ := ih hfirst
          refine ⟨urlopen :: p, List.cons_prefix_cons.mpr ⟨rfl, hp⟩, ?_, ?_⟩
          · rw [firstResponse, hresp]
            exact hanswered
          · have hge := firstResponse_ge hfirst
            rw [requestAfter, attempt_of_none hhdrs hresp, following_raised, if_neg (by omega)]
            exact hrequest
      | some rqf' =>
          rw [hresp] at hfirst
          cases hfirst
          refine ⟨[urlopen], List.cons_prefix_cons.mpr ⟨rfl, List.nil_prefix⟩, ?_, ?_⟩
          · rw [firstResponse, hresp]
          · rw [requestAfter, attempt_of_some hhdrs hresp]
            cases following i (fetchStream i rqf (.init part)) with
            | none => rfl
            | some r => rfl

theorem recorded_iff (dhdrs : Headers) (ehdrs : Option Headers) (part : Option Bytes)
    (servers : List Server) : Recorded dhdrs ehdrs part servers ↔
      (part.getD []).length = 0 ∨ ∀ hdrs, deleteNone (updateHeaders dhdrs ehdrs) = some hdrs →
        ∀ i rqf, firstResponse hdrs servers 0 = some (i, rqf) → ¬ LeavesOld i rqf := by
  constructor
  · intro hrecorded
    by_cases hempty : (part.getD []).length = 0
    · exact Or.inl hempty
    · right
      intro hdrs hhdrs i rqf hfirst hold
      have hle : i ≤ 4 := by
        rcases hold.goes with hle | hlast
        · omega
        · omega
      obtain ⟨p, hp, hanswered, hrequest⟩ := requestAfter_upTo part hhdrs hfirst hle
      obtain ⟨n, s, hnext, hne⟩ := init_of_leavesOld hold hempty
      apply hne
      apply hrecorded p hp ⟨hdrs, _, hhdrs, hanswered⟩ n s
      rw [← hnext]
      exact hrequest
  · intro hold p hp hanswered ntry s hrequest
    obtain ⟨hdrs, r, hhdrs, hfirst⟩ := hanswered
    obtain ⟨i, rqf⟩ := r
    apply requestAfter_first hhdrs (Nat.zero_le 4) _ hfirst hrequest
    apply hold.imp_right
    intro hold i rqf hfirst
    exact hold hdrs hhdrs i rqf (firstResponse_mono hp hfirst)

/-! ## One file -/

/-- The server has one file, reports its length and honours ranges; it may break off anywhere. -/
structure Serves (b : Bytes) (urlopen : Server) : Prop where
  http : ∀ rq rqf, urlopen rq = some rqf → rqf.status ≠ none
  whole : ∀ rq rqf, urlopen rq = some rqf → rqf.status = some 200 →
    rqf.contentLength = some (some (b.length : Int)) ∧ rqf.body <+: b
  rest : ∀ rq rqf, urlopen rq = some rqf → rqf.status = some 206 →
    ∃ i j, rq.range = some (i, j) ∧ rqf.body <+: b.drop i

/-- If it succeeds the file is `b`, and it has been the beginning of `b` at every resumption. -/
def Gapless (b : Bytes) (dhdrs : Headers) (ehdrs : Option Headers) (part : Option Bytes)
    (servers : List Server) : Prop :=
  ∀ s, fetchUrl dhdrs ehdrs servers 0 (.init part) = some (none, s) → s.part = some b ∧
    ∀ p, p <+: servers → p ≠ [] → ∀ ntry s', requestOf dhdrs ehdrs part p = some (ntry, s') →
      s'.part = some (b.take s'.fstatus)

theorem readBody_resuming {append : Bool} {rqf : Response} {got : Nat} (k : Nat)
    (hflens : s.flens = b.length) (hgot : got ≤ b.length) (hst : s.fstatus + rqf.body.length = got)
    (hdf : (if append then s.part.getD [] else []) ++ rqf.body = b.take got) :
    Resuming b got (readBody append (some b.length) k rqf s).2 ∧
      ((readBody append (some b.length) k rqf s).1 = .fetched → got = b.length) := by
  obtain ⟨s', hs', hread⟩ := readBody_spec append k rqf hflens hgot hst hdf
  rw [hread]
  split
  · exact ⟨hs', fun h => by cases h⟩
  · split
    next hall => exact ⟨hs', fun _ => hall⟩
    next => exact ⟨hs', fun h => by cases h⟩

/-- What is made of a response of such a server, to the first request or to a resumption. -/
theorem fetchStream_serves (ntry : Nat) (s : Slot) {urlopen : Server} (hserves : Serves b urlopen) {rq : Request}
    {rqf : Response} (hrq : urlopen rq = some rqf)
    (hrange : rq.range = if 0 < ntry then some (s.fstatus, s.flens) else none)
    (hs : if 0 < ntry then ∃ got, got ≤ b.length ∧ Resuming b got s else s.fstatus = 0) :
    fetchStream ntry rqf s = (.raised, s) ∨ (∃ e, (fetchStream ntry rqf s).1 = .failed e) ∨
      ∃ got, got ≤ b.length ∧ Resuming b got (fetchStream ntry rqf s).2 ∧
        ((fetchStream ntry rqf s).1 = .fetched → got = b.length) := by
  have hhandled := fetchStream_handled ntry rqf s
  generalize fetchStream ntry rqf s = r at hhandled
  cases hhandled with
  | unread => exact Or.inl rfl
  | failed e s' => exact Or.inr (Or.inl ⟨e, rfl⟩)
  | first hzero clen hlen =>
      have hretry : ¬ 0 < ntry := by omega
      rw [if_neg hretry] at hrange hs
      obtain ⟨hok, hlen⟩ := hlen (hserves.http rq rqf hrq)
      rcases hok with hstatus | hstatus
      · obtain ⟨hdeclared, hbody⟩ := hserves.whole rq rqf hrq hstatus
        have hclen : clen = some (b.length : Int) := by
          cases clen with
          | none =>
              rw [hlen] at hdeclared
              cases hdeclared
          | some l =>
              rw [hlen] at hdeclared
              exact Option.some.inj hdeclared
        rw [hclen]
        right
        right
        refine ⟨rqf.body.length, hbody.length_le, readBody_resuming ntry rfl hbody.length_le ?_ ?_⟩
        · show s.fstatus + rqf.body.length = rqf.body.length
          rw [hs, Nat.zero_add]
        · exact List.prefix_iff_eq_take.mp hbody
      · obtain ⟨i, j, hsome, -⟩ := hserves.rest rq rqf hrq hstatus
        rw [hrange] at hsome
        cases hsome
  | again hretry hle hstatus =>
      rw [if_pos hretry] at hs
      obtain ⟨got, -, hs⟩ := hs
      obtain ⟨-, hbody⟩ := hserves.whole rq rqf hrq hstatus
      rw [hs.flens]
      right
      right
      refine ⟨rqf.body.length, hbody.length_le, readBody_resuming ntry rfl hbody.length_le ?_ ?_⟩
      · exact Nat.zero_add _
      · exact List.prefix_iff_eq_take.mp hbody
  | range hretry hstatus =>
      rw [if_pos hretry] at hrange hs
      obtain ⟨got, hgot, hs⟩ := hs
      obtain ⟨i, j, hsome, hbody⟩ := hserves.rest rq rqf hrq hstatus
      rw [hrange] at hsome
      have hi : i = got := by
        have hpair := Option.some.inj hsome
        injection hpair with hi
        rw [← hi, hs.fstatus]
      rw [hi] at hbody
      have hlen := hbody.length_le
      rw [List.length_drop] at hlen
      rw [hs.flens]
      right
      right
      refine ⟨got + rqf.body.length, by omega, readBody_resuming 0 hs.flens (by omega) ?_ ?_⟩
      · rw [hs.fstatus]
      · rw [if_pos rfl, hs.part, Option.getD_some, List.take_add,
          ← List.prefix_iff_eq_take.mp hbody]

/-- An attempt that resumes. -/
theorem attempt_serves (hhdrs : deleteNone (updateHeaders dhdrs ehdrs) = some hdrs)
    {urlopen : Server} (hserves : Serves b urlopen) (hpos : 0 < ntry) {got : Nat}
    (hgot : got ≤ b.length) (hs : Resuming b got s) :
    (∃ e, (attempt dhdrs ehdrs urlopen ntry s).1 = .failed e) ∨
      ∃ got, got ≤ b.length ∧ Resuming b got (attempt dhdrs ehdrs urlopen ntry s).2 ∧
        ((attempt dhdrs ehdrs urlopen ntry s).1 = .fetched → got = b.length) := by
  cases hresp : urlopen ⟨hdrs, if 0 < ntry then some (s.fstatus, s.flens) else none⟩ with
  | none =>
      rw [attempt_of_none hhdrs hresp]
      exact Or.inr ⟨got, hgot, hs, fun h => by cases h⟩
  | some rqf =>
      rw [attempt_of_some hhdrs hresp]
      have hs' : if 0 < ntry then ∃ got, got ≤ b.length ∧ Resuming b got s else s.fstatus = 0 := by
        rw [if_pos hpos]
        exact ⟨got, hgot, hs⟩
      rcases fetchStream_serves ntry s hserves hresp rfl hs' with hraised | hrest
      · rw [hraised]
        exact Or.inr ⟨got, hgot, hs, fun h => by cases h⟩
      · exact hrest

/-- From a request on: the file is `b` in the end, and has been its beginning at every request
that follows. -/
structure Going (b : Bytes) (dhdrs : Headers) (ehdrs : Option Headers) (servers : List Server)
    (ntry : Nat) (s : Slot) : Prop where
  done : ∀ s', fetchUrl dhdrs ehdrs servers ntry s = some (none, s') → s'.part = some b
  resumed : ∀ p, p <+: servers → p ≠ [] → ∀ n s',
    requestAfter dhdrs ehdrs p ntry s = some (n, s') → s'.part = some (b.take s'.fstatus)

theorem going_cons {urlopen : Server} (hle : ntry ≤ 4)
    (hstep : (∃ e, (attempt dhdrs ehdrs urlopen ntry s).1 = .failed e) ∨
      ∃ got, got ≤ b.length ∧ Resuming b got (attempt dhdrs ehdrs urlopen ntry s).2 ∧
        ((attempt dhdrs ehdrs urlopen ntry s).1 = .fetched → got = b.length))
    (hrest : ∀ k s₁ got, 0 < k → k ≤ 4 → got ≤ b.length → Resuming b got s₁ →
      Going b dhdrs ehdrs servers k s₁) :
    Going b dhdrs ehdrs (urlopen :: servers) ntry s := by
  cases hnext : following ntry (attempt dhdrs ehdrs urlopen ntry s) with
  | none =>
      constructor
      · intro s' h
        obtain ⟨e, hdone, hfetched⟩ := fetchUrl_of_last servers hnext
        rw [hdone] at h
        injection h with hpair
        injection hpair with he hslot
        rw [← hslot]
        have hfetched := hfetched.mp he
        rcases hstep with hfailed | hresuming
        · obtain ⟨e, hfailed⟩ := hfailed
          rw [hfailed] at hfetched
          cases hfetched
        · obtain ⟨got, -, hs, hall⟩ := hresuming
          rw [hs.part, hall hfetched, List.take_length]
      · intro p hp hne n s' h
        obtain ⟨u, p, rfl⟩ := List.exists_cons_of_ne_nil hne
        rw [(List.cons_prefix_cons.mp hp).1, requestAfter, hnext] at h
        cases h
  | some r =>
      obtain ⟨k, s₁⟩ := r
      obtain ⟨hk, hk'⟩ := attempt_le hle hnext
      have hresuming : ∃ got, got ≤ b.length ∧ Resuming b got s₁ := by
        rcases hstep with hfailed | hresuming
        · obtain ⟨e, hfailed⟩ := hfailed
          exact absurd hfailed (not_failed_of_following hnext e)
        · obtain ⟨got, hgot, hs, -⟩ := hresuming
          rw [following_slot hnext]
          exact ⟨got, hgot, hs⟩
      obtain ⟨got, hgot, hs⟩ := hresuming
      have hgoing := hrest k s₁ got hk hk' hgot hs
      constructor
      · intro s' h
        rw [fetchUrl_of_following hnext] at h
        exact hgoing.done s' h
      · intro p hp hne n s' h
        obtain ⟨u, p, rfl⟩ := List.exists_cons_of_ne_nil hne
        obtain ⟨hu, hp⟩ := List.cons_prefix_cons.mp hp
        rw [hu, requestAfter, hnext] at h
        by_cases hnil : p = []
        · rw [hnil] at h
          cases h
          rw [hs.fstatus]
          exact hs.part
        · exact hgoing.resumed p hp hnil n s' h

theorem going_of_resuming (hhdrs : deleteNone (updateHeaders dhdrs ehdrs) = some hdrs)
    (hserves : ∀ u ∈ servers, Serves b u) (hpos : 0 < ntry) (hle : ntry ≤ 4) {got : Nat}
    (hgot : got ≤ b.length) (hs : Resuming b got s) : Going b dhdrs ehdrs servers ntry s := by
  induction servers generalizing ntry s got with
  | nil =>
      constructor
      · intro s' h
        cases h
      · intro p hp hne
        exact absurd (List.prefix_nil.mp hp) hne
  | cons urlopen servers ih =>
      apply going_cons hle
      · exact attempt_serves hhdrs (hserves urlopen List.mem_cons_self) hpos hgot hs
      · intro k s₁ got hk hk' hgot hs
        exact ih (fun u hu => hserves u (List.mem_cons_of_mem urlopen hu)) hk hk' hgot hs

/-- A file that is fetched from such a server is the server's file. -/
theorem gapless_of_serves (hserves : ∀ u ∈ servers, Serves b u) :
    Gapless b dhdrs ehdrs part servers := by
  intro s h
  cases hhdrs : deleteNone (updateHeaders dhdrs ehdrs) with
  | none => exact absurd h (fetchUrl_of_none servers hhdrs s)
  | some hdrs =>
      cases servers with
      | nil => cases h
      | cons urlopen servers =>
          -- without a response to the first request the length stays unknown
          have hnot : attempt dhdrs ehdrs urlopen 0 (.init part) ≠ (.raised, .init part) := by
            intro heq
            have hnext : following 0 (attempt dhdrs ehdrs urlopen 0 (.init part)) =
                some (1, .init part) := by
              rw [heq]
              rfl
            rw [fetchUrl_of_following hnext] at h
            exact fetchUrl_of_unknown servers Nat.one_pos rfl s h
          cases hresp : urlopen ⟨hdrs, none⟩ with
          | none => exact absurd (attempt_of_none hhdrs hresp) hnot
          | some rqf =>
              have hattempt : attempt dhdrs ehdrs urlopen 0 (.init part) =
                  fetchStream 0 rqf (.init part) := attempt_of_some hhdrs hresp
              have hstep := (fetchStream_serves 0 (.init part) (hserves urlopen List.mem_cons_self)
                hresp rfl rfl).resolve_left fun hraised => hnot (hattempt.trans hraised)
              rw [← hattempt] at hstep
              have hgoing : Going b dhdrs ehdrs (urlopen :: servers) 0 (.init part) := by
                apply going_cons (Nat.zero_le 4) hstep
                intro k s₁ got hk hk' hgot hs
                exact going_of_resuming hhdrs
                  (fun u hu => hserves u (List.mem_cons_of_mem urlopen hu)) hk hk' hgot hs
              exact ⟨hgoing.done s h, hgoing.resumed⟩

/-- The progress is recorded as it is, and a file fetched from a server that has one file is that
file, exactly when a partial file of an earlier run is opened anew. -/
theorem progress_gapless_iff (dhdrs : Headers) (ehdrs : Option Headers) (part : Option Bytes)
    (servers : List Server) :
    (Recorded dhdrs ehdrs part servers ∧
        ∀ b, (∀ u ∈ servers, Serves b u) → Gapless b dhdrs ehdrs part servers) ↔
      (part.getD []).length = 0 ∨ ∀ hdrs, deleteNone (updateHeaders dhdrs ehdrs) = some hdrs →
        ∀ i rqf, firstResponse hdrs servers 0 = some (i, rqf) → ¬ LeavesOld i rqf := by
  rw [← recorded_iff]
  exact and_iff_left fun b hserves => gapless_of_serves hserves

/-- The connection fails, and the second request is answered with a range. -/
def staleRange : List Server := [fun _ => none, fun _ => some ⟨some 206, none, [2], true⟩]

/-- The range is put behind what an earlier run has left. -/
theorem staleRange_not_recorded : ¬ ∀ (dhdrs : Headers) (ehdrs : Option Headers)
    (part : Option Bytes) (servers : List Server), Recorded dhdrs ehdrs part servers ∧
      ∀ b, (∀ u ∈ servers, Serves b u) → Gapless b dhdrs ehdrs part servers := by
  intro hall
  have hrecorded := (hall [] none (some [1]) staleRange).1
  have hsize := hrecorded staleRange List.prefix_rfl ⟨[], _, rfl, rfl⟩ 2 ⟨1, -1, some [1, 2]⟩ rfl
  cases hsize

end Cbuild.Fetch
