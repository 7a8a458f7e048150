import Cbuild.Fetch.Stream
import Mathlib

/-! # The retries of a download

A server has a file, and each attempt ends as such attempts end: there is no response, or one with
the whole file or the rest of it, of which some bytes come through. What the attempts deliver
together is set against what `fetch_url` makes of them.
-/

namespace Cbuild.Fetch

open Lib

/-! ## What the server does -/

/-- How a response goes: whether it has a `Content-Length`, how many bytes come through, and
whether reading raises after them or the body just ends. -/
structure Sent where
  declared : Bool
  bytes : Nat
  raises : Bool

inductive Outcome
  /-- The connection fails before the headers. -/
  | refused
  | full (x : Sent)
  /-- From the byte on that the request asks for. -/
  | ranged (x : Sent)

def respond (status : Nat) (file : Bytes) (x : Sent) : Response :=
  ⟨some status, if x.declared then some (some file.length) else none, file.take x.bytes, x.raises⟩

def Outcome.server (b : Bytes) (o : Outcome) : Server := fun rq =>
  match o with
  | refused => none
  | full x => some (respond 200 b x)
  | ranged x => some (respond 206 (b.drop (rq.range.elim 0 Prod.fst)) x)

/-! ## What is delivered -/

/-- The bytes there are after a response, `got` before its first one. -/
def Sent.upTo (x : Sent) (b : Bytes) (got : Nat) : Nat := min (got + x.bytes) b.length

def Sent.Completes (x : Sent) (b : Bytes) (got : Nat) : Prop :=
  x.raises = false ∧ x.upTo b got = b.length

/-- From attempt `ntry` on, with `got` bytes there, a response within the budget completes the
file. The budget is that of `fetch_url`: four attempts, counted anew after each range that is
read to its end. -/
def Delivers (b : Bytes) : List Outcome → Nat → Nat → Prop
  | [], _, _ => False
  | .refused :: os, ntry, got => ntry ≤ 3 ∧ Delivers b os (ntry + 1) got
  | .full x :: os, ntry, _ =>
      ntry ≤ 3 ∧ (x.Completes b 0 ∨ Delivers b os (ntry + 1) (x.upTo b 0))
  | .ranged x :: os, ntry, got =>
      x.Completes b got ∨
        if x.raises then ntry ≤ 3 ∧ Delivers b os (ntry + 1) (x.upTo b got)
        else Delivers b os 1 (x.upTo b got)

section

variable {b : Bytes} {dhdrs hdrs : Headers} {ehdrs : Option Headers} {ntry got : Nat} {s : Slot}
  {x : Sent}

/-! ## A length that is known -/

/-- The slot tells the truth: the length of the file, and how much of it is there. -/
structure Resuming (b : Bytes) (got : Nat) (s : Slot) : Prop where
  flens : s.flens = b.length
  fstatus : s.fstatus = got
  part : s.part = some (b.take got)

theorem upTo_le : x.upTo b got ≤ b.length := Nat.min_le_right ..

theorem readBody_spec (append : Bool) (ntry : Nat) (rqf : Response)
    (hflens : s.flens = b.length) (hgot : got ≤ b.length) (hst : s.fstatus + rqf.body.length = got)
    (hdf : (if append then s.part.getD [] else []) ++ rqf.body = b.take got) :
    ∃ s', Resuming b got s' ∧ readBody append (some b.length) ntry rqf s =
      if rqf.raises then (.raised, s')
      else if got = b.length then (.fetched, s')
      else (.resume (ntry + 1), s') := by
  refine ⟨⟨got, b.length, some (b.take got)⟩, ⟨rfl, rfl, rfl⟩, ?_⟩
  unfold readBody
  dsimp only
  rw [hdf, hst, hflens]
  by_cases hr : rqf.raises = true
  · rw [if_pos hr, if_pos hr]
  · rw [if_neg hr, if_neg hr]
    by_cases hall : got = b.length
    · rw [if_pos hall, if_neg (by simp [hall]), hall]
    · have hpos : b.length ≠ 0 := by omega
      rw [if_neg hall, if_pos]
      simp [hpos, hall]

theorem take_upTo (got : Nat) :
    b.take got ++ (b.drop got).take x.bytes = b.take (x.upTo b got) := by
  rw [← List.take_add]
  exact List.take_eq_take_min ..

theorem length_upTo (got : Nat) (hgot : got ≤ b.length) :
    got + ((b.drop got).take x.bytes).length = x.upTo b got := by
  unfold Sent.upTo
  rw [List.length_take, List.length_drop]
  omega

/-- A retry without headers in the way. -/
theorem attempt_eq (hhdrs : deleteNone (updateHeaders dhdrs ehdrs) = some hdrs) (hntry : 0 < ntry)
    (server : Server) : attempt dhdrs ehdrs server ntry s =
      match server ⟨hdrs, some (s.fstatus, s.flens)⟩ with
      | none => (.raised, s)
      | some rqf => fetchStream ntry rqf s := by
  cases hs : server ⟨hdrs, some (s.fstatus, s.flens)⟩ with
  | none => simp [attempt, hhdrs, hntry, hs]
  | some rqf => simp [attempt, hhdrs, hntry, hs]

theorem attempt_refused (hhdrs : deleteNone (updateHeaders dhdrs ehdrs) = some hdrs)
    (hntry : 0 < ntry) :
    attempt dhdrs ehdrs (Outcome.refused.server b) ntry s = (.raised, s) := by
  rw [attempt_eq hhdrs hntry]
  rfl

theorem attempt_full (hhdrs : deleteNone (updateHeaders dhdrs ehdrs) = some hdrs)
    (hntry : 0 < ntry) (hle : ntry ≤ 3) (hs : Resuming b got s) :
    ∃ s', Resuming b (x.upTo b 0) s' ∧
      attempt dhdrs ehdrs ((Outcome.full x).server b) ntry s =
        if x.raises then (.raised, s')
        else if x.upTo b 0 = b.length then (.fetched, s')
        else (.resume (ntry + 1), s') := by
  have hstream : attempt dhdrs ehdrs ((Outcome.full x).server b) ntry s =
      readBody false (some b.length) ntry (respond 200 b x) { s with fstatus := 0 } := by
    rw [attempt_eq hhdrs hntry]
    unfold Outcome.server fetchStream respond
    dsimp only
    rw [if_neg (by omega), if_pos hntry, if_pos (by omega), if_neg (by omega), hs.flens]
  rw [hstream]
  apply readBody_spec false ntry (respond 200 b x) (s := { s with fstatus := 0 }) hs.flens upTo_le
  · exact length_upTo 0 (Nat.zero_le _)
  · exact take_upTo 0

theorem attempt_ranged (hhdrs : deleteNone (updateHeaders dhdrs ehdrs) = some hdrs)
    (hntry : 0 < ntry) (hgot : got ≤ b.length) (hs : Resuming b got s) :
    ∃ s', Resuming b (x.upTo b got) s' ∧
      attempt dhdrs ehdrs ((Outcome.ranged x).server b) ntry s =
        if x.raises then (.raised, s')
        else if x.upTo b got = b.length then (.fetched, s')
        else (.resume 1, s') := by
  have hstream : attempt dhdrs ehdrs ((Outcome.ranged x).server b) ntry s =
      readBody true (some b.length) 0 (respond 206 (b.drop got) x) s := by
    rw [attempt_eq hhdrs hntry]
    unfold Outcome.server fetchStream respond
    dsimp only [Option.elim]
    rw [if_neg (by omega), if_pos hntry, if_neg (by omega), hs.flens, hs.fstatus]
  rw [hstream]
  apply readBody_spec true 0 (respond 206 (b.drop got) x) hs.flens upTo_le
  · rw [hs.fstatus]
    exact length_upTo got hgot
  · rw [hs.part]
    exact take_upTo got

/-- With the length known, whatever is delivered within the budget is taken. -/
theorem fetchUrl_of_resuming (hhdrs : deleteNone (updateHeaders dhdrs ehdrs) = some hdrs)
    (os : List Outcome) (hntry : 0 < ntry) (hgot : got ≤ b.length) (hs : Resuming b got s)
    (h : Delivers b os ntry got) :
    ∃ s', fetchUrl dhdrs ehdrs (os.map (Outcome.server b)) ntry s = some (none, s') ∧
      s'.part = some b := by
  induction os generalizing ntry got s with
  | nil => cases h
  | cons o os ih =>
      rw [List.map_cons]
      unfold fetchUrl
      have hdone : ∀ {got s}, Resuming b got s → got = b.length → s.part = some b := by
        intro got s hs hall
        rw [hs.part, hall, List.take_length]
      cases o with
      | refused =>
          obtain ⟨hle, h⟩ := h
          rw [attempt_refused hhdrs hntry]
          dsimp only
          rw [if_neg (by omega)]
          exact ih (Nat.succ_pos _) hgot hs h
      | full x =>
          obtain ⟨hle, h⟩ := h
          obtain ⟨s', hs', hattempt⟩ := attempt_full (x := x) hhdrs hntry hle hs
          rw [hattempt]
          cases hr : x.raises with
          | true =>
              have h : Delivers b os (ntry + 1) (x.upTo b 0) := by
                refine h.resolve_left fun hcomp => ?_
                have hends : x.raises = false := hcomp.1
                rw [hr] at hends
                cases hends
              simp only [if_true]
              rw [if_neg (by omega)]
              exact ih (Nat.succ_pos _) upTo_le hs' h
          | false =>
              simp only [Bool.false_eq_true, if_false]
              by_cases hall : x.upTo b 0 = b.length
              · rw [if_pos hall]
                exact ⟨s', rfl, hdone hs' hall⟩
              · rw [if_neg hall]
                exact ih (Nat.succ_pos _) upTo_le hs' (h.resolve_left fun hcomp => hall hcomp.2)
      | ranged x =>
          obtain ⟨s', hs', hattempt⟩ := attempt_ranged (x := x) hhdrs hntry hgot hs
          rw [hattempt]
          unfold Delivers at h
          cases hr : x.raises with
          | true =>
              rw [hr, if_pos rfl] at h
              obtain ⟨hle, h⟩ := h.resolve_left fun hcomp => by
                have hends : x.raises = false := hcomp.1
                rw [hr] at hends
                cases hends
              simp only [if_true]
              rw [if_neg (by omega)]
              exact ih (Nat.succ_pos _) upTo_le hs' h
          | false =>
              rw [hr, if_neg Bool.false_ne_true] at h
              simp only [Bool.false_eq_true, if_false]
              by_cases hall : x.upTo b got = b.length
              · rw [if_pos hall]
                exact ⟨s', rfl, hdone hs' hall⟩
              · rw [if_neg hall]
                exact ih Nat.one_pos upTo_le hs' (h.resolve_left fun hcomp => hall hcomp.2)

/-! ## A length that is not known -/

/-- The attempt does not complete the file, and the length is as unknown as before. -/
def Lost (r : Streamed × Slot) : Prop :=
  r.2.flens = -1 ∧ (r.1 = .raised ∨ (∃ n, 0 < n ∧ r.1 = .resume n) ∨ ∃ e, r.1 = .failed e)

theorem readBody_lost (append : Bool) (ntry : Nat) (rqf : Response) (hflens : s.flens = -1) :
    Lost (readBody append (some (-1)) ntry rqf s) := by
  have hany : ∀ n : Nat, ((some (-1) : Option Int).any fun l => l != 0 && (n : Int) != l) = true := by
    intro n
    have hne : (n : Int) ≠ -1 := by omega
    simp [hne]
  unfold readBody
  dsimp only
  rw [if_pos (hany _)]
  split
  · exact ⟨hflens, Or.inl rfl⟩
  · exact ⟨hflens, Or.inr (Or.inl ⟨ntry + 1, Nat.succ_pos ntry, rfl⟩)⟩

theorem fetchStream_lost (rqf : Response) (hntry : 0 < ntry) (hflens : s.flens = -1) :
    Lost (fetchStream ntry rqf s) := by
  unfold fetchStream
  rw [hflens]
  cases rqf.status with
  | none =>
      dsimp only
      rw [if_pos hntry]
      exact ⟨hflens, Or.inl rfl⟩
  | some status =>
      dsimp only
      rw [if_pos hntry]
      by_cases hother : status ≠ 200 ∧ status ≠ 206
      · rw [if_pos hother]
        split
        · exact ⟨hflens, Or.inr (Or.inr ⟨_, rfl⟩)⟩
        · exact ⟨hflens, Or.inl rfl⟩
      · rw [if_neg hother]
        by_cases hstatus : status ≠ 206
        · rw [if_pos hstatus]
          split
          · exact ⟨rfl, Or.inr (Or.inr ⟨_, rfl⟩)⟩
          · exact readBody_lost _ _ _ rfl
        · rw [if_neg hstatus]
          exact readBody_lost _ _ _ hflens

variable (dhdrs ehdrs) in
/-- A retry that does not know the length, whatever the server does. -/
theorem attempt_lost (server : Server) (hntry : 0 < ntry) (hflens : s.flens = -1) :
    Lost (attempt dhdrs ehdrs server ntry s) := by
  unfold attempt
  split
  · exact ⟨hflens, Or.inl rfl⟩
  · split
    · exact ⟨hflens, Or.inl rfl⟩
    · exact fetchStream_lost _ hntry hflens

theorem fetchUrl_of_unknown (servers : List Server) (hntry : 0 < ntry) (hflens : s.flens = -1)
    (s' : Slot) : fetchUrl dhdrs ehdrs servers ntry s ≠ some (none, s') := by
  induction servers generalizing ntry s with
  | nil =>
      intro h
      cases h
  | cons server servers ih =>
      obtain ⟨hflens', hcases⟩ :=
        attempt_lost dhdrs ehdrs server hntry hflens
      unfold fetchUrl
      intro h
      split at h
      · rename_i heq
        rw [heq] at hcases
        obtain hraised | ⟨n, -, hresume⟩ | ⟨e, hfailed⟩ := hcases
        · cases hraised
        · cases hresume
        · cases hfailed
      · cases h
      · rename_i n s₁ heq
        rw [heq] at hcases hflens'
        obtain hraised | ⟨m, hm, hresume⟩ | ⟨e, hfailed⟩ := hcases
        · cases hraised
        · cases hresume
          exact ih hm hflens' h
        · cases hfailed
      · rename_i s₁ heq
        rw [heq] at hflens'
        split at h
        · cases h
        · exact ih (Nat.succ_pos _) hflens' h

/-- With a header that is `None` no request is ever made. -/
theorem fetchUrl_of_none (servers : List Server)
    (hhdrs : deleteNone (updateHeaders dhdrs ehdrs) = none) (s' : Slot) :
    fetchUrl dhdrs ehdrs servers ntry s ≠ some (none, s') := by
  induction servers generalizing ntry with
  | nil =>
      intro h
      cases h
  | cons server servers ih =>
      unfold fetchUrl attempt
      rw [hhdrs]
      dsimp only
      split
      · intro h
        cases h
      · exact ih

/-! ## The first attempt -/

/-- The first attempt learns the length of the file, or takes the body as it comes. -/
def Outcome.Tells : Outcome → Prop
  | refused => False
  | full x => x.declared = true ∨ x.raises = false
  | ranged x => x.declared = true ∨ x.raises = false

/-- The first request has no range, so that a response to it is one with the whole file. -/
theorem attempt_first (hhdrs : deleteNone (updateHeaders dhdrs ehdrs) = some hdrs)
    {o : Outcome} (ho : o = .full x ∨ o = .ranged x) (part : Option Bytes) :
    ∃ status, attempt dhdrs ehdrs (o.server b) 0 (.init part) =
      readBody false (if x.declared then some (b.length : Int) else none) 0 (respond status b x)
        ⟨0, if x.declared then b.length else -1, part⟩ := by
  have hstream : ∀ status, status = 200 ∨ status = 206 →
      fetchStream 0 (respond status b x) (.init part) =
        readBody false (if x.declared then some (b.length : Int) else none) 0 (respond status b x)
          ⟨0, if x.declared then b.length else -1, part⟩ := by
    intro status hstatus
    unfold fetchStream respond Slot.init
    dsimp only
    rw [if_neg (by omega), if_neg (Nat.lt_irrefl 0)]
    cases x.declared with
    | true => rfl
    | false => rfl
  unfold attempt
  rw [hhdrs, if_neg (Nat.lt_irrefl 0)]
  rcases ho with rfl | rfl
  · exact ⟨200, hstream 200 (Or.inl rfl)⟩
  · exact ⟨206, hstream 206 (Or.inr rfl)⟩

/-- What the first response leaves to be delivered. -/
theorem delivers_first {os : List Outcome} {o : Outcome} (ho : o = .full x ∨ o = .ranged x)
    (h : Delivers b (o :: os) 0 0) :
    x.Completes b 0 ∨ Delivers b os 1 (x.upTo b 0) := by
  rcases ho with rfl | rfl
  · exact h.2
  · rcases h with hcomp | h
    · exact Or.inl hcomp
    · split at h
      · exact Or.inr h.2
      · exact Or.inr h

/-- `fetch_url` returns without an error. -/
def Succeeds (b : Bytes) (dhdrs : Headers) (ehdrs : Option Headers) (part : Option Bytes)
    (os : List Outcome) : Prop :=
  ∃ s, fetchUrl dhdrs ehdrs (os.map (Outcome.server b)) 0 (.init part) = some (none, s)

theorem succeeds_of_response (hhdrs : deleteNone (updateHeaders dhdrs ehdrs) = some hdrs)
    {o : Outcome} {os : List Outcome} (ho : o = .full x ∨ o = .ranged x) (part : Option Bytes)
    (h : Delivers b (o :: os) 0 0) :
    Succeeds b dhdrs ehdrs part (o :: os) ↔ x.declared = true ∨ x.raises = false := by
  obtain ⟨status, hattempt⟩ := attempt_first (b := b) hhdrs ho part
  have hdel := delivers_first ho h
  unfold Succeeds
  rw [List.map_cons]
  unfold fetchUrl
  rw [hattempt]
  cases hd : x.declared with
  | true =>
      have hlen := length_upTo (b := b) (x := x) 0 (Nat.zero_le _)
      have htake := take_upTo (b := b) (x := x) 0
      obtain ⟨s', hs', hread⟩ := readBody_spec false 0 (respond status b x)
        (s := ⟨0, b.length, part⟩) rfl upTo_le hlen htake
      simp only [if_true, true_or, iff_true]
      rw [hread]
      have hrest : ¬ x.Completes b 0 → ∃ s, fetchUrl dhdrs ehdrs (os.map (Outcome.server b)) 1 s' =
          some (none, s) := by
        intro hnot
        obtain ⟨s, hs, -⟩ :=
          fetchUrl_of_resuming hhdrs os Nat.one_pos upTo_le hs' (hdel.resolve_left hnot)
        exact ⟨s, hs⟩
      unfold respond
      dsimp only
      by_cases hr : x.raises = true
      · rw [if_pos hr]
        dsimp only
        rw [if_neg (by omega)]
        apply hrest
        intro hcomp
        rw [hcomp.1] at hr
        cases hr
      · rw [if_neg hr]
        by_cases hall : x.upTo b 0 = b.length
        · rw [if_pos hall]
          exact ⟨s', rfl⟩
        · rw [if_neg hall]
          exact hrest fun hcomp => hall hcomp.2
  | false =>
      simp only [Bool.false_eq_true, if_false, false_or]
      unfold readBody respond
      dsimp only
      by_cases hr : x.raises = true
      · rw [if_pos hr, hr]
        dsimp only
        rw [if_neg (by omega)]
        constructor
        · intro hsucc
          obtain ⟨s, hs⟩ := hsucc
          exact absurd hs (fetchUrl_of_unknown _ Nat.one_pos rfl s)
        · intro hfalse
          cases hfalse
      · rw [if_neg hr, if_neg (by simp)]
        simp [hr]

theorem deleteNone_eq : deleteNone hdrs = some hdrs ↔ ∀ e ∈ hdrs, e.2 ≠ none := by
  unfold deleteNone
  split
  · rename_i hany
    obtain ⟨e, he, hnone⟩ := List.any_eq_true.mp hany
    constructor
    · intro h
      cases h
    · intro h
      exact absurd (Option.isNone_iff_eq_none.mp hnone) (h e he)
  · rename_i hany
    constructor
    · intro _ e he hnone
      exact hany (List.any_eq_true.mpr ⟨e, he, Option.isNone_iff_eq_none.mpr hnone⟩)
    · intro _
      rfl

/-- What is delivered within the budget is taken exactly when no header is `None` and the first
attempt learns the length of the file, or takes the body as it comes. -/
theorem fetchUrl_succeeds_iff (b : Bytes) (dhdrs : Headers) (ehdrs : Option Headers)
    (part : Option Bytes) (os : List Outcome) :
    (Delivers b os 0 0 → Succeeds b dhdrs ehdrs part os) ↔
      (Delivers b os 0 0 →
        (∀ e ∈ updateHeaders dhdrs ehdrs, e.2 ≠ none) ∧ ∃ o ∈ os.head?, o.Tells) := by
  refine forall_congr' fun h => ?_
  rw [← deleteNone_eq]
  by_cases hhdrs : deleteNone (updateHeaders dhdrs ehdrs) = some (updateHeaders dhdrs ehdrs)
  · rw [and_iff_right hhdrs]
    cases os with
    | nil => cases h
    | cons o os =>
        have hhead : (∃ o' ∈ (o :: os).head?, o'.Tells) ↔ o.Tells := by simp
        rw [hhead]
        cases o with
        | refused =>
            constructor
            · intro hsucc
              obtain ⟨s, hs⟩ := hsucc
              have hattempt : attempt dhdrs ehdrs (Outcome.refused.server b) 0 (.init part) =
                  (.raised, .init part) := by
                unfold attempt
                rw [hhdrs]
                rfl
              rw [List.map_cons] at hs
              unfold fetchUrl at hs
              rw [hattempt] at hs
              dsimp only at hs
              rw [if_neg (by omega)] at hs
              exact absurd hs (fetchUrl_of_unknown _ Nat.one_pos rfl s)
            · intro hfalse
              cases hfalse
        | full x => exact succeeds_of_response hhdrs (Or.inl rfl) part h
        | ranged x => exact succeeds_of_response hhdrs (Or.inr rfl) part h
  · have hnone : deleteNone (updateHeaders dhdrs ehdrs) = none := by
      unfold deleteNone at hhdrs ⊢
      split
      · rfl
      · rename_i hany
        exact absurd (if_neg hany) hhdrs
    constructor
    · intro hsucc
      obtain ⟨s, hs⟩ := hsucc
      exact absurd hs (fetchUrl_of_none _ hnone s)
    · intro hboth
      exact absurd hboth.1 hhdrs

/-- The connection fails once, and the second attempt is given the whole file. -/
theorem refusedFirst_not_succeeds : ¬ ∀ (b : Bytes) (dhdrs : Headers) (ehdrs : Option Headers)
    (part : Option Bytes) (os : List Outcome),
    Delivers b os 0 0 → Succeeds b dhdrs ehdrs part os := by
  intro hall
  have hdel : Delivers [1] [.refused, .full ⟨true, 1, false⟩] 0 0 :=
    ⟨Nat.zero_le 3, by decide, Or.inl ⟨rfl, rfl⟩⟩
  obtain ⟨s, hs⟩ := hall [1] [] none none _ hdel
  cases hs

end

end Cbuild.Fetch
