import Cbuild.Fetch.Progress
import Cbuild.Lib.Reach

/-! # The downloads and the progress loop

The workers of the pool and the loop that prints the progress share `fstatus` and `flens`, under a
lock. What happens under the lock at once is one step here, and the steps of the workers and of the
loop come in any order.
-/

namespace Cbuild.Fetch

open Lib

/-! ## A worker -/

/-- How far the download of a source is. -/
inductive Task
  /-- No thread has taken it. -/
  | waiting
  | request (ntry : Nat)
  /-- The file is open; `k` is the `ntry` of `fetch_stream`, which it may have reset. -/
  | reading (ntry k : Nat) (clen : Option Int)
  /-- The file is complete, and about to be renamed. -/
  | complete (ntry : Nat)
  | returned (err : Option FetchError)
  deriving DecidableEq

inductive Move
  | start
  /-- Whatever the worker is at raises. -/
  | fail
  | respond (status : Option Nat) (contentLength : Option (Option Int))
  /-- Some of the body, which is not empty. -/
  | read (data : Bytes)
  | eof
  | rename

inductive Opened
  | raised
  | failed (e : FetchError) (s : Slot)
  | opened (k : Nat) (clen : Option Int) (s : Slot)

/-- The file is opened: anew, or to append to it. -/
def Slot.opened (s : Slot) (append : Bool) : Slot :=
  { s with part := some (if append then s.part.getD [] else []) }

/-- `fetch_stream` up to where the file is open. -/
def openBody (ntry : Nat) (status : Option Nat) (contentLength : Option (Option Int)) (s : Slot) :
    Opened :=
  match status with
  | none => if 0 < ntry then .raised else .opened ntry none (s.opened false)
  | some status =>
      if status ≠ 200 ∧ status ≠ 206 then
        if responses.contains status then .failed (.unexpectedStatus status) s else .raised
      else if 0 < ntry then
        if status ≠ 206 then
          let s := { s with fstatus := 0 }
          if 3 < ntry then .failed .attemptsExceeded s
          else .opened ntry (some s.flens) (s.opened false)
        else .opened 0 (some s.flens) (s.opened true)
      else
        match contentLength with
        | some none => .raised
        | some (some clen) => .opened ntry (some clen) ({ s with flens := clen }.opened false)
        | none => .opened ntry none (s.opened false)

/-- The `except` of `fetch_url`. -/
def retry (ntry : Nat) : Task :=
  if 3 < ntry then .returned (some .exception) else .request (ntry + 1)

def Task.step (task : Task) (s : Slot) (m : Move) : Option (Task × Slot) :=
  match task, m with
  | waiting, .start => some (request 0, s)
  | request ntry, .fail => some (retry ntry, s)
  | request ntry, .respond status contentLength =>
      match openBody ntry status contentLength s with
      | .raised => some (retry ntry, s)
      | .failed e s => some (returned (some e), s)
      | .opened k clen s => some (reading ntry k clen, s)
  | reading ntry _ _, .fail => some (retry ntry, s)
  | reading ntry k clen, .read data =>
      if data.isEmpty then none
      else some (reading ntry k clen,
        { s with part := s.part.map (· ++ data), fstatus := s.fstatus + data.length })
  | reading ntry k clen, .eof =>
      if clen.any fun n => n != 0 && (s.fstatus : Int) != n then some (request (k + 1), s)
      else some (complete ntry, { s with flens := s.fstatus })
  | complete ntry, .fail => some (retry ntry, s)
  | complete _, .rename => some (returned none, s)
  | _, _ => none

/-! ## The pool and the loop -/

/-- Where `invoke` is. -/
inductive Main
  /-- About to ask whether all downloads have ended. -/
  | asking
  /-- They have not; about to take the lock and go over them. -/
  | printing
  /-- A division by zero has been raised. -/
  | raised
  /-- All have ended, so many of them with an error: it reports them if there are any. -/
  | collected (ferrs : Nat)
  deriving DecidableEq

structure Downloads (n : Nat) where
  task : Fin n → Task
  slot : Fin n → Slot
  main : Main

inductive Act (n : Nat)
  | worker (i : Fin n) (m : Move)
  | main

/-- `dled / clen` is computed if the length is known. -/
def Slot.divides (s : Slot) : Bool := !decide (s.flens < 0)

def Task.ended : Task → Bool
  | returned _ => true
  | _ => false

def Task.erred : Task → Bool
  | returned (some _) => true
  | _ => false

variable {n : Nat}

namespace Downloads

def start (parts : Fin n → Option Bytes) : Downloads n :=
  ⟨fun _ => .waiting, fun i => .init (parts i), .asking⟩

def mainStep (p : Downloads n) : Option Main :=
  match p.main with
  | .asking =>
      if ∀ i, (p.task i).ended then
        some (.collected ((List.finRange n).countP fun i => (p.task i).erred))
      else some .printing
  | .printing =>
      if ∃ i, (p.slot i).divides ∧ (p.slot i).flens = 0 then some .raised else some .asking
  | .raised => none
  | .collected _ => none

def step (p : Downloads n) : Act n → Option (Downloads n)
  | .worker i m =>
      ((p.task i).step (p.slot i) m).map fun r =>
        { p with task := Function.update p.task i r.1, slot := Function.update p.slot i r.2 }
  | .main => p.mainStep.map fun main => { p with main := main }

end Downloads

/-! ## A worker is an attempt after another -/

section

variable {task task' : Task} {s s' : Slot} {ntry : Nat}

/-- The task an attempt leaves. -/
def Task.after (ntry : Nat) : Streamed → Task
  | .fetched => complete ntry
  | .failed e => returned (some e)
  | .resume k => request k
  | .raised => retry ntry

/-- What `fetch_stream` does with the body. -/
theorem fetchStream_eq (ntry : Nat) (rqf : Response) (s : Slot) : fetchStream ntry rqf s =
    match openBody ntry rqf.status rqf.contentLength s with
    | .raised => (.raised, s)
    | .failed e s => (.failed e, s)
    | .opened k clen s => readBody true clen k rqf s := by
  have hread : ∀ (append : Bool) (clen : Option Int) (k : Nat) (s : Slot),
      readBody append clen k rqf s = readBody true clen k rqf (s.opened append) := by
    intro append clen k s
    cases append with
    | true => rfl
    | false => rfl
  unfold fetchStream openBody
  cases rqf.status with
  | none =>
      dsimp only
      split
      · rfl
      · exact hread ..
  | some status =>
      dsimp only
      split
      · split
        · rfl
        · rfl
      · split
        · split
          · split
            · rfl
            · exact hread ..
          · exact hread ..
        · cases rqf.contentLength with
          | none => exact hread ..
          | some l =>
              cases l with
              | none => rfl
              | some clen => exact hread ..

/-- The steps of one worker. -/
def Task.steps (r : Task × Slot) (ms : List Move) : Option (Task × Slot) :=
  ms.foldlM (fun r m => r.1.step r.2 m) r

theorem steps_cons {r r' : Task × Slot} {m : Move} {ms : List Move}
    (h : r.1.step r.2 m = some r') : Task.steps r (m :: ms) = Task.steps r' ms := by
  show (r.1.step r.2 m).bind (fun r => Task.steps r ms) = _
  rw [h]
  rfl

/-- What is known when the file is open: the length expected is that of the slot, or has just been
read from the header of the first response. -/
theorem openBody_spec (ntry : Nat) (status : Option Nat) (contentLength : Option (Option Int))
    (s : Slot) : match openBody ntry status contentLength s with
      | .raised => True
      | .failed _ s' => s'.flens = s.flens
      | .opened _ clen s' => (∃ df, s'.part = some df) ∧
          ((s'.flens = s.flens ∧ (clen = none ∨ clen = some s.flens)) ∨
            (ntry = 0 ∧ (status = some 200 ∨ status = some 206) ∧
              contentLength = some (some s'.flens) ∧ clen = some s'.flens)) := by
  unfold openBody
  cases status with
  | none =>
      dsimp only
      by_cases hretry : 0 < ntry
      · rw [if_pos hretry]
        trivial
      · rw [if_neg hretry]
        exact ⟨⟨_, rfl⟩, Or.inl ⟨rfl, Or.inl rfl⟩⟩
  | some status =>
      dsimp only
      by_cases hother : status ≠ 200 ∧ status ≠ 206
      · rw [if_pos hother]
        by_cases hresp : responses.contains status
        · rw [if_pos hresp]
        · rw [if_neg hresp]
          trivial
      · rw [if_neg hother]
        by_cases hretry : 0 < ntry
        · rw [if_pos hretry]
          by_cases hrange : status ≠ 206
          · rw [if_pos hrange]
            by_cases hexceeded : 3 < ntry
            · rw [if_pos hexceeded]
            · rw [if_neg hexceeded]
              exact ⟨⟨_, rfl⟩, Or.inl ⟨rfl, Or.inr rfl⟩⟩
          · rw [if_neg hrange]
            exact ⟨⟨_, rfl⟩, Or.inl ⟨rfl, Or.inr rfl⟩⟩
        · rw [if_neg hretry]
          have hok : status = 200 ∨ status = 206 := by omega
          cases contentLength with
          | none => exact ⟨⟨_, rfl⟩, Or.inl ⟨rfl, Or.inl rfl⟩⟩
          | some l =>
              cases l with
              | none => trivial
              | some l =>
                  have hok := hok.imp (congrArg some) (congrArg some)
                  exact ⟨⟨_, rfl⟩, Or.inr ⟨by omega, hok, rfl, rfl⟩⟩

/-- The body is read, and then ends or raises. -/
theorem steps_readBody (ntry k : Nat) (clen : Option Int) (rqf : Response) {df : Bytes}
    (hpart : s.part = some df) : ∃ ms, Task.steps (.reading ntry k clen, s) ms =
      some (.after ntry (readBody true clen k rqf s).1, (readBody true clen k rqf s).2) := by
  have hends : ∀ s' : Slot, s'.part = some (df ++ rqf.body) →
      s'.fstatus = s.fstatus + rqf.body.length → s'.flens = s.flens →
      ∃ ms, Task.steps (.reading ntry k clen, s') ms =
        some (.after ntry (readBody true clen k rqf s).1, (readBody true clen k rqf s).2) := by
    intro s' hpart' hcount hflens
    have hs' : s' = { s with
        part := some (s.part.getD [] ++ rqf.body), fstatus := s.fstatus + rqf.body.length } := by
      rw [hpart, Option.getD_some, ← hpart', ← hcount, ← hflens]
    have heof : (Task.reading ntry k clen).step s' .eof =
        if clen.any fun n => n != 0 && (s'.fstatus : Int) != n then some (.request (k + 1), s')
        else some (.complete ntry, { s' with flens := s'.fstatus }) := rfl
    rw [hs'] at heof ⊢
    unfold readBody
    dsimp only at heof ⊢
    split
    · exact ⟨[.fail], rfl⟩
    · refine ⟨[.eof], ?_⟩
      split
      next hshort =>
        rw [if_pos hshort] at heof
        exact steps_cons heof
      next hall =>
        rw [if_neg hall] at heof
        exact steps_cons heof
  cases hbody : rqf.body with
  | nil =>
      apply hends s
      · rw [hpart, hbody, List.append_nil]
      · rw [hbody]
        rfl
      · rfl
  | cons c cs =>
      obtain ⟨ms, hms⟩ := hends { s with
        part := s.part.map (· ++ rqf.body), fstatus := s.fstatus + rqf.body.length }
        (by rw [hpart]; rfl) rfl rfl
      refine ⟨.read rqf.body :: ms, ?_⟩
      rw [← hms]
      apply steps_cons
      show (if rqf.body.isEmpty then none else _) = _
      rw [hbody]
      rfl

/-- A worker can do what one attempt does, step by step. -/
theorem task_attempt (dhdrs : Headers) (ehdrs : Option Headers) (urlopen : Server) (ntry : Nat)
    (s : Slot) : ∃ ms, Task.steps (.request ntry, s) ms =
      some (.after ntry (attempt dhdrs ehdrs urlopen ntry s).1,
        (attempt dhdrs ehdrs urlopen ntry s).2) := by
  unfold attempt
  split
  · exact ⟨[.fail], rfl⟩
  · split
    · exact ⟨[.fail], rfl⟩
    next rqf _ =>
      rw [fetchStream_eq]
      have hrespond : (Task.request ntry).step s (.respond rqf.status rqf.contentLength) =
          match openBody ntry rqf.status rqf.contentLength s with
          | .raised => some (retry ntry, s)
          | .failed e s => some (.returned (some e), s)
          | .opened k clen s => some (.reading ntry k clen, s) := rfl
      cases hopen : openBody ntry rqf.status rqf.contentLength s with
      | raised =>
          rw [hopen] at hrespond
          exact ⟨[_], steps_cons hrespond⟩
      | failed e s' =>
          rw [hopen] at hrespond
          exact ⟨[_], steps_cons hrespond⟩
      | opened k clen s' =>
          rw [hopen] at hrespond
          have hspec := openBody_spec ntry rqf.status rqf.contentLength s
          rw [hopen] at hspec
          obtain ⟨df, hpart⟩ := hspec.1
          obtain ⟨ms, hms⟩ := steps_readBody ntry k clen rqf hpart
          exact ⟨_ :: ms, (steps_cons hrespond).trans hms⟩

end

/-! ## No length of 0 -/

/-- The move stores a length of 0: a first response announces it, or a body of a length that is
not known ends without a byte. -/
def StoresZero (task : Task) (s : Slot) : Move → Prop
  | .respond status contentLength =>
      task = .request 0 ∧ (status = some 200 ∨ status = some 206) ∧ contentLength = some (some 0)
  | .eof => s.fstatus = 0 ∧ ∃ ntry k, task = .reading ntry k none
  | _ => False

/-- No length of 0 is stored or expected. -/
structure Nonzero (task : Task) (s : Slot) : Prop where
  flens : s.flens ≠ 0
  clen : ∀ ntry k clen, task = .reading ntry k (some clen) → clen ≠ 0

section

variable {task task' : Task} {s s' : Slot} {m : Move}

theorem retry_ne_reading (ntry i k : Nat) (clen : Option Int) : retry ntry ≠ .reading i k clen := by
  unfold retry
  split
  · intro h
    cases h
  · intro h
    cases h

/-- A step that stores no zero. -/
theorem step_nonzero (h : Nonzero task s) (hzero : ¬ StoresZero task s m)
    (hstep : task.step s m = some (task', s')) : Nonzero task' s' := by
  have hretry : ∀ ntry, Nonzero (retry ntry) s := fun ntry =>
    ⟨h.flens, fun i k clen heq => absurd heq (retry_ne_reading ntry i k clen)⟩
  unfold Task.step at hstep
  split at hstep
  · cases hstep
    exact ⟨h.flens, fun _ _ _ heq => by cases heq⟩
  · cases hstep
    exact hretry _
  next ntry status contentLength =>
    have hspec := openBody_spec ntry status contentLength s
    cases hopen : openBody ntry status contentLength s with
    | raised =>
        rw [hopen] at hstep
        cases hstep
        exact hretry ntry
    | failed e s₁ =>
        rw [hopen] at hstep hspec
        cases hstep
        exact ⟨ne_of_eq_of_ne hspec h.flens, fun _ _ _ heq => by cases heq⟩
    | opened k clen s₁ =>
        rw [hopen] at hstep hspec
        cases hstep
        rcases hspec.2 with ⟨hflens, hclen⟩ | ⟨hfirst, hok, hlen, hclen⟩
        · refine ⟨ne_of_eq_of_ne hflens h.flens, fun _ _ l heq => ?_⟩
          cases heq
          rcases hclen with hclen | hclen
          · cases hclen
          · cases hclen
            exact h.flens
        · have hne : s'.flens ≠ 0 := by
            intro hl
            rw [hl] at hlen
            rw [hfirst] at hzero
            exact hzero ⟨rfl, hok, hlen⟩
          refine ⟨hne, fun _ _ l heq => ?_⟩
          cases heq
          cases hclen
          exact hne
  · cases hstep
    exact hretry _
  · split at hstep
    · cases hstep
    · cases hstep
      exact ⟨h.flens, fun _ _ _ heq => by cases heq; exact h.clen _ _ _ rfl⟩
  next ntry k clen =>
    split at hstep
    · cases hstep
      exact ⟨h.flens, fun _ _ _ heq => by cases heq⟩
    next hall =>
      cases hstep
      refine ⟨?_, fun _ _ _ heq => by cases heq⟩
      -- what is stored is the length that was expected, or all that has come
      intro hcount
      have hcount : s.fstatus = 0 := Int.natCast_eq_zero.mp hcount
      cases clen with
      | none => exact hzero ⟨hcount, ntry, k, rfl⟩
      | some l =>
          have hne := h.clen ntry k l rfl
          apply hall
          rw [hcount]
          simp [hne, Ne.symm hne]
  · cases hstep
    exact hretry _
  · cases hstep
    exact ⟨h.flens, fun _ _ _ heq => by cases heq⟩
  · cases hstep

/-- A step that stores one. -/
theorem step_storesZero (hzero : StoresZero task s m)
    (hstep : task.step s m = some (task', s')) : s'.flens = 0 ∧ task'.ended = false := by
  cases m with
  | start => exact hzero.elim
  | fail => exact hzero.elim
  | read data => exact hzero.elim
  | rename => exact hzero.elim
  | respond status contentLength =>
      obtain ⟨htask, hstatus, hlen⟩ := hzero
      rw [htask, hlen] at hstep
      rcases hstatus with hstatus | hstatus
      · rw [hstatus] at hstep
        cases hstep
        exact ⟨rfl, rfl⟩
      · rw [hstatus] at hstep
        cases hstep
        exact ⟨rfl, rfl⟩
  | eof =>
      obtain ⟨hcount, ntry, k, htask⟩ := hzero
      rw [htask] at hstep
      cases hstep
      rw [hcount]
      exact ⟨rfl, rfl⟩

/-- A source that has ended makes no more moves. -/
theorem step_ended (h : task.ended = true) : task.step s m = none := by
  cases task with
  | returned err => rfl
  | waiting => cases h
  | request ntry => cases h
  | reading ntry k clen => cases h
  | complete ntry => cases h

end

/-! ## The divisions -/

section

variable {n : Nat} {parts : Fin n → Option Bytes} {served : Downloads n → Fin n → Move → Prop}
  {p p' : Downloads n}

/-- What the server does, and what the pool starts, is as `served` says; the loop is free. -/
def Allowed (served : Downloads n → Fin n → Move → Prop) (p : Downloads n) : Act n → Prop
  | .worker i m => served p i m
  | .main => True

theorem divides_of_zero {s : Slot} (h : s.flens = 0) : s.divides = true := by
  unfold Slot.divides
  rw [h]
  rfl

theorem update_slot {i : Fin n} {m : Move} (h : p.step (.worker i m) = some p') :
    ∃ task s, (p.task i).step (p.slot i) m = some (task, s) ∧
      p' = ⟨Function.update p.task i task, Function.update p.slot i s, p.main⟩ := by
  obtain ⟨r, hr, hp⟩ := Option.map_eq_some_iff.mp h
  exact ⟨r.1, r.2, hr, hp.symm⟩

theorem step_main (h : p.step .main = some p') :
    ∃ main, p.mainStep = some main ∧ p' = { p with main := main } := by
  obtain ⟨main, hmain, hp⟩ := Option.map_eq_some_iff.mp h
  exact ⟨main, hmain, hp.symm⟩

/-- The results are collected when all have ended. -/
theorem collected_ended (h : Reaches Downloads.step (Allowed served) (.start parts) p)
    (ferrs : Nat) (hmain : p.main = .collected ferrs) (i : Fin n) : (p.task i).ended = true := by
  induction h with
  | start => cases hmain
  | @next p p' a _ _ hs ih =>
      cases a with
      | worker j m =>
          obtain ⟨task, s, hstep, rfl⟩ := update_slot hs
          have hended := ih hmain
          by_cases hij : i = j
          · rw [hij] at hended
            rw [step_ended hended] at hstep
            cases hstep
          · show (Function.update p.task j task i).ended = true
            rw [Function.update_of_ne hij]
            exact hended
      | main =>
          obtain ⟨main, hstep, rfl⟩ := step_main hs
          unfold Downloads.mainStep at hstep
          split at hstep
          · split at hstep
            next hall => exact hall i
            next =>
              cases hstep
              cases hmain
          · split at hstep
            · cases hstep
              cases hmain
            · cases hstep
              cases hmain
          · cases hstep
          · cases hstep

theorem nonzero_of_reaches
    (hzero : ∀ p, Reaches Downloads.step (Allowed served) (.start parts) p → ∀ i m p', served p i m →
      p.step (.worker i m) = some p' → ¬ StoresZero (p.task i) (p.slot i) m)
    (h : Reaches Downloads.step (Allowed served) (.start parts) p) :
    p.main ≠ .raised ∧ ∀ i, Nonzero (p.task i) (p.slot i) := by
  induction h with
  | start =>
      constructor
      · intro h
        cases h
      · intro i
        refine ⟨?_, fun _ _ _ heq => by cases heq⟩
        show (-1 : Int) ≠ 0
        decide
  | @next p p' a hp hC hs ih =>
      obtain ⟨hmain, hall⟩ := ih
      cases a with
      | worker i m =>
          have hnot := hzero p hp i m p' hC hs
          obtain ⟨task, s, hstep, rfl⟩ := update_slot hs
          refine ⟨hmain, fun j => ?_⟩
          by_cases hij : j = i
          · rw [hij]
            show Nonzero (Function.update p.task i task i) (Function.update p.slot i s i)
            rw [Function.update_self, Function.update_self]
            exact step_nonzero (hall i) hnot hstep
          · show Nonzero (Function.update p.task i task j) (Function.update p.slot i s j)
            rw [Function.update_of_ne hij, Function.update_of_ne hij]
            exact hall j
      | main =>
          obtain ⟨main, hstep, rfl⟩ := step_main hs
          refine ⟨?_, hall⟩
          unfold Downloads.mainStep at hstep
          split at hstep
          · split at hstep
            · cases hstep
              intro h
              cases h
            · cases hstep
              intro h
              cases h
          · split at hstep
            next hdiv =>
              obtain ⟨i, -, hflens⟩ := hdiv
              exact absurd hflens (hall i).flens
            next =>
              cases hstep
              intro h
              cases h
          · cases hstep
          · cases hstep

theorem step_asking (hmain : p.main = .asking) (h : ¬ ∀ i, (p.task i).ended) :
    p.step .main = some { p with main := .printing } := by
  unfold Downloads.step Downloads.mainStep
  rw [hmain]
  show (if _ then _ else _ : Option Main).map _ = _
  rw [if_neg h]
  rfl

theorem step_printing (hmain : p.main = .printing)
    (h : ∃ i, (p.slot i).divides ∧ (p.slot i).flens = 0) :
    p.step .main = some { p with main := .raised } := by
  unfold Downloads.step Downloads.mainStep
  rw [hmain]
  show (if _ then _ else _ : Option Main).map _ = _
  rw [if_pos h]
  rfl

/-- When a length of 0 is stored the loop divides by it, if it is next. -/
theorem raises_of_storesZero (hp : Reaches Downloads.step (Allowed served) (.start parts) p)
    (hraised : p.main ≠ .raised) {i : Fin n} {m : Move} (hserved : served p i m)
    (hs : p.step (.worker i m) = some p') (hzero : StoresZero (p.task i) (p.slot i) m) :
    ∃ q, Reaches Downloads.step (Allowed served) (.start parts) q ∧ q.main = .raised := by
  have hp' := hp.next (Act.worker i m) hserved hs
  obtain ⟨task, s, hstep, rfl⟩ := update_slot hs
  obtain ⟨hflens, hended⟩ := step_storesZero hzero hstep
  have hdiv : ∃ j, (Function.update p.slot i s j).divides ∧
      (Function.update p.slot i s j).flens = 0 := by
    refine ⟨i, ?_⟩
    rw [Function.update_self]
    exact ⟨divides_of_zero hflens, hflens⟩
  have hnot : ¬ ∀ j, (Function.update p.task i task j).ended := by
    intro hall
    have hi := hall i
    rw [Function.update_self, hended] at hi
    cases hi
  cases hmain : p.main with
  | asking =>
      have hprint := hp'.next Act.main trivial (step_asking hmain hnot)
      exact ⟨_, hprint.next Act.main trivial (step_printing rfl hdiv), rfl⟩
  | printing => exact ⟨_, hp'.next Act.main trivial (step_printing hmain hdiv), rfl⟩
  | raised => exact absurd hmain hraised
  | collected ferrs =>
      have hall := collected_ended hp ferrs hmain i
      rw [step_ended hall] at hstep
      cases hstep

/-- In no run a division by zero is raised exactly when in no run a length of 0 is stored. -/
theorem display_raises_iff (n : Nat) (parts : Fin n → Option Bytes)
    (served : Downloads n → Fin n → Move → Prop) :
    (∀ p, Reaches Downloads.step (Allowed served) (.start parts) p → p.main ≠ .raised) ↔
      ∀ p, Reaches Downloads.step (Allowed served) (.start parts) p → ∀ i m p', served p i m →
        p.step (.worker i m) = some p' → ¬ StoresZero (p.task i) (p.slot i) m := by
  constructor
  · intro hall p hp i m p' hserved hs hzero
    obtain ⟨q, hq, hraised⟩ := raises_of_storesZero hp (hall p hp) hserved hs hzero
    exact hall q hq hraised
  · intro hzero p hp
    exact (nonzero_of_reaches hzero hp).1

/-- Whatever the server does. -/
def servesEmpty (_ : Downloads 1) (_ : Fin 1) (_ : Move) : Prop := True

/-- The only source is empty, and its response says so before the loop prints. -/
theorem servesEmpty_raises : ¬ ∀ (n : Nat) (parts : Fin n → Option Bytes)
    (served : Downloads n → Fin n → Move → Prop) (p : Downloads n),
    Reaches Downloads.step (Allowed served) (.start parts) p → p.main ≠ .raised := by
  intro hall
  have hsafe := hall 1 (fun _ => none) servesEmpty
  have hfirst : Reaches Downloads.step (Allowed servesEmpty) (.start fun _ => none)
      ⟨Function.update (fun _ => .waiting) 0 (.request 0),
        Function.update (fun _ => .init none) 0 (.init none), .asking⟩ :=
    Reaches.start.next (Act.worker 0 .start) trivial rfl
  obtain ⟨q, hq, hraised⟩ := raises_of_storesZero hfirst (hsafe _ hfirst)
    (m := .respond (some 200) (some (some 0))) (i := 0) trivial rfl ⟨rfl, Or.inl rfl, rfl⟩
  exact hsafe q hq hraised

end

end Cbuild.Fetch
