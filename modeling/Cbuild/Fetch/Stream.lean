import Cbuild.Fetch.Sources
import Cbuild.Lib.Dict

/-! # One download

`fetch_url` and `fetch_stream`, for one source. What the attempts know of each other is in the
entries of `fstatus` and `flens` that belong to the source, and in its partial file.
-/

namespace Cbuild.Fetch

open Lib

/-! ## Requests and responses -/

abbrev Headers : Type := Dict Str (Option Str)

structure Request where
  headers : Headers
  /-- The numbers in the `Range` header, which is there on a retry. -/
  range : Option (Nat × Int)

structure Response where
  /-- `None` for FTP and so on -/
  status : Option Nat
  /-- What `int` makes of the `Content-Length` header, if there is one; nothing if it raises. -/
  contentLength : Option (Option Int)
  /-- What is read until the body ends, or reading raises. -/
  body : Bytes
  raises : Bool

/-- `urlopen`; nothing if it raises. -/
abbrev Server : Type := Request → Option Response

/-- `hdrs.update(ehdrs)` -/
def updateHeaders (dhdrs : Headers) (ehdrs : Option Headers) : Headers :=
  (ehdrs.getD []).foldl (fun hdrs e => hdrs.set e.1 e.2) dhdrs

/-- The loop that deletes what is `None` from the dictionary it goes over. After a deletion the
next step of the loop raises, also when there is nothing left to go over. -/
def deleteNone (hdrs : Headers) : Option Headers :=
  if hdrs.any fun e => e.2.isNone then none else some hdrs

/-! ## The attempts -/

structure Slot where
  /-- `fstatus[idx]`: the bytes received -/
  fstatus : Nat
  /-- `flens[idx]`: the length that is expected, -1 if it is not known -/
  flens : Int
  /-- The partial file. -/
  part : Option Bytes

/-- What `invoke` starts with; the file may be there from an earlier run. -/
def Slot.init (part : Option Bytes) : Slot := ⟨0, -1, part⟩

inductive FetchError
  /-- `unexpected status: {status}` -/
  | unexpectedStatus (status : Nat)
  /-- `incomplete file, fetch attempts exceeded` -/
  | attemptsExceeded
  /-- The text of the exception that ended the last attempt. -/
  | exception
  deriving DecidableEq

inductive Streamed
  | fetched
  | failed (e : FetchError)
  /-- The request is resumed, as attempt `ntry`. -/
  | resume (ntry : Nat)
  | raised

/-- The statuses of `http.client.responses` with which `urlopen` returns. -/
def responses : List Nat := [200, 201, 202, 203, 204, 205, 206, 207, 208, 226]

/-- `fetch_stream` from where the file is opened: anew, or to append to it. -/
def readBody (append : Bool) (clen : Option Int) (ntry : Nat) (rqf : Response) (s : Slot) :
    Streamed × Slot :=
  let df := if append then s.part.getD [] else []
  let s := { s with part := some (df ++ rqf.body), fstatus := s.fstatus + rqf.body.length }
  if rqf.raises then (.raised, s)
  -- the length that is not known is a length like any other here
  else if clen.any fun n => n != 0 && (s.fstatus : Int) != n then (.resume (ntry + 1), s)
  else (.fetched, { s with flens := s.fstatus })

def fetchStream (ntry : Nat) (rqf : Response) (s : Slot) : Streamed × Slot :=
  match rqf.status with
  | none =>
      if 0 < ntry then (.raised, s) else readBody false none ntry rqf s
  | some status =>
      if status ≠ 200 ∧ status ≠ 206 then
        if responses.contains status then (.failed (.unexpectedStatus status), s) else (.raised, s)
      else if 0 < ntry then
        if status ≠ 206 then
          -- range ignored/not supported, do a normal retry
          let s := { s with fstatus := 0 }
          if 3 < ntry then (.failed .attemptsExceeded, s)
          else readBody false (some s.flens) ntry rqf s
        -- reset the counter, we allow unlimited chunks
        else readBody true (some s.flens) 0 rqf s
      else
        match rqf.contentLength with
        | some none => (.raised, s)
        | some (some clen) => readBody false (some clen) ntry rqf { s with flens := clen }
        | none => readBody false none ntry rqf s

/-- One attempt. -/
def attempt (dhdrs : Headers) (ehdrs : Option Headers) (urlopen : Server) (ntry : Nat) (s : Slot) :
    Streamed × Slot :=
  match deleteNone (updateHeaders dhdrs ehdrs) with
  | none => (.raised, s)
  | some hdrs =>
      match urlopen ⟨hdrs, if 0 < ntry then some (s.fstatus, s.flens) else none⟩ with
      | none => (.raised, s)
      | some rqf => fetchStream ntry rqf s

/-- `fetch_url`, with what the server does at each attempt from here on; nothing if these are
not enough for it to return. It returns an error, or none when the file is complete. -/
def fetchUrl (dhdrs : Headers) (ehdrs : Option Headers) :
    List Server → Nat → Slot → Option (Option FetchError × Slot)
  | [], _, _ => none
  | urlopen :: servers, ntry, s =>
      match attempt dhdrs ehdrs urlopen ntry s with
      | (.fetched, s) => some (none, s)
      | (.failed e, s) => some (some e, s)
      | (.resume ntry, s) => fetchUrl dhdrs ehdrs servers ntry s
      | (.raised, s) =>
          if 3 < ntry then some (some .exception, s)
          -- try a few times on failures
          else fetchUrl dhdrs ehdrs servers (ntry + 1) s

end Cbuild.Fetch
