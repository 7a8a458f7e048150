import Cbuild.Apk.Token
import Cbuild.Lib.Files

/-! # The installed files are split up

Each package has its own directory below one base. Subpackages take what matches a pattern
out of their parent's, and the automatic packages after them.
-/

namespace Cbuild.Split

open Lib

variable {C : Type}

abbrev Raw : Type := List (Comp Str)

inductive Exc where
  | os (e : Errno)
  | overlap
  | recursion
  | absolute
  | noMatch
  deriving DecidableEq

/-- `pkg.destdir`. -/
def destdir (base : List Str) (pkgname : Str) : Raw := (base ++ [pkgname]).map .down

/-- Relocates `src` from the root `root` to the root `dest`; `depth` is what is left of the
recursion limit. -/
def submove : Nat → Raw → Raw → Raw → Fs Str C → Except Exc (Fs Str C)
  | 0, _, _, _, _ => .error .recursion
  | depth + 1, src, dest, root, fs => do
      let fs ← (fs.mkdirs (dest ++ src.dropLast)).mapError .os
      if !fs.pathExists (dest ++ src) then
        (fs.move (root ++ src) (dest ++ src.dropLast)).mapError .os
      else if fs.isDir (dest ++ src) && fs.isDir (root ++ src) then
        let fns ← (fs.iterdir (root ++ src)).mapError .os
        let fs ← fns.foldlM (fun fs fn => submove depth [.down fn] (dest ++ src) (root ++ src) fs) fs
        -- the source directory should now be empty
        (fs.rmdir (root ++ src)).mapError .os
      else .error .overlap

/-- What `glob` finds below a directory, relative to it. -/
abbrev Glob (C : Type) : Type := Fs Str C → Raw → Str → List Raw

section

variable (glob : Glob C) (depth : Nat) (dest pdest : Raw)

/-- `_take_impl` without a function to call for each match. -/
def takeImpl (p : Str) (missingOk : Bool) (fs : Fs Str C) : Except Exc (Fs Str C) :=
  if p.head? = some '/' then .error .absolute
  else if (glob fs pdest p).isEmpty && !missingOk then .error .noMatch
  else (glob fs pdest p).foldlM (fun fs relp => submove depth relp dest pdest fs) fs

/-- The last name of a path. -/
def name (relp : Raw) : Str :=
  match relp.getLast? with
  | some (.down n) => n
  | some .up => "..".toList
  | none => []

/-- The manual pages and completions that go with a command. -/
def mancmd (n : Str) : List Str :=
  ["usr/share/man/**/man1/".toList ++ n ++ ".1".toList,
    "usr/share/man/**/man8/".toList ++ n ++ ".8".toList,
    "usr/share/bash-completion/completions/".toList ++ n,
    "usr/share/zsh/site-functions/_".toList ++ n,
    "usr/share/fish/completions/".toList ++ n ++ ".fish".toList]

/-- `_take_impl` with `_take_mancmd`, which is called before the match itself moves. -/
def takeCmd (p : Str) (missingOk : Bool) (fs : Fs Str C) : Except Exc (Fs Str C) :=
  if p.head? = some '/' then .error .absolute
  else if (glob fs pdest p).isEmpty && !missingOk then .error .noMatch
  else
    (glob fs pdest p).foldlM (fun fs relp => do
      let fs ← (mancmd (name relp)).foldlM (fun fs p => takeImpl glob depth dest pdest p true fs) fs
      submove depth relp dest pdest fs) fs

/-- `take`: a prefix before a colon selects the place to look in. -/
def take (p : Str) (missingOk : Bool) (fs : Fs Str C) : Except Exc (Fs Str C) :=
  let kind := p.takeWhile (· ≠ ':')
  let sfx := p.drop (kind.length + 1)
  if !p.contains ':' then takeImpl glob depth dest pdest p missingOk fs
  else if kind = "cmd".toList then
    takeCmd glob depth dest pdest ("usr/bin/".toList ++ sfx) missingOk fs
  else if kind = "lib".toList then
    takeImpl glob depth dest pdest ("usr/lib/".toList ++ sfx) missingOk fs
  else if kind = "man".toList then
    let sect := (sfx.reverse.takeWhile (· ≠ '.')).reverse
    takeImpl glob depth dest pdest
      ("usr/share/man/**/man".toList ++ sect ++ ['/'] ++ sfx) missingOk fs
  else takeImpl glob depth dest pdest p missingOk fs

end

/-- Removes what is empty below a directory, and the directory if nothing is left; `true` if
it is gone. -/
def cleanEmpty (destdir : Raw) (auto : Bool) : Nat → Raw → Fs Str C → Except Exc (Bool × Fs Str C)
  | 0, _, _ => .error .recursion
  | depth + 1, dpath, fs => do
      let fns ← (fs.iterdir dpath).mapError .os
      let (empty, fs) ← fns.foldlM (fun (empty, fs) f =>
        if fs.isDir (dpath ++ [.down f]) && !fs.isLink (dpath ++ [.down f]) then do
          let (gone, fs) ← cleanEmpty destdir auto depth (dpath ++ [.down f]) fs
          pure (empty && gone, fs)
        else pure (false, fs)) (true, fs)
      if empty && (auto || dpath ≠ destdir) then do
        let fs ← (fs.rmdir dpath).mapError .os
        pure (true, fs)
      else pure (false, fs)

/-- `_invoke_subpkg` up to `pkg_install`. -/
def invokeSubpkg (dest : Raw) (fs : Fs Str C) : Except Exc (Fs Str C) := do
  let fs ← if fs.isDir dest then (fs.rmtree dest).mapError .os else pure fs
  (fs.mkdirs dest).mapError .os

/-! ## What is done to the directories, in any order -/

inductive Action where
  | subpkg (sp : Str)
  | auto (sp : Str)
  | take (sp parent p : Str) (missingOk : Bool)
  | move (sp parent : Str) (relp : Raw)
  | clean (pkg : Str) (auto : Bool)

/-- The files, and the package with the subpackages that it has so far. -/
structure Installed (C : Type) where
  fs : Fs Str C
  pkgs : List Str

variable (glob : Glob C) (depth : Nat) (base : List Str)

/-- `none` where the build fails. No two packages have one name: a template that declares a
subpackage twice or under its own name is refused, and an automatic package that is declared
is skipped. -/
def step (s : Installed C) : Action → Option (Installed C)
  | .subpkg sp =>
      if s.pkgs.contains sp then none
      else (invokeSubpkg (destdir base sp) s.fs).toOption.map fun fs => ⟨fs, sp :: s.pkgs⟩
  | .auto sp =>
      if s.pkgs.contains sp then none
      else (s.fs.mkdirs (destdir base sp)).toOption.map fun fs => ⟨fs, sp :: s.pkgs⟩
  | .take sp parent p missingOk =>
      if sp = parent || !s.pkgs.contains sp then none
      else (takeImpl glob depth (destdir base sp) (destdir base parent) p missingOk s.fs).toOption.map
        fun fs => ⟨fs, s.pkgs⟩
  | .move sp parent relp =>
      if sp = parent || !s.pkgs.contains sp then none
      else (submove depth relp (destdir base sp) (destdir base parent) s.fs).toOption.map
        fun fs => ⟨fs, s.pkgs⟩
  | .clean pkg auto =>
      (cleanEmpty (destdir base pkg) auto depth (destdir base pkg) s.fs).toOption.map
        fun r => ⟨r.2, s.pkgs⟩

/-- What a match of a command comes to, as a sequence of these. -/
def cmdActions (sp parent : Str) (relp : Raw) : List Action :=
  (mancmd (name relp)).map (.take sp parent · true) ++ [.move sp parent relp]

end Cbuild.Split
