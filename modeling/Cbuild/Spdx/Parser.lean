import Cbuild.Spdx.Lexer

/-! # The parser of license expressions

`parse_simple`, `parse_expr` and `parse` of `SPDXParser`. The parser keeps one token of lookahead;
the recursion is bounded by fuel, and what a bound is enough for is counted in tokens that are left.
-/

namespace Cbuild.Spdx

open Lib Fueled

/-- `_opprec` -/
def opprec (tok : Str) : Option Nat :=
  if tok = "OR".toList then some 1 else if tok = "AND".toList then some 2 else none

/-- `_license_inst` -/
def licenseInst : List Str :=
  ["BSL-1.0".toList, "ISC".toList, "NCSA".toList, "X11".toList,
    "X11-distribute-modifications-variant".toList]

/-- `_license_install` -/
def licenseInstall (lic : Str) : Bool :=
  licenseInst.contains lic || startsWith lic "AGPL-".toList || startsWith lic "BSD-".toList ||
    startsWith lic "MIT".toList || startsWith lic "OFL".toList

/-- The `+` of a license id is not part of it. -/
def dropPlus (tok : Str) : Str := if tok.getLast? = some '+' then tok.dropLast else tok

structure St where
  stream : Str
  /-- No token at the end; a token is never empty. -/
  token : Option Str
  needInstall : Bool

/-- The license needs to be installed if `b` says so. -/
def St.install (p : St) (b : Bool) : St := { p with needInstall := p.needInstall || b }

namespace SPDXParser

variable (d : SPDXParser)

/-- `self.token = self.lex()` -/
def advance (p : St) : Fueled Exc St :=
  match d.lex p.stream with
  | .error e => throw e
  | .ok (tok, stream) => pure { p with token := tok, stream := stream }

/-- `parse_simple` after `WITH`. -/
def parseException (p : St) : Fueled Exc St := do
  let p ← d.advance p
  match p.token with
  | none => throw (.runtime "token expected".toList)
  | some tok =>
      -- documentref
      let p ← if startsWith tok "DocumentRef-".toList then d.advance (p.install true)
        else pure p
      match p.token with
      | none => throw .attribute
      | some tok =>
          -- custom exceptions
          if startsWith tok "custom:".toList || startsWith tok "AdditionRef-".toList then
            d.advance (p.install true)
          else if tok ∉ d.edict then
            throw (.runtime ("exception id expected, got: ".toList ++ tok))
          else d.advance p

/-- `parse_simple` from the license id on. -/
def parseLicense (p : St) : Fueled Exc St :=
  match p.token with
  | none => throw .attribute
  | some tok => do
      let tok := dropPlus tok
      -- custom licenses do not need to be known
      let p ← if startsWith tok "custom:".toList || startsWith tok "LicenseRef-".toList then
          pure (p.install (decide (tok ≠ "custom:none".toList ∧ tok ≠ "custom:meta".toList)))
        else if tok ∉ d.ldict then
          throw (.runtime ("license id expected, got: ".toList ++ tok))
        else pure (p.install (licenseInstall tok))
      -- check for exception
      let p ← d.advance p
      if p.token = some "WITH".toList then d.parseException p else pure p

mutual

def parseSimple : Nat → St → Fueled Exc St
  | 0, _ => outOfFuel
  | fuel + 1, p =>
      match p.token with
      | none => throw (.runtime "token expected".toList)
      | some tok =>
          -- parenthesized expression
          if tok = "(".toList then do
            let p ← d.advance p
            let p ← parseExpr fuel 1 p
            if p.token ≠ some ")".toList then
              throw (.runtime "')' expected to close '('".toList)
            else d.advance p
          -- documentref
          else if startsWith tok "DocumentRef-".toList then do
            let p ← d.advance (p.install true)
            d.parseLicense p
          else d.parseLicense p

def parseExpr : Nat → Nat → St → Fueled Exc St
  | 0, _, _ => outOfFuel
  | fuel + 1, mprec, p => do
      let p ← parseSimple fuel p
      parseRest fuel mprec p

/-- The loop of `parse_expr`. -/
def parseRest : Nat → Nat → St → Fueled Exc St
  | 0, _, _ => outOfFuel
  | fuel + 1, mprec, p =>
      match p.token.bind opprec with
      -- if it is no operator, let the parent call handle it
      | none => pure p
      | some oprec =>
          if oprec < mprec then pure p
          else do
            -- expecting an rhs
            let p ← d.advance p
            if p.token = none then throw (.runtime "token expected".toList)
            else do
              let p ← parseExpr fuel (oprec + 1) p
              parseRest fuel mprec p

end

/-- `parse`, with the number of calls that the string is enough for. -/
def parse (str : Str) : Fueled Exc Bool := do
  let p ← d.advance ⟨str, none, false⟩
  let p ← d.parseExpr (2 * str.length + 3) 1 p
  match p.token with
  | some tok => throw (.runtime ("invalid token: ".toList ++ tok))
  | none => pure p.needInstall

end SPDXParser

end Cbuild.Spdx
