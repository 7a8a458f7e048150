import Cbuild.Spdx.Parser

/-! # Reading an expression token by token

The parser climbs precedences, but what it accepts does not depend on them: it does what a reader
does that knows how many parentheses are open and what may come next.
-/

namespace Cbuild.Spdx

open Lib Fueled

/-- What the reader expects. -/
inductive Mode
  | operand
  /-- The license of a `DocumentRef`. -/
  | operandOf
  /-- An exception may follow the license. -/
  | licensed
  /-- An operator, the end or a parenthesis. -/
  | done
  | exception
  /-- The exception of a `DocumentRef`. -/
  | exceptionOf
  deriving DecidableEq

structure Config where
  mode : Mode
  /-- The parentheses that are open. -/
  depth : Nat
  needInstall : Bool

inductive Outcome
  | returns (needInstall : Bool)
  | runtime
  | attribute
  deriving DecidableEq

namespace SPDXParser

variable (d : SPDXParser)

/-- Whether a token that is a license needs to be installed. -/
def licenseBit (tok : Str) : Option Bool :=
  let tok := dropPlus tok
  if startsWith tok "custom:".toList || startsWith tok "LicenseRef-".toList then
    some (decide (tok ≠ "custom:none".toList ∧ tok ≠ "custom:meta".toList))
  else if tok ∉ d.ldict then none
  else some (licenseInstall tok)

def exceptionBit (tok : Str) : Option Bool :=
  if startsWith tok "custom:".toList || startsWith tok "AdditionRef-".toList then some true
  else if tok ∉ d.edict then none
  else some false

def stepDone (q : Config) (tok : Str) : Option Config :=
  if (opprec tok).isSome then some { q with mode := .operand }
  else if tok = ")".toList then
    match q.depth with
    | 0 => none
    | depth + 1 => some { q with mode := .done, depth := depth }
  else none

/-- One token. -/
def step (q : Config) (tok : Str) : Option Config :=
  let license := (d.licenseBit tok).map fun b =>
    { q with mode := .licensed, needInstall := q.needInstall || b }
  let exception := (d.exceptionBit tok).map fun b =>
    { q with mode := .done, needInstall := q.needInstall || b }
  match q.mode with
  | .operand =>
      if tok = "(".toList then some { q with depth := q.depth + 1 }
      else if startsWith tok "DocumentRef-".toList then
        some { q with mode := .operandOf, needInstall := true }
      else license
  | .operandOf => license
  | .licensed =>
      if tok = "WITH".toList then some { q with mode := .exception } else stepDone q tok
  | .done => stepDone q tok
  | .exception =>
      if startsWith tok "DocumentRef-".toList then
        some { q with mode := .exceptionOf, needInstall := true }
      else exception
  | .exceptionOf => exception

/-- The end of the string. -/
def finish (q : Config) : Outcome :=
  match q.mode with
  | .operand => .runtime
  | .exception => .runtime
  | .operandOf => .attribute
  | .exceptionOf => .attribute
  | .licensed => if q.depth = 0 then .returns q.needInstall else .runtime
  | .done => if q.depth = 0 then .returns q.needInstall else .runtime

/-- The tokens are read; if they have not been lexed to the end the lexer raises. -/
def read (q : Config) : List Str → Bool → Outcome
  | [], true => finish q
  | [], false => .runtime
  | tok :: toks, ok =>
      match d.step q tok with
      | none => .runtime
      | some q => read q toks ok

/-! ## The parser reads -/

/-- The tokens that are left, the lookahead included. -/
def left (p : St) : List Str × Bool :=
  match p.token with
  | none => ([], true)
  | some tok => (tok :: (d.lexed p.stream).1, (d.lexed p.stream).2)

/-- The reader is given what the parser has left. -/
def readFrom (mode : Mode) (depth : Nat) (p : St) : Outcome :=
  d.read ⟨mode, depth, p.needInstall⟩ (d.left p).1 (d.left p).2

variable {d} {p p' : St} {o : Outcome} {tok : Str} {depth fuel : Nat} {mode : Mode}

/-- A part of the parser does what the reader does that comes to `o`: it returns, and the reader
comes to `o` from there by `k`, or both raise. -/
def Agrees (x : Fueled Exc St) (o : Outcome) (k : St → Outcome) (post : St → Prop) : Prop :=
  (∃ p, x.Returns p ∧ post p ∧ k p = o) ∨ (∃ msg, x.Raises (.runtime msg) ∧ o = .runtime) ∨
    (x.Raises .attribute ∧ o = .attribute)

theorem Agrees.bind {x : Fueled Exc St} {f : St → Fueled Exc St} {k k' : St → Outcome}
    {post post' : St → Prop} (h : Agrees x o k post)
    (hf : ∀ p, post p → Agrees (f p) (k p) k' post') : Agrees (x >>= f) o k' post' := by
  rcases h with ⟨p, hp, hpost, ho⟩ | ⟨msg, hraises, ho⟩ | ⟨hraises, ho⟩
  · rw [← ho]
    rcases hf p hpost with ⟨p', hp', hpost', ho'⟩ | ⟨msg, hraises, ho'⟩ | ⟨hraises, ho'⟩
    · exact Or.inl ⟨p', bind_returns.mpr ⟨p, hp, hp'⟩, hpost', ho'⟩
    · exact Or.inr (Or.inl ⟨msg, bind_raises.mpr (Or.inr ⟨p, hp, hraises⟩), ho'⟩)
    · exact Or.inr (Or.inr ⟨bind_raises.mpr (Or.inr ⟨p, hp, hraises⟩), ho'⟩)
  · exact Or.inr (Or.inl ⟨msg, bind_raises.mpr (Or.inl hraises), ho⟩)
  · exact Or.inr (Or.inr ⟨bind_raises.mpr (Or.inl hraises), ho⟩)

theorem Agrees.mono {x : Fueled Exc St} {k : St → Outcome} {post post' : St → Prop}
    (h : Agrees x o k post) (hpost : ∀ p, post p → post' p) : Agrees x o k post' := by
  rcases h with ⟨p, hp, hp', ho⟩ | hraises
  · exact Or.inl ⟨p, hp, hpost p hp', ho⟩
  · exact Or.inr hraises

theorem agrees_pure {k : St → Outcome} {post : St → Prop} (hpost : post p) (ho : k p = o) :
    Agrees (pure p) o k post := Or.inl ⟨p, rfl, hpost, ho⟩

theorem agrees_throw {msg : Str} {k : St → Outcome} {post : St → Prop} (ho : o = .runtime) :
    Agrees (throw (.runtime msg)) o k post := Or.inr (Or.inl ⟨msg, rfl, ho⟩)

theorem left_of_some (h : p.token = some tok) :
    d.left p = (tok :: (d.lexed p.stream).1, (d.lexed p.stream).2) := by
  unfold left
  rw [h]

theorem left_of_none (h : p.token = none) : d.left p = ([], true) := by
  unfold left
  rw [h]

theorem advance_spec (d : SPDXParser) (p : St) :
    (∃ msg, (d.advance p).Raises (.runtime msg) ∧ d.lexed p.stream = ([], false)) ∨
      ∃ p', (d.advance p).Returns p' ∧ d.left p' = d.lexed p.stream ∧
        p'.needInstall = p.needInstall := by
  unfold advance
  cases hlex : d.lex p.stream with
  | error e =>
      obtain ⟨msg, rfl⟩ := lex_error hlex
      exact Or.inl ⟨msg, rfl, lexed_of_error hlex⟩
  | ok r =>
      obtain ⟨t, s'⟩ := r
      right
      refine ⟨_, rfl, ?_, rfl⟩
      cases t with
      | none => rw [left_of_none rfl, lexed_of_none hlex]
      | some t => rw [left_of_some rfl, lexed_of_some hlex]

/-- Fewer tokens are left. -/
def Less (d : SPDXParser) (p p' : St) : Prop := (d.left p').1.length < (d.left p).1.length

theorem Less.trans {p₁ p₂ p₃ : St} (h : Less d p₁ p₂) (h' : Less d p₂ p₃) : Less d p₁ p₃ :=
  Nat.lt_trans h' h

theorem Less.succ_le {p₁ p₂ : St} (h : Less d p₁ p₂) :
    (d.left p₂).1.length + 1 ≤ (d.left p₁).1.length := h

/-- The lookahead is passed by a step of the reader. -/
theorem agrees_advance (mode : Mode) (depth : Nat) (p' : St) (h : p.token = some tok) (q : Config)
    (hstream : p'.stream = p.stream)
    (hstep : d.step q tok = some ⟨mode, depth, p'.needInstall⟩) :
    Agrees (d.advance p') (d.read q (d.left p).1 (d.left p).2) (d.readFrom mode depth)
      (Less d p) := by
  rw [left_of_some h]
  unfold read
  rw [hstep]
  rcases advance_spec d p' with ⟨msg, hraises, hlexed⟩ | ⟨p'', hreturns, hleft, hneed⟩
  · rw [hstream] at hlexed
    rw [hlexed]
    exact Or.inr (Or.inl ⟨msg, hraises, rfl⟩)
  · left
    refine ⟨p'', hreturns, ?_, ?_⟩
    · unfold Less
      rw [left_of_some h, hleft, hstream]
      exact Nat.lt_succ_self _
    · unfold readFrom
      rw [hleft, hstream, hneed]

/-- The reader is at the end. -/
theorem readFrom_of_none (h : p.token = none) :
    d.readFrom mode depth p = finish ⟨mode, depth, p.needInstall⟩ := by
  unfold readFrom
  rw [left_of_none h]
  rfl

theorem readFrom_of_stuck (h : p.token = some tok)
    (hstep : d.step ⟨mode, depth, p.needInstall⟩ tok = none) :
    d.readFrom mode depth p = .runtime := by
  unfold readFrom
  rw [left_of_some h]
  unfold read
  rw [hstep]

/-- Without an exception a license is done. -/
theorem readFrom_licensed (h : p.token ≠ some "WITH".toList) :
    d.readFrom .licensed depth p = d.readFrom .done depth p := by
  cases htok : p.token with
  | none =>
      rw [readFrom_of_none htok, readFrom_of_none htok]
      rfl
  | some tok =>
      have hne : tok ≠ "WITH".toList := by
        intro heq
        rw [heq] at htok
        exact h htok
      unfold readFrom
      rw [left_of_some htok]
      unfold read
      have hstep : d.step ⟨.licensed, depth, p.needInstall⟩ tok =
          d.step ⟨.done, depth, p.needInstall⟩ tok := by
        unfold step
        dsimp only
        rw [if_neg hne]
        unfold stepDone
        rfl
      rw [hstep]

/-! ## Licenses and exceptions -/

/-- The token of an exception. -/
theorem agrees_exceptionBit (h : p.token = some tok) (q : Config)
    (hstep : d.step q tok = (d.exceptionBit tok).map fun b =>
      ⟨.done, depth, p.needInstall || b⟩) :
    Agrees (if startsWith tok "custom:".toList || startsWith tok "AdditionRef-".toList then
        d.advance (p.install true)
      else if tok ∉ d.edict then throw (.runtime ("exception id expected, got: ".toList ++ tok))
      else d.advance p)
      (d.read q (d.left p).1 (d.left p).2) (d.readFrom .done depth) (Less d p) := by
  unfold exceptionBit at hstep
  split
  next hcustom =>
    rw [if_pos hcustom] at hstep
    exact agrees_advance .done depth (p.install true) h q rfl hstep
  next hcustom =>
    rw [if_neg hcustom] at hstep
    split
    next hunknown =>
      rw [if_pos hunknown] at hstep
      apply agrees_throw
      rw [left_of_some h]
      unfold read
      rw [hstep]
      rfl
    next hknown =>
      rw [if_neg hknown] at hstep
      apply agrees_advance .done depth p h q rfl
      rw [hstep, Option.map_some, Bool.or_false]

theorem agrees_exception (h : p.token = some "WITH".toList) :
    Agrees (d.parseException p) (d.readFrom .licensed depth p) (d.readFrom .done depth)
      (Less d p) := by
  unfold parseException
  apply (agrees_advance .exception depth p h _ rfl rfl).bind
  intro p₁ h₁
  cases htok : p₁.token with
  | none =>
      apply agrees_throw
      rw [readFrom_of_none htok]
      rfl
  | some tok =>
      by_cases hdoc : startsWith tok "DocumentRef-".toList = true
      · simp only [if_pos hdoc]
        have hstep : d.step ⟨.exception, depth, p₁.needInstall⟩ tok =
            some ⟨.exceptionOf, depth, (p₁.install true).needInstall⟩ := by
          simp only [step, if_pos hdoc, St.install, Bool.or_true]
        apply (agrees_advance .exceptionOf depth (p₁.install true) htok _ rfl hstep).bind
        intro p₂ h₂
        cases htok₂ : p₂.token with
        | none =>
            right
            right
            rw [readFrom_of_none htok₂]
            exact ⟨rfl, rfl⟩
        | some tok₂ =>
            apply (agrees_exceptionBit htok₂ ⟨.exceptionOf, depth, p₂.needInstall⟩ rfl).mono
            intro p₃ h₃
            exact (Less.trans h₁ h₂).trans h₃
      · simp only [if_neg hdoc, pure_bind, htok]
        have hstep : d.step ⟨.exception, depth, p₁.needInstall⟩ tok =
            (d.exceptionBit tok).map fun b => ⟨.done, depth, p₁.needInstall || b⟩ := by
          simp only [step, if_neg hdoc]
        apply (agrees_exceptionBit htok ⟨.exception, depth, p₁.needInstall⟩ hstep).mono
        intro p₃ h₃
        exact Less.trans h₁ h₃

/-- The token of a license, and the exception that may follow. -/
theorem agrees_license (h : p.token = some tok) (q : Config)
    (hstep : d.step q tok = (d.licenseBit tok).map fun b =>
      ⟨.licensed, depth, p.needInstall || b⟩) :
    Agrees (d.parseLicense p) (d.read q (d.left p).1 (d.left p).2) (d.readFrom .done depth)
      (Less d p) := by
  have hrest : ∀ b, d.step q tok = some ⟨.licensed, depth, p.needInstall || b⟩ →
      Agrees (do
        let p ← d.advance (p.install b)
        if p.token = some "WITH".toList then d.parseException p else pure p)
        (d.read q (d.left p).1 (d.left p).2) (d.readFrom .done depth) (Less d p) := by
    intro b hstep
    apply (agrees_advance .licensed depth (p.install b) h q rfl hstep).bind
    intro p₁ h₁
    split
    next hwith =>
      apply (agrees_exception hwith).mono
      intro p₂ h₂
      exact Less.trans h₁ h₂
    next hwith => exact agrees_pure h₁ (readFrom_licensed hwith).symm
  unfold parseLicense
  unfold licenseBit at hstep
  simp only [h]
  dsimp only at hstep
  by_cases hcustom : (startsWith (dropPlus tok) "custom:".toList ||
      startsWith (dropPlus tok) "LicenseRef-".toList) = true
  · rw [if_pos hcustom] at hstep
    simp only [if_pos hcustom, pure_bind]
    exact hrest _ hstep
  · rw [if_neg hcustom] at hstep
    simp only [if_neg hcustom]
    by_cases hunknown : dropPlus tok ∉ d.ldict
    · rw [if_pos hunknown] at hstep
      simp only [if_pos hunknown]
      refine Or.inr (Or.inl ⟨_, rfl, ?_⟩)
      rw [left_of_some h]
      unfold read
      rw [hstep]
      rfl
    · rw [if_neg hunknown] at hstep
      simp only [if_neg hunknown, pure_bind]
      exact hrest _ hstep

/-! ## Expressions -/

/-- What comes after an expression whose operators are at least of this precedence. -/
def Ends (mprec : Nat) (p : St) : Prop :=
  ∀ oprec, p.token.bind opprec = some oprec → oprec < mprec

theorem opprec_pos {oprec : Nat} (h : opprec tok = some oprec) : 1 ≤ oprec := by
  unfold opprec at h
  split at h
  · cases h
    exact Nat.le_refl 1
  · split at h
    · cases h
      omega
    · cases h

theorem stepDone_of_ends {q : Config} (h : Ends 1 p) (htok : p.token = some tok)
    (hparen : tok ≠ ")".toList) : stepDone q tok = none := by
  have hop : opprec tok = none := by
    cases hop : opprec tok with
    | none => rfl
    | some oprec =>
        have hlt := h oprec (by rw [htok]; exact hop)
        have hpos := opprec_pos hop
        omega
  unfold stepDone
  rw [hop, if_neg hparen]
  rfl

/-- After a parenthesized expression. -/
theorem agrees_close (h : Ends 1 p) :
    Agrees (if p.token ≠ some ")".toList then
        throw (.runtime "')' expected to close '('".toList)
      else d.advance p) (d.readFrom .done (depth + 1) p) (d.readFrom .done depth) (Less d p) := by
  by_cases hparen : p.token = some ")".toList
  · rw [if_neg (not_not.mpr hparen)]
    exact agrees_advance .done depth p hparen _ rfl rfl
  · rw [if_pos hparen]
    apply agrees_throw
    cases htok : p.token with
    | none =>
        rw [readFrom_of_none htok]
        rfl
    | some tok =>
        apply readFrom_of_stuck htok
        apply stepDone_of_ends h htok
        intro heq
        rw [heq] at htok
        exact hparen htok

/-- With the fuel that its tokens need a part of the parser does what the reader does. -/
def SimpleAgrees (d : SPDXParser) (fuel : Nat) : Prop :=
  ∀ p depth, 2 * (d.left p).1.length + 2 ≤ fuel →
    Agrees (d.parseSimple fuel p) (d.readFrom .operand depth p) (d.readFrom .done depth) (Less d p)

def ExprAgrees (d : SPDXParser) (fuel : Nat) : Prop :=
  ∀ mprec p depth, 2 * (d.left p).1.length + 3 ≤ fuel →
    Agrees (d.parseExpr fuel mprec p) (d.readFrom .operand depth p) (d.readFrom .done depth)
      (fun p' => Less d p p' ∧ Ends mprec p')

def RestAgrees (d : SPDXParser) (fuel : Nat) : Prop :=
  ∀ mprec p depth, 2 * (d.left p).1.length + 2 ≤ fuel →
    Agrees (d.parseRest fuel mprec p) (d.readFrom .done depth p) (d.readFrom .done depth)
      (fun p' => (p' = p ∨ Less d p p') ∧ Ends mprec p')

theorem agrees_parseSimple (ihExpr : ExprAgrees d fuel) : SimpleAgrees d (fuel + 1) := by
  intro p depth hfuel
  unfold parseSimple
  cases htok : p.token with
  | none =>
      apply agrees_throw
      rw [readFrom_of_none htok]
      rfl
  | some tok =>
      dsimp only
      by_cases hparen : tok = "(".toList
      · rw [if_pos hparen]
        rw [hparen] at htok
        apply (agrees_advance .operand (depth + 1) p htok _ rfl rfl).bind
        intro p₁ h₁
        have hfuel₁ := h₁.succ_le
        apply (ihExpr 1 p₁ (depth + 1) (by omega)).bind
        intro p₂ h₂
        apply (agrees_close h₂.2).mono
        intro p₃ h₃
        exact (Less.trans h₁ h₂.1).trans h₃
      · rw [if_neg hparen]
        by_cases hdoc : startsWith tok "DocumentRef-".toList = true
        · rw [if_pos hdoc]
          have hstep : d.step ⟨.operand, depth, p.needInstall⟩ tok =
              some ⟨.operandOf, depth, (p.install true).needInstall⟩ := by
            simp only [step, if_neg hparen, if_pos hdoc, St.install, Bool.or_true]
          apply (agrees_advance .operandOf depth (p.install true) htok _ rfl hstep).bind
          intro p₁ h₁
          cases htok₁ : p₁.token with
          | none =>
              right
              right
              rw [readFrom_of_none htok₁]
              refine ⟨?_, rfl⟩
              unfold parseLicense
              rw [htok₁]
              rfl
          | some tok₁ =>
              apply (agrees_license htok₁ ⟨.operandOf, depth, p₁.needInstall⟩ rfl).mono
              intro p₂ h₂
              exact Less.trans h₁ h₂
        · rw [if_neg hdoc]
          apply agrees_license htok ⟨.operand, depth, p.needInstall⟩
          simp only [step, if_neg hparen, if_neg hdoc]

theorem agrees_parseExpr (ihSimple : SimpleAgrees d fuel) (ihRest : RestAgrees d fuel) :
    ExprAgrees d (fuel + 1) := by
  intro mprec p depth hfuel
  unfold parseExpr
  apply (ihSimple p depth (by omega)).bind
  intro p₁ h₁
  have hfuel₁ := h₁.succ_le
  apply (ihRest mprec p₁ depth (by omega)).mono
  intro p₂ h₂
  refine ⟨?_, h₂.2⟩
  rcases h₂.1 with heq | hlt
  · rw [heq]
    exact h₁
  · exact Less.trans h₁ hlt

theorem agrees_parseRest (ihExpr : ExprAgrees d fuel) (ihRest : RestAgrees d fuel) :
    RestAgrees d (fuel + 1) := by
  intro mprec p depth hfuel
  unfold parseRest
  cases hop : p.token.bind opprec with
  | none =>
      apply agrees_pure _ rfl
      refine ⟨Or.inl rfl, fun oprec h => ?_⟩
      rw [hop] at h
      cases h
  | some oprec =>
      dsimp only
      by_cases hlt : oprec < mprec
      · rw [if_pos hlt]
        apply agrees_pure _ rfl
        refine ⟨Or.inl rfl, fun oprec' h => ?_⟩
        rw [hop] at h
        cases h
        exact hlt
      · rw [if_neg hlt]
        obtain ⟨tok, htok, hop⟩ := Option.bind_eq_some_iff.mp hop
        have hstep : d.step ⟨.done, depth, p.needInstall⟩ tok =
            some ⟨.operand, depth, p.needInstall⟩ := by
          simp [step, stepDone, hop]
        apply (agrees_advance .operand depth p htok _ rfl hstep).bind
        intro p₁ h₁
        have hfuel₁ := h₁.succ_le
        by_cases hnone : p₁.token = none
        · rw [if_pos hnone]
          apply agrees_throw
          rw [readFrom_of_none hnone]
          rfl
        · rw [if_neg hnone]
          apply (ihExpr (oprec + 1) p₁ depth (by omega)).bind
          intro p₂ h₂
          have hfuel₂ := h₂.1.succ_le
          apply (ihRest mprec p₂ depth (by omega)).mono
          intro p₃ h₃
          refine ⟨Or.inr ?_, h₃.2⟩
          rcases h₃.1 with heq | hlt
          · rw [heq]
            exact Less.trans h₁ h₂.1
          · exact (Less.trans h₁ h₂.1).trans hlt

theorem agrees_parse (d : SPDXParser) (fuel : Nat) :
    SimpleAgrees d fuel ∧ ExprAgrees d fuel ∧ RestAgrees d fuel := by
  induction fuel with
  | zero =>
      refine ⟨fun p depth h => ?_, fun m p depth h => ?_, fun m p depth h => ?_⟩
      · omega
      · omega
      · omega
  | succ fuel ih =>
      obtain ⟨ihSimple, ihExpr, ihRest⟩ := ih
      exact ⟨agrees_parseSimple ihExpr, agrees_parseExpr ihSimple ihRest,
        agrees_parseRest ihExpr ihRest⟩

/-- What `parse` comes to. -/
theorem parse_eq_read (d : SPDXParser) (str : Str) :
    (∃ b, (d.parse str).Returns b ∧
        d.read ⟨.operand, 0, false⟩ (d.lexed str).1 (d.lexed str).2 = .returns b) ∨
      (∃ msg, (d.parse str).Raises (.runtime msg) ∧
        d.read ⟨.operand, 0, false⟩ (d.lexed str).1 (d.lexed str).2 = .runtime) ∨
      ((d.parse str).Raises .attribute ∧
        d.read ⟨.operand, 0, false⟩ (d.lexed str).1 (d.lexed str).2 = .attribute) := by
  unfold parse
  rcases advance_spec d ⟨str, none, false⟩ with ⟨msg, hraises, hlexed⟩ | ⟨p, hreturns, hleft, hneed⟩
  · right
    left
    refine ⟨msg, bind_raises.mpr (Or.inl hraises), ?_⟩
    have hlexed : d.lexed str = ([], false) := hlexed
    rw [hlexed]
    rfl
  · have hfrom : d.read ⟨.operand, 0, false⟩ (d.lexed str).1 (d.lexed str).2 =
        d.readFrom .operand 0 p := by
      unfold readFrom
      rw [hleft, hneed]
    have hlen := length_lexed_le d str
    have hleft : (d.left p).1.length ≤ str.length := by
      rw [hleft]
      exact hlen
    rw [hfrom]
    rcases (agrees_parse d (2 * str.length + 3)).2.1 1 p 0 (by omega) with
      ⟨p', hexpr, hpost, ho⟩ | ⟨msg, hraises, ho⟩ | ⟨hraises, ho⟩
    · rw [← ho]
      cases htok : p'.token with
      | none =>
          left
          refine ⟨p'.needInstall, ?_, readFrom_of_none htok⟩
          refine bind_returns.mpr ⟨p, hreturns, bind_returns.mpr ⟨p', hexpr, ?_⟩⟩
          rw [htok]
          exact pure_returns.mpr rfl
      | some tok =>
          right
          left
          refine ⟨"invalid token: ".toList ++ tok, ?_, ?_⟩
          · refine bind_raises.mpr (Or.inr ⟨p, hreturns, bind_raises.mpr (Or.inr ⟨p', hexpr, ?_⟩)⟩)
            rw [htok]
            rfl
          · apply readFrom_of_stuck htok
            by_cases hparen : tok = ")".toList
            · rw [hparen]
              rfl
            · exact stepDone_of_ends hpost.2 htok hparen
    · exact Or.inr (Or.inl ⟨msg, bind_raises.mpr (Or.inr ⟨p, hreturns,
        bind_raises.mpr (Or.inl hraises)⟩), ho⟩)
    · exact Or.inr (Or.inr ⟨bind_raises.mpr (Or.inr ⟨p, hreturns,
        bind_raises.mpr (Or.inl hraises)⟩), ho⟩)

end SPDXParser

end Cbuild.Spdx
