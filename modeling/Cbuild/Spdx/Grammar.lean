import Cbuild.Spdx.Reader

/-! # The grammar of license expressions

Expressions over a language of licenses and one of exceptions, and that the reader accepts what they
generate. A token that is left out after a `DocumentRef` is what the parser does not look for.
-/

namespace Cbuild.Spdx

open Lib Fueled

inductive Nonterminal
  | simple
  | expr

section Derives

variable {α β : Type}

/-- `ts` is an expression with the leaves `ls`, the licenses and the exceptions being given. -/
inductive Derives (license exception : List Str → List α → Prop) :
    Nonterminal → List Str → List α → Prop
  | license {ts : List Str} {ls : List α} (h : license ts ls) :
      Derives license exception .simple ts ls
  | licenseWith {ts ts' : List Str} {ls ls' : List α} (h : license ts ls) (h' : exception ts' ls') :
      Derives license exception .simple (ts ++ "WITH".toList :: ts') (ls ++ ls')
  | paren {ts : List Str} {ls : List α} (h : Derives license exception .expr ts ls) :
      Derives license exception .simple ("(".toList :: (ts ++ [")".toList])) ls
  | simple {ts : List Str} {ls : List α} (h : Derives license exception .simple ts ls) :
      Derives license exception .expr ts ls
  | op {ts ts' : List Str} {ls ls' : List α} (op : Str) (hop : op ∈ ["AND".toList, "OR".toList])
      (h : Derives license exception .simple ts ls)
      (h' : Derives license exception .expr ts' ls') :
      Derives license exception .expr (ts ++ op :: ts') (ls ++ ls')

/-- Licenses and exceptions may be exchanged for others with the same tokens. -/
theorem Derives.exchange {license exception : List Str → List α → Prop}
    {license' exception' : List Str → List β → Prop} {P : Str → Prop} {R : List α → List β → Prop}
    (happend : ∀ ls ms ls' ms', R ls ms → R ls' ms' → R (ls ++ ls') (ms ++ ms'))
    (hlicense : ∀ ts ls, (∀ t ∈ ts, P t) → license ts ls → ∃ ms, R ls ms ∧ license' ts ms)
    (hexception : ∀ ts ls, (∀ t ∈ ts, P t) → exception ts ls → ∃ ms, R ls ms ∧ exception' ts ms)
    {n : Nonterminal} {ts : List Str} {ls : List α} (h : Derives license exception n ts ls)
    (hts : ∀ t ∈ ts, P t) : ∃ ms, R ls ms ∧ Derives license' exception' n ts ms := by
  induction h with
  | license h =>
      obtain ⟨ms, hr, h⟩ := hlicense _ _ hts h
      exact ⟨ms, hr, .license h⟩
  | licenseWith h h' =>
      rw [List.forall_mem_append, List.forall_mem_cons] at hts
      obtain ⟨ms, hr, h⟩ := hlicense _ _ hts.1 h
      obtain ⟨ms', hr', h'⟩ := hexception _ _ hts.2.2 h'
      exact ⟨ms ++ ms', happend _ _ _ _ hr hr', .licenseWith h h'⟩
  | paren _ ih =>
      rw [List.forall_mem_cons, List.forall_mem_append] at hts
      obtain ⟨ms, hr, h⟩ := ih hts.2.1
      exact ⟨ms, hr, .paren h⟩
  | simple _ ih =>
      obtain ⟨ms, hr, h⟩ := ih hts
      exact ⟨ms, hr, .simple h⟩
  | op op hop _ _ ih ih' =>
      rw [List.forall_mem_append, List.forall_mem_cons] at hts
      obtain ⟨ms, hr, h⟩ := ih hts.1
      obtain ⟨ms', hr', h'⟩ := ih' hts.2.2
      exact ⟨ms ++ ms', happend _ _ _ _ hr hr', .op op hop h h'⟩

end Derives

theorem isSome_opprec {tok : Str} :
    (opprec tok).isSome = true ↔ tok ∈ ["AND".toList, "OR".toList] := by
  unfold opprec
  split
  next h => simp [h]
  next h =>
    split
    next h' => simp [h']
    next h' =>
      have hnot : tok ∉ ["AND".toList, "OR".toList] := by
        rw [List.mem_cons, List.mem_singleton]
        exact not_or.mpr ⟨h', h⟩
      exact iff_of_false (fun hsome => by cases hsome) hnot

/-- `[DocumentRef-x:] token`, the token being one of a table that depends on whether it is
preceded. -/
inductive Referred (bare bit : Str → Option Bool) : List Str → List Bool → Prop
  | bare {t : Str} {b : Bool} (hdoc : startsWith t "DocumentRef-".toList = false)
      (h : bare t = some b) : Referred bare bit [t] [b]
  | of {r t : Str} {b : Bool} (hdoc : startsWith r "DocumentRef-".toList = true)
      (h : bit t = some b) : Referred bare bit [r, t] [true, b]

namespace SPDXParser

variable (d : SPDXParser)

/-- A license that is not preceded does not begin with a parenthesis. -/
def bareBit (tok : Str) : Option Bool := if tok = "(".toList then none else d.licenseBit tok

/-- The expressions that the parser reads, with the bits of their leaves. -/
abbrev Reads : Nonterminal → List Str → List Bool → Prop :=
  Derives (Referred d.bareBit d.licenseBit) (Referred d.exceptionBit d.exceptionBit)

/-- An operand or an exception has to follow. -/
inductive Pending : List Str → Prop
  | start : Pending []
  | exception {ts : List Str} {bs : List Bool} (h : Referred d.bareBit d.licenseBit ts bs) :
      Pending (ts ++ ["WITH".toList])
  | paren {ts : List Str} (h : Pending ts) : Pending ("(".toList :: ts)
  | op {ts ts' : List Str} {bs : List Bool} (op : Str) (hop : op ∈ ["AND".toList, "OR".toList])
      (h : d.Reads .simple ts bs) (h' : Pending ts') : Pending (ts ++ op :: ts')

variable {d} {ts : List Str} {bs : List Bool} {depth : Nat} {need : Bool}

/-! ## What is generated is read -/

theorem read_cons {q q' : Config} {tok : Str} (h : d.step q tok = some q') (rest : List Str)
    (ok : Bool) : d.read q (tok :: rest) ok = d.read q' rest ok := by
  simp only [read, h]

theorem or_any (need b : Bool) (bs : List Bool) :
    (need || (b :: bs).any id) = ((need || b) || bs.any id) := by
  rw [List.any_cons, Bool.or_assoc]
  rfl

theorem any_append_id (bs bs' : List Bool) :
    (bs ++ bs').any id = (bs.any id || bs'.any id) := List.any_append

/-- The tokens of a license or an exception: `of` is the mode after a `DocumentRef`. -/
theorem read_referred {bare bit : Str → Option Bool} {mode next : Mode} (of : Mode)
    (h : Referred bare bit ts bs)
    (hbare : ∀ t b need, startsWith t "DocumentRef-".toList = false → bare t = some b →
      d.step ⟨mode, depth, need⟩ t = some ⟨next, depth, need || b⟩)
    (hdoc : ∀ r need, startsWith r "DocumentRef-".toList = true →
      d.step ⟨mode, depth, need⟩ r = some ⟨of, depth, true⟩)
    (hof : ∀ t b need, bit t = some b →
      d.step ⟨of, depth, need⟩ t = some ⟨next, depth, need || b⟩)
    (rest : List Str) (ok : Bool) :
    d.read ⟨mode, depth, need⟩ (ts ++ rest) ok =
      d.read ⟨next, depth, need || bs.any id⟩ rest ok := by
  cases h with
  | bare hnot h =>
      rw [List.cons_append, read_cons (hbare _ _ need hnot h), or_any, List.any_nil, Bool.or_false]
      rfl
  | of hstarts h =>
      rw [List.cons_append, read_cons (hdoc _ need hstarts), List.cons_append,
        read_cons (hof _ _ true h), or_any, or_any, List.any_nil, Bool.or_false, Bool.or_true]
      rfl

theorem not_paren_of_docRef {r : Str} (h : startsWith r "DocumentRef-".toList = true) :
    r ≠ "(".toList := by
  intro heq
  rw [heq] at h
  exact absurd h (by decide)

theorem read_license (h : Referred d.bareBit d.licenseBit ts bs) (rest : List Str) (ok : Bool) :
    d.read ⟨.operand, depth, need⟩ (ts ++ rest) ok =
      d.read ⟨.licensed, depth, need || bs.any id⟩ rest ok := by
  apply read_referred .operandOf h
  · intro t b need hnot h
    unfold bareBit at h
    split at h
    · cases h
    · rename_i hparen
      simp only [step, if_neg hparen, hnot, h, Option.map_some, Bool.false_eq_true, if_false]
  · intro r need hstarts
    simp only [step, if_neg (not_paren_of_docRef hstarts), if_pos hstarts]
  · intro t b need h
    simp only [step, h, Option.map_some]

theorem read_exception (h : Referred d.exceptionBit d.exceptionBit ts bs) (rest : List Str)
    (ok : Bool) : d.read ⟨.exception, depth, need⟩ (ts ++ rest) ok =
      d.read ⟨.done, depth, need || bs.any id⟩ rest ok := by
  apply read_referred .exceptionOf h
  · intro t b need hnot h
    simp only [step, hnot, h, Option.map_some, Bool.false_eq_true, if_false]
  · intro r need hstarts
    simp only [step, if_pos hstarts]
  · intro t b need h
    simp only [step, h, Option.map_some]

/-- What follows is no exception. -/
theorem read_licensed {q : Config} (hq : q.mode = .licensed) (rest : List Str) (ok : Bool)
    (h : rest.head? ≠ some "WITH".toList) :
    d.read q rest ok = d.read { q with mode := .done } rest ok := by
  obtain ⟨mode, depth, need⟩ := q
  cases hq
  cases rest with
  | nil =>
      cases ok
      · rfl
      · rfl
  | cons tok rest =>
      have hne : tok ≠ "WITH".toList := by
        intro heq
        rw [heq] at h
        exact h rfl
      have hstep : d.step ⟨.licensed, depth, need⟩ tok = d.step ⟨.done, depth, need⟩ tok := by
        simp only [step, if_neg hne]
        unfold stepDone
        rfl
      unfold read
      rw [hstep]

theorem step_op {op : Str} (hop : op ∈ ["AND".toList, "OR".toList]) :
    d.step ⟨.done, depth, need⟩ op = some ⟨.operand, depth, need⟩ := by
  simp only [step, stepDone, isSome_opprec.mpr hop, if_true]

theorem head_ne_with {tok : Str} (h : tok ∈ ["AND".toList, "OR".toList, ")".toList])
    (rest : List Str) : (tok :: rest).head? ≠ some "WITH".toList := by
  intro heq
  rw [List.head?_cons, Option.some.injEq] at heq
  rw [heq] at h
  exact absurd h (by decide)

theorem mem_ends {op : Str} (hop : op ∈ ["AND".toList, "OR".toList]) :
    op ∈ ["AND".toList, "OR".toList, ")".toList] := List.mem_append_left [")".toList] hop

theorem step_paren : d.step ⟨.operand, depth, need⟩ "(".toList = some ⟨.operand, depth + 1, need⟩ :=
  rfl

theorem read_of_reads {n : Nonterminal} (h : d.Reads n ts bs) (depth : Nat) (need : Bool)
    (rest : List Str) (ok : Bool) (hrest : rest.head? ≠ some "WITH".toList) :
    d.read ⟨.operand, depth, need⟩ (ts ++ rest) ok =
      d.read ⟨.done, depth, need || bs.any id⟩ rest ok := by
  induction h generalizing depth need rest with
  | license h => rw [read_license h, read_licensed rfl rest ok hrest]
  | licenseWith h h' =>
      rw [List.append_assoc, read_license h, List.cons_append, read_cons rfl, read_exception h',
        any_append_id, Bool.or_assoc]
  | paren h ih =>
      rw [List.cons_append, read_cons step_paren, List.append_assoc,
        List.singleton_append, ih _ _ _ (head_ne_with (by decide) rest), read_cons rfl]
  | simple h ih => exact ih depth need rest hrest
  | op op hop h h' ih ih' =>
      rw [List.append_assoc, List.cons_append, ih _ _ _ (head_ne_with (mem_ends hop) _),
        read_cons (step_op hop), ih' _ _ _ hrest, any_append_id, Bool.or_assoc]

/-- An operand or an exception is expected after what is pending. -/
theorem read_pending (h : d.Pending ts) (depth : Nat) (need : Bool) :
    ∃ mode depth' need', (mode = .operand ∨ mode = .exception) ∧ ∀ rest ok,
      d.read ⟨.operand, depth, need⟩ (ts ++ rest) ok = d.read ⟨mode, depth', need'⟩ rest ok := by
  induction h generalizing depth need with
  | start => exact ⟨.operand, depth, need, Or.inl rfl, fun rest ok => rfl⟩
  | @exception ts bs h =>
      refine ⟨.exception, depth, need || bs.any id, Or.inr rfl, fun rest ok => ?_⟩
      rw [List.append_assoc, read_license h, List.singleton_append, read_cons rfl]
  | paren h ih =>
      obtain ⟨mode, depth', need', hmode, hread⟩ := ih (depth + 1) need
      refine ⟨mode, depth', need', hmode, fun rest ok => ?_⟩
      rw [← hread, List.cons_append, read_cons rfl]
  | @op ts ts' bs op hop h h' ih =>
      obtain ⟨mode, depth', need', hmode, hread⟩ := ih depth (need || bs.any id)
      refine ⟨mode, depth', need', hmode, fun rest ok => ?_⟩
      rw [← hread, List.append_assoc, List.cons_append,
        read_of_reads h _ _ _ _ (head_ne_with (mem_ends hop) _), read_cons (step_op hop)]

/-! ## What is read is generated -/

/-- The string ends after a `DocumentRef`. -/
def CutOff (d : SPDXParser) (ts : List Str) (ok : Bool) : Prop :=
  ok = true ∧ ∃ pre r, ts = pre ++ [r] ∧ startsWith r "DocumentRef-".toList = true ∧ d.Pending pre

/-- An expression is at the beginning, unless the tokens end too early. -/
def Splits (d : SPDXParser) (ts : List Str) (ok : Bool) : Prop :=
  d.CutOff ts ok ∨ ∃ e rest bs, ts = e ++ rest ∧ d.Reads .expr e bs ∧
    (rest = [] ∨ rest.head? = some ")".toList)

theorem read_of_stuck {q : Config} {tok : Str} (h : d.step q tok = none) (rest : List Str)
    (ok : Bool) : d.read q (tok :: rest) ok = .runtime := by
  unfold read
  rw [h]

theorem referred_of_read (bare bit : Str → Option Bool) {mode : Mode} (of next : Mode) {ok : Bool}
    (hread : d.read ⟨mode, depth, need⟩ ts ok ≠ .runtime)
    (hfinish : finish ⟨mode, depth, need⟩ = .runtime)
    (hstep : ∀ t, ts.head? = some t → d.step ⟨mode, depth, need⟩ t =
      if startsWith t "DocumentRef-".toList then some ⟨of, depth, true⟩
      else (bare t).map fun b => ⟨next, depth, need || b⟩)
    (hof : ∀ t, d.step ⟨of, depth, true⟩ t =
      (bit t).map fun b => ⟨next, depth, true || b⟩) :
    (ok = true ∧ ∃ r, ts = [r] ∧ startsWith r "DocumentRef-".toList = true) ∨
      ∃ l rest bs need', ts = l ++ rest ∧ l ≠ [] ∧ Referred bare bit l bs ∧
        d.read ⟨next, depth, need'⟩ rest ok ≠ .runtime := by
  cases ts with
  | nil =>
      cases ok
      · exact absurd rfl hread
      · exact absurd hfinish hread
  | cons t ts =>
      have hstep := hstep t rfl
      cases hdoc : startsWith t "DocumentRef-".toList with
      | false =>
          right
          rw [hdoc, if_neg Bool.false_ne_true] at hstep
          cases hbare : bare t with
          | none =>
              rw [hbare] at hstep
              exact absurd (read_of_stuck hstep ts ok) hread
          | some b =>
              rw [hbare] at hstep
              rw [read_cons hstep] at hread
              exact ⟨[t], ts, [b], _, rfl, List.cons_ne_nil _ _, .bare hdoc hbare, hread⟩
      | true =>
          rw [hdoc, if_pos rfl] at hstep
          rw [read_cons hstep] at hread
          cases ts with
          | nil =>
              left
              cases ok
              · exact absurd rfl hread
              · exact ⟨rfl, t, rfl, hdoc⟩
          | cons t' ts =>
              right
              have hof := hof t'
              cases hbit : bit t' with
              | none =>
                  rw [hbit] at hof
                  exact absurd (read_of_stuck hof ts ok) hread
              | some b =>
                  rw [hbit] at hof
                  rw [read_cons hof] at hread
                  exact ⟨[t, t'], ts, [true, b], _, rfl, List.cons_ne_nil _ _, .of hdoc hbit, hread⟩

/-- What is shorter splits. -/
def Shorter (d : SPDXParser) (n : Nat) (ok : Bool) : Prop :=
  ∀ ts depth need, ts.length < n → d.read ⟨.operand, depth, need⟩ ts ok ≠ .runtime →
    d.Splits ts ok

variable {ok : Bool} {rest : List Str}

theorem splits_of_simple (rest : List Str) (h : d.Reads .simple ts bs)
    (ih : d.Shorter rest.length ok)
    (hread : d.read ⟨.done, depth, need⟩ rest ok ≠ .runtime) : d.Splits (ts ++ rest) ok := by
  cases rest with
  | nil => exact Or.inr ⟨ts, [], bs, rfl, .simple h, Or.inl rfl⟩
  | cons tok rest =>
      by_cases hop : (opprec tok).isSome = true
      · rw [isSome_opprec] at hop
        rw [read_cons (step_op hop)] at hread
        rcases ih rest depth need (Nat.lt_succ_self _) hread with hcut | hsplits
        · obtain ⟨hok, pre, r, rfl, hdoc, hpre⟩ := hcut
          refine Or.inl ⟨hok, ts ++ tok :: pre, r, ?_, hdoc, .op tok hop h hpre⟩
          rw [List.append_assoc, List.cons_append]
        · obtain ⟨e, rest, bs', rfl, he, hrest⟩ := hsplits
          refine Or.inr ⟨ts ++ tok :: e, rest, bs ++ bs', ?_, .op tok hop h he, hrest⟩
          rw [List.append_assoc, List.cons_append]
      · by_cases hparen : tok = ")".toList
        · exact Or.inr ⟨ts, tok :: rest, bs, rfl, .simple h, Or.inr (congrArg some hparen)⟩
        · have hstep : d.step ⟨.done, depth, need⟩ tok = none := by
            simp only [step, stepDone, if_neg hop, if_neg hparen]
          exact absurd (read_of_stuck hstep rest ok) hread

theorem splits_of_license (h : Referred d.bareBit d.licenseBit ts bs)
    (ih : d.Shorter rest.length ok)
    (hread : d.read ⟨.licensed, depth, need⟩ rest ok ≠ .runtime) : d.Splits (ts ++ rest) ok := by
  by_cases hwith : rest.head? = some "WITH".toList
  · obtain ⟨rest, rfl⟩ := List.head?_eq_some_iff.mp hwith
    rw [read_cons rfl] at hread
    rcases referred_of_read d.exceptionBit d.exceptionBit .exceptionOf .done hread rfl
      (fun t _ => rfl) (fun t => rfl) with hcut | hexc
    · obtain ⟨hok, r, rfl, hdoc⟩ := hcut
      refine Or.inl ⟨hok, ts ++ ["WITH".toList], r, ?_, hdoc, .exception h⟩
      rw [List.append_assoc, List.singleton_append]
    · obtain ⟨l, rest, bs', need', rfl, hl, hexc, hread⟩ := hexc
      have hsplits := splits_of_simple rest (.licenseWith h hexc)
        (fun ts depth need hlt => ih ts depth need (by
          rw [List.length_cons, List.length_append]
          omega)) hread
      rw [List.append_assoc, List.cons_append] at hsplits
      exact hsplits
  · rw [read_licensed rfl rest ok hwith] at hread
    exact splits_of_simple rest (.license h) ih hread

theorem splits_of_operand (ih : d.Shorter ts.length ok)
    (hread : d.read ⟨.operand, depth, need⟩ ts ok ≠ .runtime) : d.Splits ts ok := by
  by_cases hparen : ts.head? = some "(".toList
  · obtain ⟨ts, rfl⟩ := List.head?_eq_some_iff.mp hparen
    rw [read_cons step_paren] at hread
    rcases ih ts _ _ (Nat.lt_succ_self _) hread with hcut | hsplits
    · obtain ⟨hok, pre, r, rfl, hdoc, hpre⟩ := hcut
      exact Or.inl ⟨hok, "(".toList :: pre, r, rfl, hdoc, .paren hpre⟩
    · obtain ⟨e, rest, bs, rfl, he, hrest⟩ := hsplits
      rcases hrest with rfl | hclose
      · -- the parenthesis is still open at the end
        rw [read_of_reads he _ _ _ _ (by simp)] at hread
        cases ok
        · exact absurd rfl hread
        · exact absurd rfl hread
      · obtain ⟨rest, rfl⟩ := List.head?_eq_some_iff.mp hclose
        rw [read_of_reads he _ _ _ _ (head_ne_with (by decide) rest), read_cons rfl] at hread
        have hsplits := splits_of_simple rest (.paren he)
          (fun ts depth need hlt => ih ts depth need (by
            rw [List.length_cons, List.length_append, List.length_cons]
            omega)) hread
        rw [List.cons_append, List.append_assoc, List.singleton_append] at hsplits
        exact hsplits
  · have hstep : ∀ t, ts.head? = some t → d.step ⟨.operand, depth, need⟩ t =
        if startsWith t "DocumentRef-".toList then some ⟨.operandOf, depth, true⟩
        else (d.bareBit t).map fun b => ⟨.licensed, depth, need || b⟩ := by
      intro t ht
      have hne : t ≠ "(".toList := by
        intro heq
        rw [heq] at ht
        exact hparen ht
      simp only [step, bareBit, if_neg hne]
    rcases referred_of_read d.bareBit d.licenseBit .operandOf .licensed hread rfl hstep
      (fun t => rfl) with hcut | hlic
    · obtain ⟨hok, r, rfl, hdoc⟩ := hcut
      exact Or.inl ⟨hok, [], r, rfl, hdoc, .start⟩
    · obtain ⟨l, rest, bs, need', rfl, hl, hlic, hread⟩ := hlic
      apply splits_of_license hlic _ hread
      intro ts depth need hlt
      apply ih
      rw [List.length_append]
      omega

theorem splits_of_read (ts : List Str) (depth : Nat) (need : Bool)
    (hread : d.read ⟨.operand, depth, need⟩ ts ok ≠ .runtime) : d.Splits ts ok := by
  induction hn : ts.length using Nat.strong_induction_on generalizing ts depth need with
  | h n ih =>
      apply splits_of_operand _ hread
      intro ts' depth' need' hlt hread'
      exact ih ts'.length (hn ▸ hlt) ts' depth' need' hread' rfl

/-! ## What the parser comes to -/

theorem read_of_cutOff (h : d.CutOff ts ok) (depth : Nat) (need : Bool) :
    d.read ⟨.operand, depth, need⟩ ts ok = .attribute := by
  obtain ⟨rfl, pre, r, rfl, hdoc, hpre⟩ := h
  obtain ⟨mode, depth', need', hmode, hread⟩ := read_pending hpre depth need
  rw [hread]
  rcases hmode with rfl | rfl
  · have hstep : d.step ⟨.operand, depth', need'⟩ r = some ⟨.operandOf, depth', true⟩ := by
      simp only [step, if_neg (not_paren_of_docRef hdoc), if_pos hdoc]
    rw [read_cons hstep]
    rfl
  · have hstep : d.step ⟨.exception, depth', need'⟩ r = some ⟨.exceptionOf, depth', true⟩ := by
      simp only [step, if_pos hdoc]
    rw [read_cons hstep]
    rfl

/-- At the end of an expression no parenthesis is open. -/
theorem read_split {e : List Str} (he : d.Reads .expr e bs)
    (hrest : rest = [] ∨ rest.head? = some ")".toList) :
    d.read ⟨.operand, 0, false⟩ (e ++ rest) ok =
      if rest = [] ∧ ok = true then .returns (bs.any id) else .runtime := by
  rcases hrest with rfl | hclose
  · rw [read_of_reads he _ _ _ _ (by simp), Bool.false_or]
    cases ok
    · rfl
    · rfl
  · obtain ⟨rest, rfl⟩ := List.head?_eq_some_iff.mp hclose
    rw [read_of_reads he _ _ _ _ (head_ne_with (by decide) rest), read_of_stuck rfl]
    rfl

theorem read_returns_iff {b : Bool} :
    d.read ⟨.operand, 0, false⟩ ts ok = .returns b ↔
      ok = true ∧ ∃ bs, d.Reads .expr ts bs ∧ b = bs.any id := by
  constructor
  · intro h
    rcases splits_of_read ts 0 false (by rw [h]; exact Outcome.noConfusion) with hcut | hsplits
    · rw [read_of_cutOff hcut] at h
      cases h
    · obtain ⟨e, rest, bs, rfl, he, hrest⟩ := hsplits
      rw [read_split he hrest] at h
      split at h
      next hend =>
        obtain ⟨rfl, hok⟩ := hend
        cases h
        rw [List.append_nil]
        exact ⟨hok, bs, he, rfl⟩
      next => cases h
  · intro h
    obtain ⟨rfl, bs, he, rfl⟩ := h
    have hread := @read_split d _ true [] ts he (Or.inl rfl)
    rw [List.append_nil] at hread
    exact hread

theorem read_attribute_iff :
    d.read ⟨.operand, 0, false⟩ ts ok = .attribute ↔ d.CutOff ts ok := by
  constructor
  · intro h
    rcases splits_of_read ts 0 false (by rw [h]; exact Outcome.noConfusion) with hcut | hsplits
    · exact hcut
    · obtain ⟨e, rest, bs, rfl, he, hrest⟩ := hsplits
      rw [read_split he hrest] at h
      split at h
      · cases h
      · cases h
  · intro h
    exact read_of_cutOff h 0 false

theorem parse_returns_iff (d : SPDXParser) (str : Str) (b : Bool) :
    (d.parse str).Returns b ↔
      (d.lexed str).2 = true ∧ ∃ bs, d.Reads .expr (d.lexed str).1 bs ∧ b = bs.any id := by
  rw [← read_returns_iff]
  rcases parse_eq_read d str with ⟨b', hreturns, hread⟩ | ⟨msg, hraises, hread⟩ | ⟨hraises, hread⟩
  · rw [hread, Outcome.returns.injEq]
    exact ⟨fun h => hreturns.unique h, fun h => h ▸ hreturns⟩
  · rw [hread]
    exact iff_of_false (fun h => h.not_raises hraises) Outcome.noConfusion
  · rw [hread]
    exact iff_of_false (fun h => h.not_raises hraises) Outcome.noConfusion

/-- A result or a `RuntimeError`: unless the string ends where a license or an exception of a
`DocumentRef` has to follow, the operation on the missing token then being an `AttributeError`. -/
theorem parse_contained_iff (d : SPDXParser) (str : Str) :
    ((∃ b, (d.parse str).Returns b) ∨ ∃ msg, (d.parse str).Raises (.runtime msg)) ↔
      ¬ ∃ pre r, d.lexed str = (pre ++ [r], true) ∧ startsWith r "DocumentRef-".toList = true ∧
        d.Pending pre := by
  have hcut : d.CutOff (d.lexed str).1 (d.lexed str).2 ↔ ∃ pre r,
      d.lexed str = (pre ++ [r], true) ∧ startsWith r "DocumentRef-".toList = true ∧
        d.Pending pre := by
    constructor
    · intro h
      obtain ⟨hok, pre, r, hts, hdoc, hpre⟩ := h
      exact ⟨pre, r, Prod.ext hts hok, hdoc, hpre⟩
    · intro h
      obtain ⟨pre, r, hlexed, hdoc, hpre⟩ := h
      rw [hlexed]
      exact ⟨rfl, pre, r, rfl, hdoc, hpre⟩
  rw [← hcut, ← read_attribute_iff]
  rcases parse_eq_read d str with ⟨b, hreturns, hread⟩ | ⟨msg, hraises, hread⟩ | ⟨hraises, hread⟩
  · rw [hread]
    exact iff_of_true (Or.inl ⟨b, hreturns⟩) Outcome.noConfusion
  · rw [hread]
    exact iff_of_true (Or.inr ⟨msg, hraises⟩) Outcome.noConfusion
  · rw [hread]
    apply iff_of_false _ (not_not.mpr rfl)
    intro h
    rcases h with ⟨b, hreturns⟩ | ⟨msg, hraises'⟩
    · exact hreturns.not_raises hraises
    · exact absurd (hraises.unique hraises') Exc.noConfusion

/-- A parser that knows one license. -/
def mitParser : SPDXParser where
  chars := { isspace := Char.isWhitespace, isalnum := Char.isAlphanum, alnum_ascii := fun _ _ => rfl }
  ldict := ["MIT".toList]
  edict := []

theorem documentRef_not_contained :
    ¬ ((∃ b, (mitParser.parse "MIT AND DocumentRef-x:".toList).Returns b) ∨
      ∃ msg, (mitParser.parse "MIT AND DocumentRef-x:".toList).Raises (.runtime msg)) := by
  have hraises : (mitParser.parse "MIT AND DocumentRef-x:".toList).Raises .attribute := rfl
  intro h
  rcases h with ⟨b, hreturns⟩ | ⟨msg, hraises'⟩
  · exact hreturns.not_raises hraises
  · exact absurd (hraises.unique hraises') Exc.noConfusion

end SPDXParser

end Cbuild.Spdx
