import Cbuild.Spdx.Grammar

/-! # License expressions

The language of license expressions over two dictionaries of ids, and that `parse` accepts it and
computes from the leaves of an expression whether its licenses need to be installed.
-/

namespace Cbuild.Spdx

open Lib Fueled

/-- A leaf of an expression. -/
inductive Leaf
  | documentRef (x : Str)
  | license (lic : Str) (plus : Bool)
  | licenseRef (x : Str)
  | customLicense (x : Str)
  | exception (eid : Str)
  | additionRef (x : Str)
  | customException (x : Str)

namespace Leaf

/-- The token of a `DocumentRef` is without its `:`. -/
def token : Leaf → Str
  | documentRef x => "DocumentRef-".toList ++ x
  | license lic plus => lic ++ if plus then "+".toList else []
  | licenseRef x => "LicenseRef-".toList ++ x
  | customLicense x => "custom:".toList ++ x
  | exception eid => eid
  | additionRef x => "AdditionRef-".toList ++ x
  | customException x => "custom:".toList ++ x

def installs : Leaf → Bool
  | documentRef _ => true
  | license lic _ => licenseInstall lic
  | licenseRef _ => true
  | customLicense x => decide (x ≠ "none".toList ∧ x ≠ "meta".toList)
  | exception _ => false
  | additionRef _ => true
  | customException _ => true

end Leaf

/-- A leaf of a class, maybe of a document. -/
inductive Preceded (leaf : Leaf → Prop) : List Str → List Leaf → Prop
  | alone (l : Leaf) (h : leaf l) : Preceded leaf [l.token] [l]
  | of (x : Str) (l : Leaf) (h : leaf l) :
      Preceded leaf [(Leaf.documentRef x).token, l.token] [.documentRef x, l]

namespace SPDXParser

variable (d : SPDXParser)

inductive IsLicense : Leaf → Prop
  | license (lic : Str) (plus : Bool) (h : lic ∈ d.ldict) : IsLicense (.license lic plus)
  | licenseRef (x : Str) : IsLicense (.licenseRef x)
  | customLicense (x : Str) : IsLicense (.customLicense x)

inductive IsException : Leaf → Prop
  | exception (eid : Str) (h : eid ∈ d.edict) : IsException (.exception eid)
  | additionRef (x : Str) : IsException (.additionRef x)
  | customException (x : Str) : IsException (.customException x)

/-- `ts` is an expression with these leaves. -/
abbrev Expression : Nonterminal → List Str → List Leaf → Prop :=
  Derives (Preceded d.IsLicense) (Preceded d.IsException)

/-- What no id begins with. -/
def reserved : List Str :=
  ["OR".toList, "AND".toList, "WITH".toList, "custom".toList, "LicenseRef-".toList,
    "AdditionRef-".toList, "DocumentRef-".toList]

/-- The ids of the dictionaries are ids of licenses and exceptions. -/
structure Wellformed : Prop where
  word : ∀ x, x ∈ d.ldict ∨ x ∈ d.edict → ∀ c ∈ x, d.chars.word c = true
  begins : ∀ x, x ∈ d.ldict ∨ x ∈ d.edict → ∀ r ∈ reserved, startsWith x r = false

variable {d} {t u x : Str} {b : Bool}

theorem word_plus (d : SPDXParser) : d.chars.word '+' = false := by
  rw [d.chars.word_ascii (by decide)]
  decide

theorem word_paren (d : SPDXParser) : d.chars.word '(' = false := by
  rw [d.chars.word_ascii (by decide)]
  decide

theorem dropPlus_concat (u : Str) : dropPlus (u ++ "+".toList) = u := by
  have hlast : (u ++ "+".toList).getLast? = some '+' := List.getLast?_concat
  unfold dropPlus
  rw [if_pos hlast]
  exact List.dropLast_concat

theorem dropPlus_cases (t : Str) : dropPlus t = t ∨ t = dropPlus t ++ "+".toList := by
  unfold dropPlus
  split
  next h =>
    obtain ⟨u, rfl⟩ := List.getLast?_eq_some_iff.mp h
    exact Or.inr (congrArg (· ++ ['+']) (List.dropLast_concat.symm))
  next h => exact Or.inl rfl

theorem dropPlus_of_word (h : ∀ c ∈ t, d.chars.word c = true) : dropPlus t = t := by
  rcases dropPlus_cases t with heq | heq
  · exact heq
  · have hplus : '+' ∈ t := by
      rw [heq]
      exact List.mem_append_right _ (List.mem_singleton_self _)
    have hword := h '+' hplus
    rw [word_plus] at hword
    cases hword

/-- A `+` follows an id only. -/
theorem known_of_plus (hwf : d.Wellformed) (h : d.IsToken t) (ht : t = u ++ "+".toList) :
    u ∈ d.ldict ∨ u ∈ d.edict := by
  have hplus : '+' ∈ t := by
    rw [ht]
    exact List.mem_append_right _ (List.mem_singleton_self _)
  have hnot : ∀ x : Str, (∀ c ∈ x, d.chars.word c = true) → '+' ∉ x := by
    intro x hx hmem
    have hword := hx '+' hmem
    rw [word_plus] at hword
    cases hword
  cases h with
  | sign t h =>
      have hsigns : ∀ t ∈ ["(".toList, ")".toList, "WITH".toList, "AND".toList, "OR".toList],
          '+' ∉ t := by decide
      exact absurd hplus (hsigns t h)
  | custom x h =>
      rcases List.mem_append.mp hplus with hleft | hright
      · exact absurd hleft (by decide)
      · exact absurd hright (hnot x h)
  | ref t h hword => exact absurd hplus (hnot t hword)
  | id t h => exact absurd hplus (hnot t (hwf.word t h))
  | idPlus t h =>
      rw [← List.append_cancel_right ht]
      exact h

/-- An id begins with nothing that begins with what is reserved. -/
theorem Wellformed.not_startsWith (hwf : d.Wellformed) (hx : x ∈ d.ldict ∨ x ∈ d.edict)
    {r s : Str} (hr : r ∈ reserved) (hs : startsWith s r = true) : startsWith x s = false := by
  rw [Bool.eq_false_iff]
  intro hstarts
  obtain ⟨y, rfl⟩ := startsWith_iff.mp hstarts
  obtain ⟨z, rfl⟩ := startsWith_iff.mp hs
  have hfalse := hwf.begins _ hx r hr
  rw [startsWith_iff.mpr ⟨z ++ y, List.append_assoc r z y⟩] at hfalse
  cases hfalse

theorem Wellformed.not_custom (hwf : d.Wellformed) (hx : x ∈ d.ldict ∨ x ∈ d.edict) :
    startsWith x "custom:".toList = false :=
  hwf.not_startsWith hx (r := "custom".toList) (by decide) (by decide)

theorem Wellformed.not_ref (hwf : d.Wellformed) (hx : x ∈ d.ldict ∨ x ∈ d.edict) {r : Str}
    (hr : r ∈ reserved) : startsWith x r = false := hwf.begins x hx r hr

theorem startsWith_append (r x : Str) : startsWith (r ++ x) r = true :=
  startsWith_iff.mpr ⟨x, rfl⟩

/-! ## Licenses -/

/-- What is drawn from the dictionary or refers elsewhere keeps its last character. -/
theorem dropPlus_of_refers (hwf : d.Wellformed) (h : d.IsToken t)
    (hrefers : startsWith t "custom:".toList = true ∨ startsWith t "LicenseRef-".toList = true) :
    dropPlus t = t := by
  rcases dropPlus_cases t with heq | heq
  · exact heq
  · exfalso
    have hknown := known_of_plus hwf h heq
    have hbegins : ∀ r : Str, r.getLast? ≠ some '+' → startsWith t r = true →
        startsWith (dropPlus t) r = true := by
      intro r hlast hr
      unfold startsWith at hr ⊢
      rw [List.isPrefixOf_iff_prefix] at hr ⊢
      rw [heq] at hr
      rcases List.prefix_concat_iff.mp hr with hall | hpre
      · rw [hall] at hlast
        exact absurd List.getLast?_concat hlast
      · exact hpre
    rcases hrefers with hcustom | href
    · have htrue := hbegins _ (by decide) hcustom
      rw [hwf.not_custom hknown] at htrue
      cases htrue
    · have htrue := hbegins _ (by decide) href
      rw [hwf.not_ref hknown (by decide)] at htrue
      cases htrue

theorem customLicense_installs (x : Str) :
    (Leaf.customLicense x).installs =
      decide ("custom:".toList ++ x ≠ "custom:none".toList ∧
        "custom:".toList ++ x ≠ "custom:meta".toList) := by
  have hcancel : ∀ y : Str, "custom:".toList ++ x = "custom:".toList ++ y ↔ x = y := by
    intro y
    exact List.append_right_inj _
  unfold Leaf.installs
  rw [decide_eq_decide]
  exact and_congr (not_congr (hcancel "none".toList)).symm (not_congr (hcancel "meta".toList)).symm

theorem licenseRef_installs (x : Str) :
    (Leaf.licenseRef x).installs =
      decide ("LicenseRef-".toList ++ x ≠ "custom:none".toList ∧
        "LicenseRef-".toList ++ x ≠ "custom:meta".toList) := by
  have hne : ∀ y : Str, y.head? = some 'c' → "LicenseRef-".toList ++ x ≠ y := by
    intro y hy heq
    rw [← heq] at hy
    exact absurd (Option.some.inj hy) (by decide)
  exact (decide_eq_true ⟨hne _ rfl, hne _ rfl⟩).symm

theorem leaf_of_licenseBit (hwf : d.Wellformed) (h : d.IsToken t) (hb : d.licenseBit t = some b) :
    ∃ l, d.IsLicense l ∧ l.token = t ∧ l.installs = b := by
  unfold licenseBit at hb
  dsimp only at hb
  rcases dropPlus_cases t with heq | heq
  · rw [heq] at hb
    by_cases hcustom : startsWith t "custom:".toList = true
    · obtain ⟨x, rfl⟩ := startsWith_iff.mp hcustom
      rw [hcustom, Bool.true_or, if_pos rfl, ← customLicense_installs, Option.some.injEq] at hb
      exact ⟨.customLicense x, .customLicense x, rfl, hb⟩
    · rw [Bool.eq_false_iff.mpr hcustom, Bool.false_or] at hb
      by_cases href : startsWith t "LicenseRef-".toList = true
      · obtain ⟨x, rfl⟩ := startsWith_iff.mp href
        rw [if_pos href, ← licenseRef_installs, Option.some.injEq] at hb
        exact ⟨.licenseRef x, .licenseRef x, rfl, hb⟩
      · rw [if_neg href] at hb
        by_cases hknown : t ∉ d.ldict
        · rw [if_pos hknown] at hb
          cases hb
        · rw [if_neg hknown, Option.some.injEq] at hb
          exact ⟨.license t false, .license t false (not_not.mp hknown), List.append_nil t, hb⟩
  · have hknown := known_of_plus hwf h heq
    rw [hwf.not_custom hknown, hwf.not_ref hknown (by decide), Bool.false_or,
      if_neg Bool.false_ne_true] at hb
    by_cases hmem : dropPlus t ∉ d.ldict
    · rw [if_pos hmem] at hb
      cases hb
    · rw [if_neg hmem, Option.some.injEq] at hb
      exact ⟨.license (dropPlus t) true, .license _ true (not_not.mp hmem), heq.symm, hb⟩

theorem licenseBit_of_leaf (hwf : d.Wellformed) {l : Leaf} (hl : d.IsLicense l)
    (h : d.IsToken l.token) : d.licenseBit l.token = some l.installs := by
  unfold licenseBit
  dsimp only
  cases hl with
  | license lic plus hmem =>
      have hdrop : dropPlus (Leaf.license lic plus).token = lic := by
        cases plus
        · show dropPlus (lic ++ []) = lic
          rw [List.append_nil]
          exact dropPlus_of_word (hwf.word lic (Or.inl hmem))
        · exact dropPlus_concat lic
      rw [hdrop, hwf.not_custom (Or.inl hmem), hwf.not_ref (Or.inl hmem) (by decide),
        Bool.false_or, if_neg Bool.false_ne_true, if_neg (not_not.mpr hmem)]
      rfl
  | licenseRef x =>
      have href : startsWith (Leaf.licenseRef x).token "LicenseRef-".toList = true :=
        startsWith_append _ x
      rw [dropPlus_of_refers hwf h (Or.inr href), href, Bool.or_true, if_pos rfl,
        licenseRef_installs]
      rfl
  | customLicense x =>
      have hcustom : startsWith (Leaf.customLicense x).token "custom:".toList = true :=
        startsWith_append _ x
      rw [dropPlus_of_refers hwf h (Or.inl hcustom), hcustom, Bool.true_or, if_pos rfl,
        customLicense_installs]
      rfl

/-- The token of a license begins with no parenthesis and refers to no document. -/
theorem bare_of_isLicense (hwf : d.Wellformed) {l : Leaf} (hl : d.IsLicense l) :
    startsWith l.token "DocumentRef-".toList = false ∧ l.token ≠ "(".toList := by
  cases hl with
  | license lic plus hmem =>
      constructor
      · rw [Bool.eq_false_iff]
        intro hdoc
        unfold startsWith at hdoc
        rw [List.isPrefixOf_iff_prefix] at hdoc
        have hnot := hwf.not_ref (Or.inl hmem) (r := "DocumentRef-".toList) (by decide)
        rw [Bool.eq_false_iff] at hnot
        apply hnot
        unfold startsWith
        rw [List.isPrefixOf_iff_prefix]
        cases plus
        · rw [show (Leaf.license lic false).token = lic from List.append_nil lic] at hdoc
          exact hdoc
        · rcases List.prefix_concat_iff.mp hdoc with hall | hpre
          · have hlast := congrArg List.getLast? hall
            rw [List.getLast?_concat] at hlast
            exact absurd hlast (by decide)
          · exact hpre
      · intro heq
        cases lic with
        | nil =>
            cases plus
            · exact absurd heq (by decide)
            · exact absurd heq (by decide)
        | cons c lic =>
            have hc : c = '(' := (List.cons.inj heq).1
            have hword := hwf.word _ (Or.inl hmem) c List.mem_cons_self
            rw [hc, word_paren] at hword
            cases hword
  | licenseRef x => exact ⟨rfl, fun heq => by cases heq⟩
  | customLicense x => exact ⟨rfl, fun heq => by cases heq⟩

/-! ## Exceptions -/

theorem leaf_of_exceptionBit (hb : d.exceptionBit t = some b) :
    ∃ l, d.IsException l ∧ l.token = t ∧ l.installs = b := by
  unfold exceptionBit at hb
  by_cases hcustom : startsWith t "custom:".toList = true
  · obtain ⟨x, rfl⟩ := startsWith_iff.mp hcustom
    rw [hcustom, Bool.true_or, if_pos rfl, Option.some.injEq] at hb
    exact ⟨.customException x, .customException x, rfl, hb⟩
  · rw [Bool.eq_false_iff.mpr hcustom, Bool.false_or] at hb
    by_cases href : startsWith t "AdditionRef-".toList = true
    · obtain ⟨x, rfl⟩ := startsWith_iff.mp href
      rw [if_pos href, Option.some.injEq] at hb
      exact ⟨.additionRef x, .additionRef x, rfl, hb⟩
    · rw [if_neg href] at hb
      by_cases hknown : t ∉ d.edict
      · rw [if_pos hknown] at hb
        cases hb
      · rw [if_neg hknown, Option.some.injEq] at hb
        exact ⟨.exception t, .exception t (not_not.mp hknown), rfl, hb⟩

theorem exceptionBit_of_leaf (hwf : d.Wellformed) {l : Leaf} (hl : d.IsException l) :
    d.exceptionBit l.token = some l.installs := by
  unfold exceptionBit
  cases hl with
  | exception eid hmem =>
      show (if startsWith eid "custom:".toList || startsWith eid "AdditionRef-".toList then some true
        else if eid ∉ d.edict then none else some false) = some false
      rw [hwf.not_custom (Or.inr hmem), hwf.not_ref (Or.inr hmem) (by decide), Bool.false_or,
        if_neg Bool.false_ne_true, if_neg (not_not.mpr hmem)]
  | additionRef x =>
      have href : startsWith (Leaf.additionRef x).token "AdditionRef-".toList = true :=
        startsWith_append _ x
      rw [href, Bool.or_true, if_pos rfl]
      rfl
  | customException x =>
      have hcustom : startsWith (Leaf.customException x).token "custom:".toList = true :=
        startsWith_append _ x
      rw [hcustom, Bool.true_or, if_pos rfl]
      rfl

theorem bare_of_isException (hwf : d.Wellformed) {l : Leaf} (hl : d.IsException l) :
    startsWith l.token "DocumentRef-".toList = false := by
  cases hl with
  | exception eid hmem => exact hwf.not_ref (Or.inr hmem) (by decide)
  | additionRef x => rfl
  | customException x => rfl

/-! ## Expressions -/

/-- The tokens of a license or an exception are those of its leaves. -/
theorem preceded_of_referred {bare bit : Str → Option Bool} {leaf : Leaf → Prop} {P : Str → Prop}
    (hbare : ∀ t b, P t → bare t = some b → ∃ l, leaf l ∧ l.token = t ∧ l.installs = b)
    (hbit : ∀ t b, P t → bit t = some b → ∃ l, leaf l ∧ l.token = t ∧ l.installs = b)
    {ts : List Str} {bs : List Bool} (hts : ∀ t ∈ ts, P t) (h : Referred bare bit ts bs) :
    ∃ ls, bs = ls.map Leaf.installs ∧ Preceded leaf ts ls := by
  cases h with
  | bare hdoc h =>
      obtain ⟨l, hl, rfl, rfl⟩ := hbare _ _ (hts _ List.mem_cons_self) h
      exact ⟨[l], rfl, .alone l hl⟩
  | of hdoc h =>
      obtain ⟨x, rfl⟩ := startsWith_iff.mp hdoc
      obtain ⟨l, hl, rfl, rfl⟩ := hbit _ _ (hts _ (List.mem_cons_of_mem _ List.mem_cons_self)) h
      exact ⟨[.documentRef x, l], rfl, .of x l hl⟩

theorem referred_of_preceded {bare bit : Str → Option Bool} {leaf : Leaf → Prop} {P : Str → Prop}
    (hdoc : ∀ l, leaf l → startsWith l.token "DocumentRef-".toList = false)
    (hbare : ∀ l, leaf l → P l.token → bare l.token = some l.installs)
    (hbit : ∀ l, leaf l → P l.token → bit l.token = some l.installs)
    {ts : List Str} {ls : List Leaf} (hts : ∀ t ∈ ts, P t) (h : Preceded leaf ts ls) :
    ∃ bs, bs = ls.map Leaf.installs ∧ Referred bare bit ts bs := by
  refine ⟨_, rfl, ?_⟩
  cases h with
  | alone l hl => exact .bare (hdoc l hl) (hbare l hl (hts _ List.mem_cons_self))
  | of x l hl =>
      exact .of (startsWith_append _ x)
        (hbit l hl (hts _ (List.mem_cons_of_mem _ List.mem_cons_self)))

theorem reads_iff_expression (hwf : d.Wellformed) {ts : List Str} (hts : ∀ t ∈ ts, d.IsToken t)
    {bs : List Bool} :
    d.Reads .expr ts bs ↔ ∃ ls, d.Expression .expr ts ls ∧ bs = ls.map Leaf.installs := by
  constructor
  · intro h
    have hlicense : ∀ ts bs, (∀ t ∈ ts, d.IsToken t) → Referred d.bareBit d.licenseBit ts bs →
        ∃ ls, bs = ls.map Leaf.installs ∧ Preceded d.IsLicense ts ls := by
      intro ts bs hts h
      apply preceded_of_referred _ _ hts h
      · intro t b ht hb
        unfold bareBit at hb
        split at hb
        · cases hb
        · exact leaf_of_licenseBit hwf ht hb
      · intro t b ht hb
        exact leaf_of_licenseBit hwf ht hb
    have hexception : ∀ ts bs, (∀ t ∈ ts, d.IsToken t) →
        Referred d.exceptionBit d.exceptionBit ts bs →
        ∃ ls, bs = ls.map Leaf.installs ∧ Preceded d.IsException ts ls := by
      intro ts bs hts h
      exact preceded_of_referred (fun t b _ hb => leaf_of_exceptionBit hb)
        (fun t b _ hb => leaf_of_exceptionBit hb) hts h
    obtain ⟨ls, hbs, hls⟩ := Derives.exchange
      (fun bs ls bs' ls' h h' => by rw [h, h', List.map_append]) hlicense hexception h hts
    exact ⟨ls, hls, hbs⟩
  · intro h
    obtain ⟨ls, h, hbs⟩ := h
    have hlicense : ∀ ts ls, (∀ t ∈ ts, d.IsToken t) → Preceded d.IsLicense ts ls →
        ∃ bs, bs = ls.map Leaf.installs ∧ Referred d.bareBit d.licenseBit ts bs := by
      intro ts ls hts h
      apply referred_of_preceded (fun l hl => (bare_of_isLicense hwf hl).1) _ _ hts h
      · intro l hl ht
        unfold bareBit
        rw [if_neg (bare_of_isLicense hwf hl).2]
        exact licenseBit_of_leaf hwf hl ht
      · intro l hl ht
        exact licenseBit_of_leaf hwf hl ht
    have hexception : ∀ ts ls, (∀ t ∈ ts, d.IsToken t) → Preceded d.IsException ts ls →
        ∃ bs, bs = ls.map Leaf.installs ∧ Referred d.exceptionBit d.exceptionBit ts bs := by
      intro ts ls hts h
      exact referred_of_preceded (fun l hl => bare_of_isException hwf hl)
        (fun l hl _ => exceptionBit_of_leaf hwf hl) (fun l hl _ => exceptionBit_of_leaf hwf hl) hts h
    obtain ⟨bs', hbs', hreads⟩ := Derives.exchange
      (fun ls bs ls' bs' h h' => by rw [h, h', List.map_append]) hlicense hexception h hts
    rw [hbs, ← hbs']
    exact hreads

/-- `parse` returns on the expressions and nothing else, and a license needs to be installed when
a leaf says so. -/
theorem parse_returns_iff_expression (d : SPDXParser) (hwf : d.Wellformed) (str : Str) (b : Bool) :
    (d.parse str).Returns b ↔ ∃ ts leaves, d.lexed str = (ts, true) ∧
      d.Expression .expr ts leaves ∧ b = leaves.any Leaf.installs := by
  have htokens := isToken_of_mem_lexed d str
  rw [parse_returns_iff]
  constructor
  · intro h
    obtain ⟨hok, bs, hreads, hb⟩ := h
    obtain ⟨ls, hls, hbs⟩ := (reads_iff_expression hwf htokens).mp hreads
    refine ⟨(d.lexed str).1, ls, Prod.ext rfl hok, hls, ?_⟩
    rw [hb, hbs, List.any_map]
    rfl
  · intro h
    obtain ⟨ts, ls, hlexed, hls, hb⟩ := h
    rw [hlexed] at htokens ⊢
    refine ⟨rfl, _, (reads_iff_expression hwf htokens).mpr ⟨ls, hls, rfl⟩, ?_⟩
    rw [hb, List.any_map]
    rfl

theorem mitParser_returns : mitParser.Wellformed ∧ (mitParser.parse "(MIT+)".toList).Returns true := by
  have hwf : mitParser.Wellformed := by
    have hid : ∀ x, x ∈ mitParser.ldict ∨ x ∈ mitParser.edict → x = "MIT".toList := by
      intro x hx
      rcases hx with hx | hx
      · exact List.mem_singleton.mp hx
      · cases hx
    constructor
    · intro x hx c hc
      have hascii : c = 'M' ∨ c = 'I' ∨ c = 'T' := by
        rw [hid x hx] at hc
        simpa using hc
      rcases hascii with rfl | rfl | rfl <;> rfl
    · intro x hx r hr
      rw [hid x hx]
      simp only [reserved, List.mem_cons, List.not_mem_nil, or_false] at hr
      rcases hr with rfl | rfl | rfl | rfl | rfl | rfl | rfl <;> rfl
  refine ⟨hwf, (parse_returns_iff_expression mitParser hwf "(MIT+)".toList true).mpr ?_⟩
  refine ⟨["(".toList, "MIT+".toList, ")".toList], [.license "MIT".toList true], ?_, ?_, rfl⟩
  · have hopen : mitParser.lex "(MIT+)".toList = .ok (some "(".toList, "MIT+)".toList) := rfl
    have hid : mitParser.lex "MIT+)".toList = .ok (some "MIT+".toList, ")".toList) := rfl
    have hclose : mitParser.lex ")".toList = .ok (some ")".toList, []) := rfl
    rw [lexed_of_some hopen, lexed_of_some hid, lexed_of_some hclose, lexed_of_none rfl]
  · have hlicense : Preceded mitParser.IsLicense ["MIT+".toList] [.license "MIT".toList true] :=
      .alone (.license "MIT".toList true) (.license _ true List.mem_cons_self)
    exact .simple (.paren (.simple (.license hlicense)))

end SPDXParser

end Cbuild.Spdx
