import Cbuild.Apk.Token
import Cbuild.Lib.Compare

/-! # The order of versions

`versionCompareOp` runs two tokenizers in lockstep. `versionTokens` is the
sequence one of them emits on its own, and the comparison is the lexicographic
order of the two sequences under `tokenOrder`. Each token has a key in a
lawfully compared type, so the laws of the version order are those of lists of
keys.
-/

namespace Cbuild.Apk

/-! ## The emitted tokens -/

/-- The tokens of a tokenizer, up to and including the one it stops at. -/
def emit (tok : Token) : List Token :=
  if _h : tok.token.code < TokenType.endTok.code then tok :: emit tok.next else [tok]
termination_by tok.remaining
decreasing_by exact Token.next_remaining_lt _h

def versionTokens (ver : Str) : List Token := emit (.init ver)

theorem emit_of_lt {tok : Token} (h : tok.token.code < TokenType.endTok.code) :
    emit tok = tok :: emit tok.next := by
  rw [emit, dif_pos h]

theorem emit_of_stopped {tok : Token} (h : ¬ tok.token.code < TokenType.endTok.code) :
    emit tok = [tok] := by
  rw [emit, dif_neg h]

/-- The emitted sequence starts with the token itself. -/
theorem emit_eq_cons (tok : Token) : ∃ rest, emit tok = tok :: rest := by
  by_cases h : tok.token.code < TokenType.endTok.code
  · exact ⟨_, emit_of_lt h⟩
  · exact ⟨_, emit_of_stopped h⟩

/-! ## The order of tokens -/

/-- Pre-release suffix, (invalid), end, revision, commit hash, suffix number,
post-release suffix, letter, digit. -/
def Token.rank (t : Token) : Nat :=
  match t.token with
  | .suffix => if t.suffix.code < Suffix.none.code then 0 else 6
  | .invalid => 1
  | .endTok => 2
  | .revisionNo => 3
  | .commitHash => 4
  | .suffixNo => 5
  | .letter => 7
  | .digit => 8
  | .initialDigit => 9

/-- Dotted components: as strings when either starts with a zero, else as numbers. -/
def digitOrder (u v : Str) : Ordering :=
  if u.head? = some '0' ∨ v.head? = some '0' then Token.cmpValue u v
  else compare (pyInt u) (pyInt v)

/-- The order of two tokens of one type. -/
def Token.payloadOrder (t u : Token) : Ordering :=
  match t.token with
  | .initialDigit | .suffixNo | .revisionNo => Ord.compare t.number u.number
  | .digit => digitOrder t.value u.value
  | .letter => Ord.compare (t.value.headD '\x00').toNat (u.value.headD '\x00').toNat
  | .suffix => Ord.compare t.suffix.code u.suffix.code
  | .commitHash => Token.cmpValue t.value u.value
  | .endTok | .invalid => .eq

def tokenOrder (t u : Token) : Ordering := (Ord.compare t.rank u.rank).then (t.payloadOrder u)

theorem cmpNumber_eq_compare (a b : Nat) : Token.cmpNumber a b = compare a b := by
  unfold Token.cmpNumber
  rcases Nat.lt_trichotomy a b with h | h | h
  · rw [if_pos h, Nat.compare_eq_lt.mpr h]
  · subst h
    simp
  · rw [if_neg (by omega), if_pos h, Nat.compare_eq_gt.mpr h]

/-! ## Digit runs -/

/-- What the tokenizer stores for a dotted component. -/
structure Token.Numbered (t : Token) : Prop where
  nonempty : t.value ≠ []
  digits : ∀ c ∈ t.value, iscdigit c = true
  number : t.number = pyInt t.value

theorem extractSpan_spec {fn : Char → Bool} {self t : Token}
    (h : self.extractSpan fn = some t) :
    t = { self with value := self.input.takeWhile fn, input := self.input.dropWhile fn } ∧
      self.input.takeWhile fn ≠ [] := by
  unfold Token.extractSpan at h
  split at h
  · contradiction
  · rename_i hne
    cases h
    exact ⟨rfl, hne⟩

theorem nextSuffix_token (self : Token) (rest : Str) :
    (self.nextSuffix rest).token = .suffix ∨ (self.nextSuffix rest).token = .invalid := by
  unfold Token.nextSuffix
  split
  · exact .inr rfl
  · extract_lets s
    cases s.extractSpan isclow with
    | none => exact .inr rfl
    | some _ =>
        dsimp only
        split
        · exact .inr rfl
        · exact .inl rfl

theorem nextHash_token (self : Token) (rest : Str) :
    (self.nextHash rest).token = .commitHash ∨ (self.nextHash rest).token = .invalid := by
  unfold Token.nextHash
  split
  · exact .inr rfl
  · extract_lets s
    cases h : s.extractSpan isxdigit with
    | none => exact .inr rfl
    | some t => exact .inl (Token.extractSpan_length h).1

theorem nextRevision_token (self : Token) :
    self.nextRevision.token = .revisionNo ∨ self.nextRevision.token = .invalid := by
  unfold Token.nextRevision
  split
  · exact .inr rfl
  · extract_lets s
    cases h : s.extractSpan iscdigit with
    | none => exact .inr rfl
    | some t => exact .inl (Token.extractSpan_length h).1

theorem nextNumber_numbered {self : Token} (h : self.nextNumber.token = .digit) :
    self.nextNumber.Numbered := by
  unfold Token.nextNumber at h ⊢
  by_cases hinv : self.enterNumber.token = .invalid
  · rw [if_pos hinv, hinv] at h
    contradiction
  · rw [if_neg hinv] at h ⊢
    cases hs : self.enterNumber.extractSpan iscdigit with
    | none =>
        rw [hs] at h
        contradiction
    | some t =>
        obtain ⟨rfl, hne⟩ := extractSpan_spec hs
        exact ⟨hne, fun c hc => List.mem_takeWhile_imp hc, rfl⟩

theorem next_numbered {self : Token} (h : self.next.token = .digit) : self.next.Numbered := by
  unfold Token.next at h ⊢
  cases hin : self.input with
  | nil =>
      rw [hin] at h
      contradiction
  | cons inp rest =>
      simp only [hin] at h ⊢
      split at h
      · split at h <;> contradiction
      rename_i hlow
      split at h
      · rcases nextSuffix_token self rest with h' | h' <;> rw [h'] at h <;> contradiction
      rename_i hsuf
      split at h
      · rcases nextHash_token self rest with h' | h' <;> rw [h'] at h <;> contradiction
      rename_i hhash
      split at h
      · rcases nextRevision_token self with h' | h' <;> rw [h'] at h <;> contradiction
      rename_i hrev
      rw [if_neg hlow, if_neg hsuf, if_neg hhash, if_neg hrev]
      split at h
      · rename_i hdot
        rw [if_pos hdot]
        split at h
        · contradiction
        · rename_i hle
          rw [if_neg hle]
          exact nextNumber_numbered h
      rename_i hdot
      rw [if_neg hdot]
      split at h
      · contradiction
      · rename_i hdig
        rw [if_neg hdig]
        exact nextNumber_numbered h

/-- Every dotted component among the emitted tokens carries its digit run. -/
theorem emit_numbered {tok : Token} (htok : tok.token = .digit → tok.Numbered) :
    ∀ t ∈ emit tok, t.token = .digit → t.Numbered := by
  induction tok using emit.induct with
  | case1 tok hlt ih =>
      rw [emit_of_lt hlt]
      intro t ht
      rcases List.mem_cons.mp ht with rfl | ht
      · exact htok
      · exact ih next_numbered t ht
  | case2 tok hstop =>
      rw [emit_of_stopped hstop]
      intro t ht
      rw [List.mem_singleton.mp ht]
      exact htok

theorem init_token (ver : Str) :
    (Token.init ver).token = .initialDigit ∨ (Token.init ver).token = .invalid := by
  unfold Token.init
  extract_lets s
  cases h : s.extractSpan iscdigit with
  | none => exact .inr rfl
  | some t => exact .inl (Token.extractSpan_length h).1

theorem init_numbered (ver : Str) (h : (Token.init ver).token = .digit) :
    (Token.init ver).Numbered := by
  rcases init_token ver with h' | h' <;> rw [h'] at h <;> contradiction

theorem versionTokens_numbered (ver : Str) :
    ∀ t ∈ versionTokens ver, t.token = .digit → t.Numbered :=
  emit_numbered (init_numbered ver)

/-! ## Keys -/

/-- A triple whose lexicographic order is the order of the emitted tokens. -/
structure TokenKey where
  rank : Nat
  number : Nat
  text : Str

def TokenKey.cmp : TokenKey → TokenKey → Ordering :=
  compareLex (compareOn TokenKey.rank)
    (compareLex (compareOn TokenKey.number) fun a b => Token.cmpValue a.text b.text)

instance : Std.TransCmp Token.cmpValue := Lib.transCmp_ofLinearOrder

instance : Std.TransCmp TokenKey.cmp :=
  have : Std.TransCmp fun a b : TokenKey => Token.cmpValue a.text b.text :=
    Lib.transCmp_comap TokenKey.text
  inferInstanceAs (Std.TransCmp (compareLex _ _))

/-- Components with a leading zero sort below all others, by their text. -/
def Token.key (t : Token) : TokenKey :=
  match t.token with
  | .initialDigit | .suffixNo | .revisionNo => ⟨t.rank, t.number, []⟩
  | .digit =>
      if t.value.head? = some '0' then ⟨t.rank, 0, t.value⟩ else ⟨t.rank, pyInt t.value, []⟩
  | .letter => ⟨t.rank, (t.value.headD '\x00').toNat, []⟩
  | .suffix => ⟨t.rank, t.suffix.code, []⟩
  | .commitHash => ⟨t.rank, 0, t.value⟩
  | .endTok | .invalid => ⟨t.rank, 0, []⟩

theorem cmpValue_self (v : Str) : Token.cmpValue v v = .eq := by simp [Token.cmpValue]

theorem foldl_pyInt_pos (s : Str) (n : Nat) (hn : 0 < n) :
    0 < s.foldl (fun n c => 10 * n + (c.toNat - 0x30)) n := by
  induction s generalizing n with
  | nil => exact hn
  | cons c s ih =>
      have hstep : 0 < 10 * n + (c.toNat - 0x30) := by omega
      exact ih _ hstep

theorem iscdigit_bounds {c : Char} (h : iscdigit c = true) : 0x30 ≤ c.toNat ∧ c.toNat ≤ 0x39 := by
  simpa [iscdigit] using h

/-- A digit above zero is above zero as a code point too. -/
theorem zero_lt_of_iscdigit {c : Char} (h : iscdigit c = true) (hz : c ≠ '0') :
    0x30 < c.toNat := by
  have hb := (iscdigit_bounds h).1
  have hne : c.toNat ≠ 0x30 := fun he => hz (Char.toNat_inj.mp he)
  omega

/-- A run of digits without a leading zero denotes a positive number. -/
theorem pyInt_pos {v : Str} (hne : v ≠ []) (hd : ∀ c ∈ v, iscdigit c = true)
    (hz : v.head? ≠ some '0') : 0 < pyInt v := by
  cases v with
  | nil => exact (hne rfl).elim
  | cons c v =>
      have hc : c ≠ '0' := by simpa using hz
      have hpos := zero_lt_of_iscdigit (hd c List.mem_cons_self) hc
      have hstep : 0 < 10 * 0 + (c.toNat - 0x30) := by omega
      exact foldl_pyInt_pos v _ hstep

/-- As strings, runs with a leading zero sort below those without. -/
theorem cmpValue_leading_zero {u v : Str} (hu : u.head? = some '0') (hv : v.head? ≠ some '0')
    (hne : v ≠ []) (hd : ∀ c ∈ v, iscdigit c = true) : Token.cmpValue u v = .lt := by
  cases v with
  | nil => exact (hne rfl).elim
  | cons d v =>
      cases u with
      | nil => simp at hu
      | cons c u =>
          have hc : c = '0' := by simpa using hu
          have hd0 : d ≠ '0' := by simpa using hv
          have hlt : c < d := by
            rw [hc, Char.lt_def, UInt32.lt_iff_toNat_lt]
            exact zero_lt_of_iscdigit (hd d List.mem_cons_self) hd0
          have hcons : c :: u < d :: v := List.cons_lt_cons_iff.mpr (.inl hlt)
          have hneq : c :: u ≠ d :: v := fun he => hd0 (by rw [← hc]; exact (List.cons.inj he).1.symm)
          rw [Token.cmpValue, if_neg hneq, if_pos hcons]

theorem key_rank (t : Token) : t.key.rank = t.rank := by
  unfold Token.key
  cases t.token <;> dsimp only
  split <;> rfl

theorem key_cmp (t u : Token) :
    t.key.cmp u.key = (compare t.rank u.rank).then
      ((compare t.key.number u.key.number).then (Token.cmpValue t.key.text u.key.text)) := by
  rw [← key_rank t, ← key_rank u]
  rfl

/-- Equal ranks mean equal types. -/
theorem token_eq_of_rank_eq {t u : Token} (h : t.rank = u.rank) : t.token = u.token := by
  unfold Token.rank at h
  cases ht : t.token <;> cases hu : u.token <;> simp only [ht, hu] at h <;> first
    | rfl
    | omega
    | (split at h <;> omega)

theorem digit_key_cmp {t u : Token} (ht : t.token = .digit) (hu : u.token = .digit)
    (nt : t.Numbered) (nu : u.Numbered) :
    (compare t.key.number u.key.number).then (Token.cmpValue t.key.text u.key.text) =
      digitOrder t.value u.value := by
  unfold digitOrder
  simp only [Token.key, ht, hu]
  by_cases h0 : t.value.head? = some '0'
  · by_cases h1 : u.value.head? = some '0'
    · simp [h0, h1]
    · have hpos := pyInt_pos nu.nonempty nu.digits h1
      have hlt := cmpValue_leading_zero h0 h1 nu.nonempty nu.digits
      simp [h0, h1, Nat.compare_eq_lt.mpr hpos, hlt]
  · by_cases h1 : u.value.head? = some '0'
    · have hpos := pyInt_pos nt.nonempty nt.digits h0
      have hlt := cmpValue_leading_zero h1 h0 nt.nonempty nt.digits
      have hgt : Token.cmpValue t.value u.value = .gt := Std.OrientedCmp.gt_of_lt hlt
      simp [h0, h1, Nat.compare_eq_gt.mpr hpos, hgt]
    · simp [h0, h1, cmpValue_self]

/-- The order of the emitted tokens is the order of their keys. -/
theorem tokenOrder_eq_key_cmp {t u : Token} (ht : t.token = .digit → t.Numbered)
    (hu : u.token = .digit → u.Numbered) : tokenOrder t u = t.key.cmp u.key := by
  rw [key_cmp, tokenOrder]
  by_cases hr : t.rank = u.rank
  · have htok := token_eq_of_rank_eq hr
    congr 1
    cases h : t.token <;> have h' := h <;> rw [htok] at h'
    case digit =>
      rw [digit_key_cmp h h' (ht h) (hu h')]
      simp only [Token.payloadOrder, h]
    all_goals simp [Token.payloadOrder, Token.key, h, h', cmpValue_self]
  · have hne : compare t.rank u.rank ≠ .eq := fun he => hr (Nat.compare_eq_eq.mp he)
    cases hc : compare t.rank u.rank with
    | lt => rfl
    | eq => exact (hne hc).elim
    | gt => rfl

/-! ## The lockstep loop is the lexicographic order -/

/-- On tokens of one type still to be compared, the source's `compare` is the order. -/
theorem compare_eq_tokenOrder {t u : Token} (htok : t.token = u.token)
    (hlt : t.token.code < TokenType.endTok.code) (nt : t.token = .digit → t.Numbered)
    (nu : u.token = .digit → u.Numbered) : t.compare u = tokenOrder t u := by
  unfold tokenOrder Token.compare Token.payloadOrder
  cases h : t.token <;> have h' := h <;> rw [htok] at h'
  case digit =>
    have hrank : compare t.rank u.rank = .eq := by simp [Token.rank, h, h']
    simp only [hrank, Ordering.eq_then, digitOrder, cmpNumber_eq_compare, (nt h).number,
      (nu h').number]
  case suffix =>
    simp only [Token.rank, h, h', cmpNumber_eq_compare]
    -- suffixes on different sides of the delimiter differ in rank and in code alike
    by_cases ht : t.suffix.code < Suffix.none.code <;>
      by_cases hu : u.suffix.code < Suffix.none.code
    · simp [ht, hu]
    · have hcode : t.suffix.code < u.suffix.code := by omega
      have hrank : compare 0 6 = Ordering.lt := rfl
      simp [ht, hu, hrank, Nat.compare_eq_lt.mpr hcode]
    · have hcode : u.suffix.code < t.suffix.code := by omega
      have hrank : compare 6 0 = Ordering.gt := rfl
      simp [ht, hu, hrank, Nat.compare_eq_gt.mpr hcode]
    · simp [ht, hu]
  case endTok | invalid => simp [h, TokenType.code] at hlt
  all_goals simp [Token.rank, h, h', cmpNumber_eq_compare]

/-- On tokens of different types the verdict after the loop is the order. -/
theorem compareStopped_eq_tokenOrder {t u : Token} (htok : t.token ≠ u.token) :
    compareStopped t u = tokenOrder t u := by
  have hrank : t.rank ≠ u.rank := fun h => htok (token_eq_of_rank_eq h)
  have hthen : tokenOrder t u = compare t.rank u.rank := by
    unfold tokenOrder
    rcases Nat.lt_or_gt_of_ne hrank with h | h
    · rw [Nat.compare_eq_lt.mpr h]
      rfl
    · rw [Nat.compare_eq_gt.mpr h]
      rfl
  rw [hthen, compareStopped, if_neg htok]
  unfold Token.rank
  cases ht : t.token <;> cases hu : u.token <;> first
    | exact (htok (ht.trans hu.symm)).elim
    | (simp only [TokenType.code, reduceCtorEq, false_and, true_and, if_false]
       first
         | rfl
         | (split <;> rfl))

theorem compareStopped_of_eq {t u : Token} (htok : t.token = u.token) :
    compareStopped t u = .eq := if_pos htok

theorem tokenOrder_stopped {t u : Token} (htok : t.token = u.token)
    (hstop : ¬ t.token.code < TokenType.endTok.code) : tokenOrder t u = .eq := by
  unfold tokenOrder Token.rank Token.payloadOrder
  rw [← htok]
  cases h : t.token <;> simp [h, TokenType.code] at hstop ⊢

theorem compareLoop_eq_compareLex {t u : Token} (nt : t.token = .digit → t.Numbered)
    (nu : u.token = .digit → u.Numbered) :
    compareLoop t u = (emit t).compareLex tokenOrder (emit u) := by
  induction t, u using compareLoop.induct with
  | case1 t u h heq ih =>
      have hu : u.token.code < TokenType.endTok.code := h.1 ▸ h.2
      have horder := compare_eq_tokenOrder h.1 h.2 nt nu
      rw [compareLoop, dif_pos h, heq, emit_of_lt h.2, emit_of_lt hu, List.compareLex_cons_cons,
        ← horder, heq]
      exact ih next_numbered next_numbered
  | case2 t u h hne =>
      have hu : u.token.code < TokenType.endTok.code := h.1 ▸ h.2
      have horder := compare_eq_tokenOrder h.1 h.2 nt nu
      rw [compareLoop, dif_pos h, emit_of_lt h.2, emit_of_lt hu, List.compareLex_cons_cons,
        ← horder]
      cases hc : t.compare u with
      | lt => rfl
      | eq => exact (hne hc).elim
      | gt => rfl
  | case3 t u h =>
      rw [compareLoop, dif_neg h]
      by_cases htok : t.token = u.token
      · have ht : ¬ t.token.code < TokenType.endTok.code := fun hlt => h ⟨htok, hlt⟩
        rw [compareStopped_of_eq htok, emit_of_stopped ht, emit_of_stopped (htok ▸ ht),
          List.compareLex_cons_cons, tokenOrder_stopped htok ht]
        rfl
      · obtain ⟨rt, ht⟩ := emit_eq_cons t
        obtain ⟨ru, hu⟩ := emit_eq_cons u
        have horder := compareStopped_eq_tokenOrder htok
        have hne : tokenOrder t u ≠ .eq := by
          rw [tokenOrder, Ne, Ordering.then_eq_eq, Nat.compare_eq_eq]
          exact fun hr => htok (token_eq_of_rank_eq hr.1)
        rw [horder, ht, hu, List.compareLex_cons_cons]
        cases hc : tokenOrder t u with
        | lt => rfl
        | eq => exact (hne hc).elim
        | gt => rfl

theorem versionCompareOp_eq_compareLex (a b : Str) :
    versionCompareOp a b = (versionTokens a).compareLex tokenOrder (versionTokens b) :=
  compareLoop_eq_compareLex (init_numbered a) (init_numbered b)

/-! ## Laws of the version order -/

def versionKey (ver : Str) : List TokenKey := (versionTokens ver).map Token.key

theorem versionCompareOp_eq_key_compare (a b : Str) :
    versionCompareOp a b = (versionKey a).compareLex TokenKey.cmp (versionKey b) := by
  rw [versionCompareOp_eq_compareLex, versionKey, versionKey, Lib.compareLex_map]
  exact Lib.compareLex_congr fun t ht u hu =>
    tokenOrder_eq_key_cmp (versionTokens_numbered a t ht) (versionTokens_numbered b u hu)

instance : Std.TransCmp versionCompareOp := by
  have h : versionCompareOp =
      fun a b => (versionKey a).compareLex TokenKey.cmp (versionKey b) := by
    funext a b
    exact versionCompareOp_eq_key_compare a b
  rw [h]
  exact Lib.transCmp_comap versionKey

/-- The version order is a total preorder, and on valid versions it is the
lexicographic order of the emitted tokens. -/
theorem versionCompareOp_preorder :
    (∀ a, versionCompareOp a a = .eq) ∧
    (∀ a b, versionCompareOp b a = (versionCompareOp a b).swap) ∧
    (∀ a b c, (versionCompareOp a b).isLE → (versionCompareOp b c).isLE →
      (versionCompareOp a c).isLE) ∧
    (∀ a b c, versionCompareOp a b = .eq →
      versionCompareOp a c = versionCompareOp b c ∧
        versionCompareOp c a = versionCompareOp c b) ∧
    ∀ a b, versionValidate a → versionValidate b →
      versionCompareOp a b = (versionTokens a).compareLex tokenOrder (versionTokens b) := by
  refine ⟨?_, ?_, ?_, ?_, ?_⟩
  · intro a
    exact Std.ReflCmp.compare_self
  · intro a b
    exact Std.OrientedCmp.eq_swap
  · intro a b c hab hbc
    exact Std.TransCmp.isLE_trans hab hbc
  · intro a b c hab
    exact ⟨Std.TransCmp.congr_left hab, Std.TransCmp.congr_right hab⟩
  · intro a b _ _
    exact versionCompareOp_eq_compareLex a b

end Cbuild.Apk
