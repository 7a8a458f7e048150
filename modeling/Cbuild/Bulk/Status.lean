import Cbuild.Bulk.Order
import Cbuild.Bulk.StatusFile

/-! # What the status file says

A status file is to have a line for every requested template, and to give back
the templates that are left to do when it is read in. It falls short where a
template that was accepted never gets its line, and where one that is already
built is reported by a word the reader does not know.
-/

namespace Cbuild.Bulk

open Lib

variable {o : Opts} {w : World} {pkgs : List Str}

/-- The words for a template that is left to do. -/
def Status.Unhandled (st : Status) : Prop := st = .skipped ∨ st = .parse ∨ st = .failed

/-- The template a requested name stands for, or the name itself. -/
def World.nameOf (w : World) (pn : Str) : Str := (w.npn pn).getD pn

/-- A requested name stands for `n`. -/
def Asked (w : World) (pkgs : List Str) (n : Str) : Prop := ∃ pn ∈ pkgs, w.nameOf pn = n

/-- A status file that says what it should. -/
structure StatusExact (w : World) (pkgs : List Str) (status : List (Str × Status)) : Prop where
  /-- Every request has a line. -/
  reported : ∀ pn ∈ pkgs, ∃ st, (w.nameOf pn, st) ∈ status
  /-- What is collected are the requests that were skipped, failed to parse or failed to build. -/
  collected : ∀ n, n ∈ collectStatus (statusText status) ↔
    Asked w pkgs n ∧ ∃ a ∈ status, a.1 = n ∧ a.2.Unhandled
  /-- Nothing is collected that is built, done, broken, invalid or missing. -/
  unhandled : ∀ a ∈ status, a.1 ∈ collectStatus (statusText status) → a.2.Unhandled

/-- Requests are single words, and what a name stands for stands for itself. -/
structure NamesOk (w : World) (pkgs : List Str) : Prop where
  word : ∀ pn ∈ pkgs, IsWord (w.nameOf pn)
  stable : ∀ pn ∈ pkgs, ∀ n, w.npn pn = some n → w.npn n = some n

theorem NamesOk.word_of_asked (hn : NamesOk w pkgs) {n : Str} (h : Asked w pkgs n) : IsWord n := by
  obtain ⟨pn, hpn, rfl⟩ := h
  exact hn.word pn hpn

theorem statusExact_iff (hn : NamesOk w pkgs) {status : List (Str × Status)}
    (hasked : ∀ a ∈ status, Asked w pkgs a.1) :
    StatusExact w pkgs status ↔ (∀ pn ∈ pkgs, ∃ st, (w.nameOf pn, st) ∈ status) ∧
      ∀ a ∈ status, ∀ b ∈ status, a.1 = b.1 → a.2.Collected → b.2.Unhandled := by
  have hread := mem_collectStatus status fun a ha => hn.word_of_asked (hasked a ha)
  constructor
  · intro h
    exact ⟨h.reported, fun a ha b hb hab hc => h.unhandled b hb ((hread b.1).mpr ⟨a, ha, hab, hc⟩)⟩
  · intro h
    obtain ⟨hrep, hun⟩ := h
    refine ⟨hrep, fun n => ?_, fun b hb hmem => ?_⟩
    · rw [hread]
      constructor
      · intro hn
        obtain ⟨a, ha, rfl, hc⟩ := hn
        exact ⟨hasked a ha, a, ha, rfl, hun a ha a ha rfl hc⟩
      · intro hn
        obtain ⟨_, a, ha, han, hu⟩ := hn
        refine ⟨a, ha, han, ?_⟩
        rcases hu with hu | hu | hu
        · exact .inl hu
        · exact .inr (.inl hu)
        · exact .inr (.inr (.inl hu))
    · obtain ⟨a, ha, hab, hc⟩ := (hread b.1).mp hmem
      exact hun a ha b hb hab hc

/-! ## The names in the file -/

theorem asked_of_npn {pn n : Str} (hpn : pn ∈ pkgs) (h : w.npn pn = some n) : Asked w pkgs n :=
  ⟨pn, hpn, by rw [World.nameOf, h, Option.getD_some]⟩

theorem asked_of_requested {n : Str} (h : n ∈ requested o w pkgs) : Asked w pkgs n := by
  obtain ⟨pn, hpn, hnpn⟩ := (resolved o w pkgs).found n h
  exact asked_of_npn hpn hnpn

/-- The lines of the first loop name requests. -/
theorem asked_of_line {a : Str × Status} (ha : a ∈ (resolve o w pkgs).status) :
    Asked w pkgs a.1 := by
  have hr := resolved o w pkgs
  rcases hr.lines a ha with ⟨hu, hbad⟩ | ⟨_, ⟨pn, hpn, hnpn⟩, _⟩
  · exact ⟨a.1, (hr.bad a.1 hbad).1, by rw [World.nameOf, hu.npn, Option.getD_none]⟩
  · exact asked_of_npn hpn hnpn

namespace NamesOk

variable (hn : NamesOk w pkgs)
include hn

theorem npn_of_requested {n : Str} (h : n ∈ requested o w pkgs) : w.npn n = some n := by
  obtain ⟨pn, hpn, hnpn⟩ := (resolved o w pkgs).found n h
  exact hn.stable pn hpn n hnpn

/-- Unresolved names are not requested templates. -/
theorem notMem_of_unresolved {n : Str} {st : Status} (h : Unresolved w n st) :
    n ∉ requested o w pkgs := by
  intro hR
  have hnpn := hn.npn_of_requested hR
  rw [h.npn] at hnpn
  contradiction

/-- Every request is to be handled or has a line of the first loop. -/
theorem covered {pn : Str} (hpn : pn ∈ pkgs) : w.nameOf pn ∈ requested o w pkgs ∨
    ∃ st, (w.nameOf pn, st) ∈ (resolve o w pkgs).status := by
  have hr := resolved o w pkgs
  obtain ⟨n, hname, hmem⟩ := hr.covered pn hpn
  have hnameOf : w.nameOf pn = n := by
    rcases hname with rfl | hnpn
    · rcases hmem with hmem | hmem | hmem
      · rw [World.nameOf, hn.npn_of_requested hmem, Option.getD_some]
      · obtain ⟨_, st, hst, _⟩ := hr.bad n hmem
        rw [World.nameOf, hst.npn, Option.getD_none]
      · rcases hr.lines _ hmem with ⟨hu, _⟩ | ⟨_, ⟨m, hm, hnpn⟩, _⟩
        · rw [World.nameOf, hu.npn, Option.getD_none]
        · rw [World.nameOf, hn.stable m hm n hnpn, Option.getD_some]
    · rw [World.nameOf, hnpn, Option.getD_some]
  rw [hnameOf]
  rcases hmem with hmem | hmem | hmem
  · exact .inl hmem
  · obtain ⟨_, st, _, hline⟩ := hr.bad n hmem
    exact .inr ⟨st, hline⟩
  · exact .inr ⟨_, hmem⟩

end NamesOk

/-! ## A run that stops -/

/-- A run that stops before the loop skips every request. -/
theorem statusExact_skipped (hn : NamesOk w pkgs) {status : List (Str × Status)}
    (hmem : ∀ a, a ∈ status ↔
      a ∈ (resolve o w pkgs).status ∨ a.1 ∈ requested o w pkgs ∧ a.2 = .skipped) :
    StatusExact w pkgs status := by
  have hr := resolved o w pkgs
  have hasked : ∀ a ∈ status, Asked w pkgs a.1 := by
    intro a ha
    rcases (hmem a).mp ha with ha | ha
    · exact asked_of_line ha
    · exact asked_of_requested ha.1
  refine (statusExact_iff hn hasked).mpr ⟨?_, ?_⟩
  · intro pn hpn
    rcases hn.covered (o := o) hpn with hq | ⟨st, hline⟩
    · exact ⟨.skipped, (hmem _).mpr (.inr ⟨hq, rfl⟩)⟩
    · exact ⟨st, (hmem _).mpr (.inl hline)⟩
  · -- a name is either unresolved or skipped
    have hkind : ∀ a ∈ status, Unresolved w a.1 a.2 ∨ a.2 = .skipped ∧ w.npn a.1 = some a.1 := by
      intro a ha
      rcases (hmem a).mp ha with ha | ⟨hq, hst⟩
      · rcases hr.lines a ha with ⟨hu, _⟩ | ⟨hst, ⟨m, hm, hnpn⟩, _⟩
        · exact .inl hu
        · exact .inr ⟨hst, hn.stable m hm a.1 hnpn⟩
      · exact .inr ⟨hst, hn.npn_of_requested hq⟩
    intro a ha b hb hab hc
    rcases hkind b hb with hu | ⟨hst, _⟩
    · rcases hkind a ha with hua | ⟨_, hnpn⟩
      · rcases hua.word with hw | hw
        · rw [hw] at hc
          simp [Status.Collected] at hc
        · rw [hw] at hc
          simp [Status.Collected] at hc
      · rw [hab, hu.npn] at hnpn
        contradiction
    · exact .inl hst

/-- The lines of a run that stops at the first request to fail. -/
def StopsAt (w : World) (ps : List Str) (p : Str) (rest : List Str) (a : Str × Status) : Prop :=
  (a.1 ∈ ps ∧ Broken w a.1 ∧ a.2 = .broken) ∨ (a.1 = p ∧ a.2 = .parse) ∨
    (a.1 ∈ rest ∧ a.2 = .skipped)

section StopsAt

variable {ps rest : List Str} {p : Str}

theorem mem_requested_iff (hsplit : (resolve o w pkgs).sorted = ps ++ p :: rest) (q : Str) :
    q ∈ requested o w pkgs ↔ q ∈ ps ∨ q = p ∨ q ∈ rest := by
  rw [← List.mem_cons, ← List.mem_append, ← hsplit]
  exact (mem_sorted (resolve o w pkgs) q).symm

/-- What comes before the first request to fail does not come again. -/
theorem notMem_of_before (hsplit : (resolve o w pkgs).sorted = ps ++ p :: rest) {q : Str}
    (hq : q ∈ ps) : q ∉ p :: rest := by
  have hnd : (ps ++ p :: rest).Nodup := by
    rw [← hsplit]
    exact Finset.sort_nodup _ _
  exact (List.nodup_append'.mp hnd).2.2 hq

theorem StopsAt.requested {a : Str × Status} (h : StopsAt w ps p rest a)
    (hsplit : (resolve o w pkgs).sorted = ps ++ p :: rest) : a.1 ∈ requested o w pkgs := by
  refine (mem_requested_iff hsplit a.1).mpr ?_
  rcases h with ⟨hq, _⟩ | ⟨hap, _⟩ | ⟨hq, _⟩
  · exact .inl hq
  · exact .inr (.inl hap)
  · exact .inr (.inr hq)

/-- What is collected from them is unhandled. -/
theorem StopsAt.unhandled (hsplit : (resolve o w pkgs).sorted = ps ++ p :: rest)
    {a b : Str × Status} (ha : StopsAt w ps p rest a) (hb : StopsAt w ps p rest b)
    (hab : a.1 = b.1) (hc : a.2.Collected) : b.2.Unhandled := by
  rcases hb with ⟨hq, _⟩ | ⟨_, hst⟩ | ⟨_, hst⟩
  · rcases ha with ⟨_, _, hst⟩ | ⟨hap, _⟩ | ⟨hqr, _⟩
    · rw [hst] at hc
      simp [Status.Collected] at hc
    · rw [← hab, hap] at hq
      exact absurd (List.mem_cons_self ..) (notMem_of_before hsplit hq)
    · exact absurd (List.mem_cons_of_mem p hqr) (notMem_of_before hsplit (hab ▸ hq))
  · exact .inr (.inl hst)
  · exact .inl hst

/-- Accepted requests before the first to fail have no line. -/
theorem statusExact_stopsAt (hn : NamesOk w pkgs) {status : List (Str × Status)}
    (hsplit : (resolve o w pkgs).sorted = ps ++ p :: rest)
    (hps : ∀ q ∈ ps, ¬ Fails o w (requested o w pkgs) q)
    (hnoline : ∀ a, a ∉ (resolve o w pkgs).status)
    (hmem : ∀ a, a ∈ status ↔ StopsAt w ps p rest a) :
    StatusExact w pkgs status ↔ ∀ q ∈ ps, ¬ Accepted o w (requested o w pkgs) q := by
  have hasked : ∀ a ∈ status, Asked w pkgs a.1 := fun a ha =>
    asked_of_requested (((hmem a).mp ha).requested hsplit)
  rw [statusExact_iff hn hasked]
  constructor
  · intro h q hq hacc
    obtain ⟨pn, hpn, hnpn⟩ :=
      (resolved o w pkgs).found q ((mem_requested_iff hsplit q).mpr (.inl hq))
    obtain ⟨st, hline⟩ := h.1 pn hpn
    rw [World.nameOf, hnpn, Option.getD_some] at hline
    rcases (hmem _).mp hline with ⟨_, hbr, _⟩ | ⟨hqp, _⟩ | ⟨hqr, _⟩
    · exact hbr.not_walkable hacc.1
    · exact notMem_of_before hsplit hq (hqp ▸ List.mem_cons_self ..)
    · exact notMem_of_before hsplit hq (List.mem_cons_of_mem p hqr)
  · intro h
    refine ⟨fun pn hpn => ?_, fun a ha b hb =>
      ((hmem a).mp ha).unhandled hsplit ((hmem b).mp hb)⟩
    rcases hn.covered (o := o) hpn with hq | ⟨st, hline⟩
    · rcases (mem_requested_iff hsplit _).mp hq with hq' | hq' | hq'
      · rcases verdict o w (requested o w pkgs) (w.nameOf pn) with hf | hbr | hacc
        · exact absurd hf (hps _ hq')
        · exact ⟨.broken, (hmem _).mpr (.inl ⟨hq', hbr, rfl⟩)⟩
        · exact absurd hacc (h _ hq')
      · exact ⟨.parse, (hmem _).mpr (.inr (.inl ⟨hq', rfl⟩))⟩
      · exact ⟨.skipped, (hmem _).mpr (.inr (.inr ⟨hq', rfl⟩))⟩
    · exact absurd hline (hnoline _)

/-- No request before the first to fail is accepted if a failure precedes each that is. -/
theorem failure_before_iff (hsplit : (resolve o w pkgs).sorted = ps ++ p :: rest)
    (hlive : (resolve o w pkgs).failed = false ∧ ¬ BaseFails o w ∧
      ∀ q ∈ ps, ¬ Fails o w (requested o w pkgs) q)
    (hp : Fails o w (requested o w pkgs) p) :
    (∀ q ∈ ps, ¬ Accepted o w (requested o w pkgs) q) ↔
      ∀ q ∈ requested o w pkgs, Accepted o w (requested o w pkgs) q → Failure o w pkgs (· < q) := by
  obtain ⟨hset, hB, hps⟩ := hlive
  constructor
  · intro h q hqR hacc
    rcases (mem_requested_iff hsplit q).mp hqR with hq | hq | hq
    · exact absurd hacc (h q hq)
    · exact absurd (hq ▸ hacc) hp.not_accepted
    · have hlt : p < q := by
        obtain ⟨front, back, hfront⟩ := List.append_of_mem hq
        have hsplit' : (resolve o w pkgs).sorted = (ps ++ p :: front) ++ q :: back := by
          rw [hsplit, hfront]
          simp
        exact ((mem_prefix_iff hsplit' p).mp (by simp)).2
      exact .inr (.inr ⟨p, (mem_requested_iff hsplit p).mpr (.inr (.inl rfl)), hlt, hp⟩)
  · intro h q hq hacc
    rcases h q ((mem_requested_iff hsplit q).mpr (.inl hq)) hacc with hname | hBF | ⟨q', hq'R, hlt, hf⟩
    · rw [← resolve_failed_iff, hset] at hname
      exact Bool.false_ne_true hname
    · exact hB hBF
    · have hbefore : q' ∈ ps :=
        (mem_prefix_iff hsplit q').mpr ⟨hq'R, hlt.trans ((mem_prefix_iff hsplit q).mp hq).2⟩
      exact hps q' hbefore hf

end StopsAt

/-- A run that stops before the third loop loses the lines of what it had accepted. -/
theorem statusExact_stop (hn : NamesOk w pkgs) (hcont : o.bulkcont = false) {base : Tmpl}
    (hbase : w.depTemplate baseCbuild = .ok base) (hesc : ¬ Escapes o w (resolve o w pkgs))
    (hno : ¬ NoFailure o w (resolve o w pkgs)) :
    StatusExact w pkgs (parseAll o w (resolve o w pkgs) base).status ↔
      ∀ p ∈ requested o w pkgs, Accepted o w (requested o w pkgs) p →
        Failure o w pkgs (· < p) := by
  obtain ⟨hstop, _⟩ := parseAll_stop hcont hbase hesc hno
  cases hstop with
  | before h hb =>
      have hearly : NameFails o w pkgs ∨ BaseFails o w := by rwa [← resolve_failed_iff]
      refine ⟨fun _ p _ _ => hearly.imp_right .inl, fun _ => statusExact_skipped (o := o) hn fun a => ?_⟩
      rw [hb, List.mem_append, List.mem_map]
      constructor
      · intro ha
        rcases ha with ha | ⟨q, hq, rfl⟩
        · exact .inl ha
        · exact .inr ⟨(mem_sorted (resolve o w pkgs) q).mp hq, rfl⟩
      · intro ha
        rcases ha with ha | ⟨hq, hst⟩
        · exact .inl ha
        · exact .inr ⟨a.1, (mem_sorted (resolve o w pkgs) a.1).mpr hq, Prod.ext rfl hst.symm⟩
  | first ps p rest hsplit hlive hp s s' hs hverdict _ hb =>
      obtain ⟨hset, hB, hps⟩ := hlive.resolve_left (by simp [hcont])
      have hnoline : ∀ a, a ∉ (resolve o w pkgs).status := by
        intro a ha
        have hfailed : (resolve o w pkgs).failed = true := by
          rcases (resolved o w pkgs).lines a ha with ⟨_, hbad⟩ | ⟨_, _, _, hf, _⟩
          · exact (resolved o w pkgs).failed_iff.mpr ⟨a.1, hbad⟩
          · exact hf
        rw [hset] at hfailed
        contradiction
      have hstatus' : s'.status = s.status ++ [(p, .parse)] := by
        cases hverdict with
        | fails _ _ h _ => exact h
        | broken hbr _ _ _ => exact absurd hp hbr.not_fails
        | accepted hacc _ _ _ _ _ => exact absurd hacc hp.not_accepted
      rw [← failure_before_iff hsplit ⟨hset, hB, hps⟩ hp]
      refine statusExact_stopsAt hn hsplit hps hnoline fun a => ?_
      have htold := told_of_live hesc hsplit hlive
      have hold := mem_status_upTo hbase ps (p :: rest) hsplit hlive htold a
      rw [← hs] at hold
      rw [hb, hstatus', List.mem_append, List.mem_append, List.mem_singleton, hold, List.mem_map]
      constructor
      · intro ha
        rcases ha with ((ha | ⟨hq, ⟨hf, _⟩ | hbr⟩) | rfl) | ⟨q, hq, rfl⟩
        · exact absurd ha (hnoline a)
        · exact absurd hf (hps a.1 hq)
        · exact .inl ⟨hq, hbr⟩
        · exact .inr (.inl ⟨rfl, rfl⟩)
        · exact .inr (.inr ⟨hq, rfl⟩)
      · intro ha
        rcases ha with ⟨hq, hbr⟩ | ⟨hap, hst⟩ | ⟨hq, hst⟩
        · exact .inl (.inl (.inr ⟨hq, .inr hbr⟩))
        · exact .inl (.inr (Prod.ext hap hst))
        · exact .inr ⟨a.1, hq, Prod.ext rfl hst.symm⟩

/-! ## A run that gets to its end -/

open Classical in
/-- The requests of a raw run that are built, as often as they are requested. -/
noncomputable def rawList (o : Opts) (w : World) (pkgs : List Str) : List Str :=
  pkgs.filter fun p => p ∈ requested o w pkgs ∧ Accepted o w (requested o w pkgs) p

/-- No template is built with success one time and without it another time. -/
def BuildsAgree (o : Opts) (w : World) (l : List Str) : Prop :=
  ∀ a ∈ buildLines o w false l, ∀ b ∈ buildLines o w false l, a.1 = b.1 → a.2 = .ok → b.2 = .ok

section Finish

variable {base : Tmpl} (hbase : w.depTemplate baseCbuild = .ok base)
  (hesc : ¬ Escapes o w (resolve o w pkgs))
  (hgo : o.bulkcont = true ∨ NoFailure o w (resolve o w pkgs))
include hbase hesc hgo

/-- What has been recorded, looked up. -/
theorem lookup_templates_iff (q : Str) :
    ((parseAll o w (resolve o w pkgs) base).templates.lookup q).isSome = true ↔
      q ∈ requested o w pkgs ∧ Accepted o w (requested o w pkgs) q := by
  simp only [lookup_isSome_iff, (parsed_all hbase hesc hgo).templates, mem_sorted]
  constructor
  · intro h
    obtain ⟨t, hq, hacc, _⟩ := h
    exact ⟨hq, hacc⟩
  · intro h
    obtain ⟨t, ht, _⟩ := h.2.1
    exact ⟨t, h.1, h.2, ht⟩

theorem mem_flist_finish (hv : o.doBuild ≠ .print true) (l : List Str) (q : Str) :
    q ∈ (listing o w (parseAll o w (resolve o w pkgs) base) l).flist ↔
      q ∈ l ∧ (q ∈ requested o w pkgs ∧ Accepted o w (requested o w pkgs) q) ∧
        ¬ (o.force = false ∧ w.isBuilt q = true) := by
  rw [mem_flist hv, lookup_templates_iff hbase hesc hgo]
  exact and_iff_right ((proceeds_iff hbase hesc).mpr hgo)

/-- The lines of a run, with those of the build loop set apart. -/
theorem mem_status_listing (l : List Str) (a : Str × Status) :
    a ∈ (listing o w (parseAll o w (resolve o w pkgs) base) l).status ↔
      Unresolved w a.1 a.2 ∧ a ∈ (resolve o w pkgs).status ∨
      (a.1 ∈ requested o w pkgs ∧ ((Fails o w (requested o w pkgs) a.1 ∧ a.2 = .parse) ∨
        (Broken w a.1 ∧ a.2 = .broken))) ∨
      (a.1 ∈ l ∧ (a.1 ∈ requested o w pkgs ∧ Accepted o w (requested o w pkgs) a.1) ∧
        (o.force = false ∧ w.isBuilt a.1 = true) ∧ a.2 = .done) := by
  have hsplit : (resolve o w pkgs).sorted = (resolve o w pkgs).sorted ++ [] :=
    (List.append_nil _).symm
  have hlive := live_sorted hgo
  have hparse := mem_status_upTo hbase _ [] hsplit hlive (told_of_live hesc hsplit hlive) a
  have hr : a ∈ (resolve o w pkgs).status ↔
      Unresolved w a.1 a.2 ∧ a ∈ (resolve o w pkgs).status := by
    refine ⟨fun ha => ⟨?_, ha⟩, fun ha => ha.2⟩
    rcases (resolved o w pkgs).lines a ha with ⟨hu, _⟩ | ⟨_, _, _, hset, hcont⟩
    · exact hu
    · rcases hgo with hc | hno
      · rw [hcont] at hc
        contradiction
      · rw [hno.resolved] at hset
        contradiction
  have hdone : a ∈ (l.filter (isDone o w
      (parseAll o w (resolve o w pkgs) base).templates)).map (fun pn => (pn, Status.done)) ↔
      a.1 ∈ l ∧ (a.1 ∈ requested o w pkgs ∧ Accepted o w (requested o w pkgs) a.1) ∧
        (o.force = false ∧ w.isBuilt a.1 = true) ∧ a.2 = .done := by
    simp only [List.mem_map, List.mem_filter, isDone_iff, lookup_templates_iff hbase hesc hgo]
    constructor
    · intro h
      obtain ⟨q, ⟨hq, hacc, hb⟩, rfl⟩ := h
      exact ⟨hq, hacc, hb, rfl⟩
    · intro h
      obtain ⟨hq, hacc, hb, hst⟩ := h
      exact ⟨a.1, ⟨hq, hacc, hb⟩, Prod.ext rfl hst.symm⟩
  rw [listing_eq ((proceeds_iff hbase hesc).mpr hgo), List.mem_append, hdone]
  rw [hr] at hparse
  simp only [Lines, mem_sorted] at hparse
  rw [parseAll, hparse, or_assoc]
  rfl

/-- In a raw run where nothing accepted is built, the list is the requests as they come. -/
theorem flist_raw (hbuild : o.doBuild = .build)
    (hnb : ∀ p ∈ requested o w pkgs, Accepted o w (requested o w pkgs) p →
      ¬ (o.force = false ∧ w.isBuilt p = true)) :
    (listing o w (parseAll o w (resolve o w pkgs) base) pkgs).flist = rawList o w pkgs := by
  have hv : o.doBuild ≠ .print true := by
    rw [hbuild]
    exact DoBuild.noConfusion
  rw [listing_eq ((proceeds_iff hbase hesc).mpr hgo)]
  change pkgs.filterMap (listed o w _) = _
  rw [filterMap_listed hv, rawList]
  refine List.filter_congr fun p _ => ?_
  have hiff : (listed o w (parseAll o w (resolve o w pkgs) base).templates p).isSome = true ↔
      p ∈ requested o w pkgs ∧ Accepted o w (requested o w pkgs) p := by
    rw [Option.isSome_iff_exists]
    simp only [listed_eq_some_iff hv, lookup_templates_iff hbase hesc hgo]
    constructor
    · intro h
      obtain ⟨_, _, hacc, _⟩ := h
      exact hacc
    · intro h
      exact ⟨p, rfl, h, hnb p h.1 h.2⟩
  classical
  rw [Bool.eq_iff_iff, hiff]
  exact decide_eq_true_iff.symm

/-- The build loop writes what it would write with the flag cleared. -/
theorem buildLines_eq (l : List Str) :
    buildLines o w (parseAll o w (resolve o w pkgs) base).failed l = buildLines o w false l := by
  have hf : (parseAll o w (resolve o w pkgs) base).failed = false ∨ o.bulkcont = true :=
    (proceeds_iff hbase hesc).mpr hgo
  have h := foldl_buildStep_status (o := o) (w := w) l
    ⟨[], (parseAll o w (resolve o w pkgs) base).failed, []⟩ ⟨[], false, []⟩
    (List.append_nil _).symm rfl hf
  rwa [List.nil_append] at h

/-- The lines of the build loop are about accepted requests that are not built yet. -/
theorem mem_lines {l : List Str} {lines : List (Str × Status)}
    (hmap : lines.map Prod.fst = if o.doBuild = .build then
      (listing o w (parseAll o w (resolve o w pkgs) base) l).flist else [])
    {a : Str × Status} (ha : a ∈ lines) : o.doBuild = .build ∧ a.1 ∈ l ∧
      (a.1 ∈ requested o w pkgs ∧ Accepted o w (requested o w pkgs) a.1) ∧
        ¬ (o.force = false ∧ w.isBuilt a.1 = true) := by
  have hfst : a.1 ∈ lines.map Prod.fst := List.mem_map_of_mem ha
  by_cases hb : o.doBuild = .build
  · have hv : o.doBuild ≠ .print true := by
      rw [hb]
      exact DoBuild.noConfusion
    rw [hmap, if_pos hb, mem_flist_finish hbase hesc hgo hv] at hfst
    exact ⟨hb, hfst⟩
  · rw [hmap, if_neg hb] at hfst
    contradiction

/-- What keeps a run that gets to its end from reporting as it should: accepted requests that
are built already, that are only listed, or that are not on the list, and builds of one
template that end differently. -/
structure EndSafe (o : Opts) (w : World) (pkgs : List Str) : Prop where
  accepted : ∀ p ∈ requested o w pkgs, Accepted o w (requested o w pkgs) p →
    o.doBuild = .build ∧ ¬ (o.force = false ∧ w.isBuilt p = true) ∧ (o.doRaw = true → p ∈ pkgs)
  agree : o.doRaw = true → BuildsAgree o w (rawList o w pkgs)

/-- A line of a run that gets to its end; `lines` are those of the build loop. -/
def EndLine (o : Opts) (w : World) (pkgs l : List Str) (lines : List (Str × Status))
    (a : Str × Status) : Prop :=
  (Unresolved w a.1 a.2 ∧ a ∈ (resolve o w pkgs).status ∨
    (a.1 ∈ requested o w pkgs ∧ ((Fails o w (requested o w pkgs) a.1 ∧ a.2 = .parse) ∨
      (Broken w a.1 ∧ a.2 = .broken))) ∨
    (a.1 ∈ l ∧ (a.1 ∈ requested o w pkgs ∧ Accepted o w (requested o w pkgs) a.1) ∧
      (o.force = false ∧ w.isBuilt a.1 = true) ∧ a.2 = .done)) ∨ a ∈ lines

/-- What the build loop writes. -/
structure Loop (o : Opts) (w : World) (pkgs : List Str) (base : Tmpl) (l : List Str)
    (lines : List (Str × Status)) : Prop where
  built : o.doBuild = .build → lines =
    buildLines o w false (listing o w (parseAll o w (resolve o w pkgs) base) l).flist
  names : lines.map Prod.fst = if o.doBuild = .build then
    (listing o w (parseAll o w (resolve o w pkgs) base) l).flist else []
  words : ∀ a ∈ lines, a.2 = .ok ∨ a.2 = .failed ∨ a.2 = .skipped

theorem finish_loop (l : List Str) : ∃ lines, Loop o w pkgs base l lines ∧
    ∀ a, a ∈ (finish o w (parseAll o w (resolve o w pkgs) base) l).status ↔
      EndLine o w pkgs l lines a := by
  obtain ⟨lines, hstatus, hlines, hmap, hwords, _⟩ :=
    finish_lines o w (parseAll o w (resolve o w pkgs) base) l
  refine ⟨lines, ⟨fun hbuild => ?_, hmap, hwords⟩, fun a => ?_⟩
  · rw [hlines ((proceeds_iff hbase hesc).mpr hgo) hbuild, buildLines_eq hbase hesc hgo]
  · rw [hstatus, List.mem_append, mem_status_listing hbase hesc hgo]
    rfl

section Loop

variable {l : List Str} {lines : List (Str × Status)} (h : Loop o w pkgs base l lines)
include h

/-- In a raw run where nothing accepted is built, every request of the list is built. -/
theorem Loop.eq_raw (hbuild : o.doBuild = .build) (hraw : l = pkgs)
    (hnb : ∀ p ∈ requested o w pkgs, Accepted o w (requested o w pkgs) p →
      ¬ (o.force = false ∧ w.isBuilt p = true)) :
    lines = buildLines o w false (rawList o w pkgs) := by
  rw [h.built hbuild, hraw, flist_raw hbase hesc hgo hbuild hnb]

theorem Loop.mem_of_accepted (hbuild : o.doBuild = .build) {p : Str} (hl : p ∈ l)
    (hacc : p ∈ requested o w pkgs ∧ Accepted o w (requested o w pkgs) p)
    (hnb : ¬ (o.force = false ∧ w.isBuilt p = true)) : ∃ st, (p, st) ∈ lines := by
  have hv : o.doBuild ≠ .print true := by
    rw [hbuild]
    exact DoBuild.noConfusion
  have hmem : p ∈ lines.map Prod.fst := by
    rw [h.names, if_pos hbuild, mem_flist_finish hbase hesc hgo hv]
    exact ⟨hl, hacc, hnb⟩
  obtain ⟨a, ha, rfl⟩ := List.mem_map.mp hmem
  exact ⟨a.2, ha⟩

/-- A template that is listed once is built once. -/
theorem Loop.eq_of_nodup (hbuild : o.doBuild = .build) (hnd : l.Nodup) {a b : Str × Status}
    (ha : a ∈ lines) (hb : b ∈ lines) (hab : a.1 = b.1) : a = b := by
  have hv : o.doBuild ≠ .print true := by
    rw [hbuild]
    exact DoBuild.noConfusion
  have hnd' : (lines.map Prod.fst).Nodup := by
    rw [h.names, if_pos hbuild, listing_eq ((proceeds_iff hbase hesc).mpr hgo)]
    change (l.filterMap (listed o w _)).Nodup
    rw [filterMap_listed hv]
    exact hnd.filter _
  exact List.inj_on_of_nodup_map hnd' ha hb hab

theorem EndLine.asked {a : Str × Status} (ha : EndLine o w pkgs l lines a) : Asked w pkgs a.1 := by
  rcases ha with (⟨_, ha⟩ | ⟨hR, _⟩ | ⟨_, ⟨hR, _⟩, _⟩) | ha
  · exact asked_of_line ha
  · exact asked_of_requested hR
  · exact asked_of_requested hR
  · exact asked_of_requested (mem_lines hbase hesc hgo h.names ha).2.2.1.1

/-- A run whose status file is right has built what it has accepted. -/
theorem accepted_of_lines (hn : NamesOk w pkgs) (hraw : o.doRaw = true → l = pkgs)
    (hrep : ∀ pn ∈ pkgs, ∃ st, EndLine o w pkgs l lines (w.nameOf pn, st))
    (hun : ∀ a, EndLine o w pkgs l lines a → a.2.Collected → a.2.Unhandled) {p : Str}
    (hR : p ∈ requested o w pkgs) (hacc : Accepted o w (requested o w pkgs) p) :
    o.doBuild = .build ∧ ¬ (o.force = false ∧ w.isBuilt p = true) ∧
      (o.doRaw = true → p ∈ pkgs) := by
  obtain ⟨pn, hpn, hnpn⟩ := (resolved o w pkgs).found p hR
  obtain ⟨st, hst⟩ := hrep pn hpn
  rw [World.nameOf, hnpn, Option.getD_some] at hst
  rcases hst with (⟨hu, _⟩ | ⟨_, ⟨hf, _⟩ | ⟨hbr, _⟩⟩ | hdone) | hst
  · exact absurd hR (hn.notMem_of_unresolved hu)
  · exact absurd hacc hf.not_accepted
  · exact absurd hacc.1 hbr.not_walkable
  · -- a line that says `done` is collected
    have hbad := hun (p, st) (.inl (.inr (.inr hdone))) (.inr (.inr (.inr hdone.2.2.2)))
    rw [hdone.2.2.2] at hbad
    simp [Status.Unhandled] at hbad
  · obtain ⟨hb, hpl, _, hnb⟩ := mem_lines hbase hesc hgo h.names hst
    exact ⟨hb, hnb, fun hr => hraw hr ▸ hpl⟩

theorem endSafe_of_lines (hn : NamesOk w pkgs) (hraw : o.doRaw = true → l = pkgs)
    (hrep : ∀ pn ∈ pkgs, ∃ st, EndLine o w pkgs l lines (w.nameOf pn, st))
    (hun : ∀ a, EndLine o w pkgs l lines a → ∀ b, EndLine o w pkgs l lines b → a.1 = b.1 →
      a.2.Collected → b.2.Unhandled) : EndSafe o w pkgs := by
  have hacc := fun p hR => accepted_of_lines hbase hesc hgo h hn hraw hrep
    (fun a ha => hun a ha a ha rfl) (p := p) hR
  refine ⟨hacc, fun hr a ha b hb hab hok => ?_⟩
  by_cases hbuild : o.doBuild = .build
  · rw [← h.eq_raw hbase hesc hgo hbuild (hraw hr) fun p hR hp => (hacc p hR hp).2.1] at ha hb
    have hbad : ¬ b.2.Collected := by
      intro hc
      have hbad := hun b (.inr hb) a (.inr ha) hab.symm hc
      rw [hok] at hbad
      simp [Status.Unhandled] at hbad
    rcases h.words b hb with hst | hst | hst
    · exact hst
    · exact absurd (.inr (.inr (.inl hst))) hbad
    · exact absurd (.inl hst) hbad
  · -- nothing is accepted, so nothing is built
    have hnil : rawList o w pkgs = [] := by
      refine List.filter_eq_nil_iff.mpr fun p _ hp => ?_
      classical
      obtain ⟨hR, hp⟩ := decide_eq_true_iff.mp hp
      exact hbuild (hacc p hR hp).1
    rw [hnil] at ha
    contradiction

theorem lines_report (hn : NamesOk w pkgs) (hsafe : EndSafe o w pkgs)
    (hraw : o.doRaw = true → l = pkgs)
    (hsort : o.doRaw = false → ∀ p ∈ requested o w pkgs,
      Accepted o w (requested o w pkgs) p → p ∈ l) {pn : Str} (hpn : pn ∈ pkgs) :
    ∃ st, EndLine o w pkgs l lines (w.nameOf pn, st) := by
  rcases hn.covered (o := o) hpn with hR | ⟨st, hst⟩
  · rcases verdict o w (requested o w pkgs) (w.nameOf pn) with hf | hbr | hacc
    · exact ⟨.parse, .inl (.inr (.inl ⟨hR, .inl ⟨hf, rfl⟩⟩))⟩
    · exact ⟨.broken, .inl (.inr (.inl ⟨hR, .inr ⟨hbr, rfl⟩⟩))⟩
    · obtain ⟨hbuild, hnb, hlit⟩ := hsafe.accepted _ hR hacc
      have hl : w.nameOf pn ∈ l := by
        cases hr : o.doRaw with
        | true =>
            rw [hraw hr]
            exact hlit hr
        | false => exact hsort hr _ hR hacc
      obtain ⟨st, hst⟩ := h.mem_of_accepted hbase hesc hgo hbuild hl ⟨hR, hacc⟩ hnb
      exact ⟨st, .inr hst⟩
  · have hmem := (resolved o w pkgs).lines _ hst
    rcases hmem with ⟨hu, _⟩ | ⟨_, _, _, hset, hcont⟩
    · exact ⟨st, .inl (.inl ⟨hu, hst⟩)⟩
    · rcases hgo with hc | hno
      · rw [hcont] at hc
        contradiction
      · rw [hno.resolved] at hset
        contradiction

/-- Two builds of one template end alike. -/
theorem lines_agree (hsafe : EndSafe o w pkgs) (hbuild : o.doBuild = .build)
    (hraw : o.doRaw = true → l = pkgs) (hsort : o.doRaw = false → l.Nodup) {a b : Str × Status}
    (ha : a ∈ lines) (hb : b ∈ lines) (hab : a.1 = b.1) (hst : b.2 = .ok) : a.2 = .ok := by
  cases hr : o.doRaw with
  | true =>
      rw [h.eq_raw hbase hesc hgo hbuild (hraw hr)
        fun p hp hq => (hsafe.accepted p hp hq).2.1] at ha hb
      exact hsafe.agree hr b hb a ha hab.symm hst
  | false => rwa [h.eq_of_nodup hbase hesc hgo hbuild (hsort hr) ha hb hab]

theorem lines_unhandled (hn : NamesOk w pkgs) (hsafe : EndSafe o w pkgs)
    (hraw : o.doRaw = true → l = pkgs) (hsort : o.doRaw = false → l.Nodup) {a b : Str × Status}
    (ha : EndLine o w pkgs l lines a) (hb : EndLine o w pkgs l lines b) (hab : a.1 = b.1)
    (hc : a.2.Collected) : b.2.Unhandled := by
  have hnodone : ∀ {a : Str × Status}, Accepted o w (requested o w pkgs) a.1 →
      a.1 ∈ requested o w pkgs → ¬ (o.force = false ∧ w.isBuilt a.1 = true) :=
    fun hacc hR => (hsafe.accepted _ hR hacc).2.1
  rcases ha with (⟨hu, _⟩ | ⟨hR, ⟨hf, _⟩ | ⟨_, hst⟩⟩ | ⟨_, ⟨hR, hacc⟩, hd, _⟩) | ha
  · rcases hu.word with hw | hw
    · rw [hw] at hc
      simp [Status.Collected] at hc
    · rw [hw] at hc
      simp [Status.Collected] at hc
  · rcases hb with (⟨hu, _⟩ | ⟨_, ⟨_, hst⟩ | ⟨hbr, _⟩⟩ | ⟨_, ⟨_, hacc⟩, _⟩) | hb
    · exact absurd (hab ▸ hR) (hn.notMem_of_unresolved hu)
    · exact .inr (.inl hst)
    · exact absurd (hab ▸ hf) hbr.not_fails
    · exact absurd (hab ▸ hacc) hf.not_accepted
    · exact absurd (hab ▸ (mem_lines hbase hesc hgo h.names hb).2.2.1.2) hf.not_accepted
  · rw [hst] at hc
    simp [Status.Collected] at hc
  · exact absurd hd (hnodone hacc hR)
  · obtain ⟨hbuild, _, ⟨hR, hacc⟩, _⟩ := mem_lines hbase hesc hgo h.names ha
    rcases hb with (⟨hu, _⟩ | ⟨_, ⟨hf, _⟩ | ⟨hbr, _⟩⟩ | ⟨_, ⟨hRb, haccb⟩, hd, _⟩) | hb
    · exact absurd (hab ▸ hR) (hn.notMem_of_unresolved hu)
    · exact absurd (hab ▸ hacc) hf.not_accepted
    · exact absurd (hab ▸ hacc).1 hbr.not_walkable
    · exact absurd hd (hnodone haccb hRb)
    · rcases h.words b hb with hst | hst | hst
      · rw [lines_agree hbase hesc hgo h hsafe hbuild hraw hsort ha hb hab hst] at hc
        simp [Status.Collected] at hc
      · exact .inr (.inr hst)
      · exact .inl hst

end Loop

theorem statusExact_finish (hn : NamesOk w pkgs) (l : List Str)
    (hraw : o.doRaw = true → l = pkgs)
    (hsort : o.doRaw = false → l.Nodup ∧ ∀ p ∈ requested o w pkgs,
      Accepted o w (requested o w pkgs) p → p ∈ l) :
    StatusExact w pkgs (finish o w (parseAll o w (resolve o w pkgs) base) l).status ↔
      EndSafe o w pkgs := by
  obtain ⟨lines, hloop, hmem⟩ := finish_loop hbase hesc hgo l
  rw [statusExact_iff hn fun a ha => ((hmem a).mp ha).asked hbase hesc hgo hloop]
  simp only [hmem]
  constructor
  · intro h
    exact endSafe_of_lines hbase hesc hgo hloop hn hraw h.1 h.2
  · intro h
    refine ⟨fun pn hpn => ?_, fun a ha b hb => ?_⟩
    · exact lines_report hbase hesc hgo hloop hn h hraw (fun hr => (hsort hr).2) hpn
    · exact lines_unhandled hbase hesc hgo hloop hn h hraw (fun hr => (hsort hr).1) ha hb

end Finish

/-! ## Any run -/

/-- A status file says what it should exactly when a run that stops has accepted nothing
before the failure, and a run that does not stop meets `EndSafe`. -/
structure StatusSafe (o : Opts) (w : World) (pkgs : List Str) : Prop where
  stops : o.bulkcont = false → Failure o w pkgs (fun _ => True) →
    ∀ p ∈ requested o w pkgs, Accepted o w (requested o w pkgs) p → Failure o w pkgs (· < p)
  ends : o.bulkcont = true ∨ ¬ Failure o w pkgs (fun _ => True) → EndSafe o w pkgs

theorem finish_status_of_stop {b : Parsing} (hstop : ¬ Proceeds o b) (l : List Str) :
    (finish o w b l).status = b.status := by
  have hbuilding : building o w b (listing o w b l) =
      ⟨(listing o w b l).status, b.failed, []⟩ := if_neg (fun h => hstop h.1)
  change (building o w _ _).status = _
  rw [hbuilding, listing_stop hstop]

theorem statusExact_finish_iff (hn : NamesOk w pkgs) {base : Tmpl}
    (hbase : w.depTemplate baseCbuild = .ok base) (hesc : ¬ Escapes o w (resolve o w pkgs))
    (l : List Str) (hraw : o.doRaw = true → l = pkgs)
    (hsort : o.doRaw = false → (o.bulkcont = true ∨ NoFailure o w (resolve o w pkgs)) →
      StaticOrder (orderGraph o w pkgs) l) :
    StatusExact w pkgs (finish o w (parseAll o w (resolve o w pkgs) base) l).status ↔
      StatusSafe o w pkgs := by
  by_cases hgo : o.bulkcont = true ∨ NoFailure o w (resolve o w pkgs)
  · have htold := mt (leaves_iff o w pkgs).mp hesc
    rw [statusExact_finish hbase hesc hgo hn l hraw fun hr =>
      ⟨(hsort hr hgo).nodup, fun p hR hacc =>
        accepted_mem_order hr hbase htold hgo (hsort hr hgo) hR hacc⟩]
    have hgo' := hgo.imp_right (noFailure_iff o w pkgs).mp
    constructor
    · intro h
      refine ⟨fun hcont hfail => ?_, fun _ => h⟩
      rcases hgo' with hc | hno
      · rw [hcont] at hc
        contradiction
      · exact absurd hfail hno
    · intro h
      exact h.ends hgo'
  · obtain ⟨hcont, hno⟩ := not_or.mp hgo
    have hcont' : o.bulkcont = false := Bool.eq_false_iff.mpr hcont
    have hfail : Failure o w pkgs (fun _ => True) :=
      not_not.mp (fun hnf => hno ((noFailure_iff o w pkgs).mpr hnf))
    rw [finish_status_of_stop (fun hp => hgo ((proceeds_iff hbase hesc).mp hp)),
      statusExact_stop hn hcont' hbase hesc hno]
    constructor
    · intro h
      refine ⟨fun _ _ => h, fun hor => ?_⟩
      rcases hor with hc | hnf
      · exact absurd hc hcont
      · exact absurd hfail hnf
    · intro h
      exact h.stops hcont' hfail

theorem statusExact_bulkpkg_iff {ordl : Option (List Str)} (hn : NamesOk w pkgs)
    (hordl : o.doRaw = false → SorterYields (orderGraph o w pkgs) ordl)
    (hend : (bulkpkg o w pkgs ordl).ending = .bulkFailed ∨
      ∃ unstaged, (bulkpkg o w pkgs ordl).ending = .returned unstaged) :
    StatusExact w pkgs (bulkpkg o w pkgs ordl).status ↔ StatusSafe o w pkgs := by
  have hcase := bulkpkg_cases o w pkgs ordl
  generalize hrun : bulkpkg o w pkgs ordl = run at hcase hend
  cases hcase with
  | baseError e he =>
      rcases hend with hend | ⟨u, hend⟩
      · contradiction
      · contradiction
  | escaped b hb _ =>
      rcases hend with hend | ⟨u, hend⟩
      · contradiction
      · contradiction
  | cycle b hb _ _ _ _ =>
      rcases hend with hend | ⟨u, hend⟩
      · contradiction
      · contradiction
  | raw base hbase hesc hraw =>
      refine statusExact_finish_iff hn hbase hesc pkgs (fun _ => rfl) (fun hr => ?_)
      rw [hraw] at hr
      contradiction
  | stopped base hbase hesc hraw hstop =>
      refine statusExact_finish_iff hn hbase hesc [] (fun hr => ?_) (fun _ hgo => ?_)
      · rw [hraw] at hr
        contradiction
      · exact absurd ((proceeds_iff hbase hesc).mpr hgo) hstop
  | sorted base hbase hesc hraw _ l hl =>
      refine statusExact_finish_iff hn hbase hesc l (fun hr => ?_) (fun hr _ => ?_)
      · rw [hraw] at hr
        contradiction
      · have hyields := hordl hr
        rw [hl] at hyields
        exact hyields

/-- `main/a` is built and `main/b`, whose dependency does not parse, is collected. -/
theorem statusExact_sharedDep : StatusExact sharedDep twoRequests
    (bulkpkg continuing sharedDep twoRequests
      (some [baseCbuild, "main/c".toList, "main/d".toList, "main/a".toList,
        "main/b".toList])).status := by
  have hsorted : (resolve continuing sharedDep twoRequests).sorted = twoRequests :=
    sorted_eq _ (by decide) (by decide)
  have hnames : NamesOk sharedDep twoRequests := by
    refine ⟨fun pn hpn => (isWord_iff _).mpr ?_, fun pn hpn n hn => ?_⟩
    · revert pn
      decide
    · revert n
      revert pn
      decide
  have hgraph : orderGraph continuing sharedDep twoRequests =
      ⟨[(baseCbuild, []), ("main/a".toList, [baseCbuild]), ("main/a".toList, ["main/c".toList]),
        ("main/c".toList, []), ("main/b".toList, [baseCbuild]),
        ("main/b".toList, ["main/c".toList, "main/d".toList])]⟩ := by
    simp only [orderGraph, parseAll, hsorted]
    decide
  refine (statusExact_bulkpkg_iff hnames (fun _ => ?_) (.inl ?_)).mpr
    ⟨fun hcont => Bool.noConfusion hcont, fun _ => ⟨fun p _ _ => ?_, fun hraw => ?_⟩⟩
  · rw [hgraph, SorterYields]
    decide
  · simp only [bulkpkg, parseAll, hsorted]
    decide
  · exact ⟨rfl, fun hb => Bool.noConfusion hb.2, fun hraw => Bool.noConfusion hraw⟩
  · exact Bool.noConfusion hraw

/-- A template that is already built. -/
def alreadyBuilt : World := { noDeps with isBuilt := fun _ => true }

/-- A template that is already built is reported as `done`, which the reader collects. -/
theorem alreadyBuilt_not_statusExact :
    (bulkpkg continuing alreadyBuilt ["main/a".toList]
      (some [baseCbuild, "main/a".toList])).ending = .returned true ∧
    ¬ StatusExact alreadyBuilt ["main/a".toList]
      (bulkpkg continuing alreadyBuilt ["main/a".toList]
        (some [baseCbuild, "main/a".toList])).status := by
  have hsorted : (resolve continuing alreadyBuilt ["main/a".toList]).sorted =
      ["main/a".toList] := sorted_eq _ (by decide) (by decide)
  have hrun : (bulkpkg continuing alreadyBuilt ["main/a".toList]
      (some [baseCbuild, "main/a".toList])).status = [("main/a".toList, .done)] ∧
      (bulkpkg continuing alreadyBuilt ["main/a".toList]
        (some [baseCbuild, "main/a".toList])).ending = .returned true := by
    simp only [bulkpkg, parseAll, hsorted]
    decide
  refine ⟨hrun.2, fun h => ?_⟩
  rw [hrun.1] at h
  have hmem : "main/a".toList ∈ collectStatus (statusText [("main/a".toList, .done)]) := by
    decide +kernel
  have hbad := h.unhandled ("main/a".toList, .done) (List.mem_singleton_self _) hmem
  simp [Status.Unhandled] at hbad

end Cbuild.Bulk
