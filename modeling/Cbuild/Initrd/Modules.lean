import Cbuild.Apk.Generate
import Cbuild.Hooks.FileModes
import Cbuild.Lib.Dict
import Cbuild.Lib.Fueled
import Cbuild.Lib.Postorder
import Cbuild.Template.Upgrade

/-! # The closure of modules

`scripts/resolve-modules.py` reads `modules.dep` and prints the paths of the modules that
are asked for, and of all they depend on, so that a module comes after its dependencies.
-/

namespace Cbuild.Modules

open Lib
open Apk (pyJoin)
open Bulk (pySplit)
open FileModes (parts)
open Upgrade (splitlines strip)

/-! ## Names -/

/-- `name.removesuffix(sfx)` -/
def removeSuffix (sfx name : Str) : Str :=
  if sfx.isSuffixOf name then name.take (name.length - sfx.length) else name

def ko : Str := ".ko".toList

/-- `name.replace("-", "_")` -/
def underscored (name : Str) : Str := name.map fun c => if c = '-' then '_' else c

def moduleName (path : Str) : Str :=
  let name := (parts path).getLastD []
  let name :=
    match [".zst".toList, ".xz".toList, ".gz".toList].find? (·.isSuffixOf name) with
    | some suffix => removeSuffix suffix name
    | none => name
  underscored (removeSuffix ko name)

def normalized (requested : Str) : Str := underscored (removeSuffix ko requested)

/-! ## The files -/

/-- A line with a colon, cut there. -/
def readLine (line : Str) : Option (Str × List Str) :=
  if ':' ∈ line then
    some (strip (line.takeWhile (· ≠ ':')), pySplit ((line.dropWhile (· ≠ ':')).drop 1))
  else none

def entries (text : Str) : List (Str × List Str) := (splitlines text).filterMap readLine

def dependencies (text : Str) : Dict Str (List Str) :=
  (entries text).foldl (fun d e => d.set e.1 e.2) []

def byName (text : Str) : Dict Str Str :=
  (entries text).foldl (fun d e => d.set (moduleName e.1) e.1) []

def builtins : Option Str → List Str
  | some text => (splitlines text).map fun line => moduleName (strip line)
  | none => []

/-! ## The search -/

inductive ParserError
  | usage
  | missing
  | absent (path : Str)
  | notFound (requested : Str)
  deriving DecidableEq

/-- `visited` and `ordered`. -/
abbrev State : Type := List Str × List Str

/-- `visit`. The fuel bounds the recursion. -/
def visit (dependencies : Dict Str (List Str)) : Nat → State → Str → Fueled ParserError State
  | 0, _, _ => Fueled.outOfFuel
  | n + 1, s, path =>
      if path ∈ s.1 then pure s
      else
        match dependencies.get path with
        | none => throw (.absent path)
        | some deps => do
            let s ← deps.foldlM (visit dependencies n) (path :: s.1, s.2)
            pure (s.1, s.2 ++ [path])

def request (text : Str) (builtin : Option Str) (s : State) (requested : Str) :
    Fueled ParserError State :=
  match (byName text).get (normalized requested) with
  | some path => visit (dependencies text) ((dependencies text).length + 1) s path
  | none => if normalized requested ∈ builtins builtin then pure s else throw (.notFound requested)

/-- What is printed. -/
def stdout (ordered : List Str) : Str := pyJoin ['\n'] ordered ++ ['\n']

/-- `main`, with the texts of `modules.dep` and `modules.builtin`, and the modules that
`argparse` gives it. -/
def main (dep builtin : Option Str) (modules : List Str) : Fueled ParserError Str :=
  match dep with
  | none => throw .missing
  | some text => do
      let s ← modules.foldlM (request text builtin) ([], [])
      pure (stdout s.2)

/-- The script, with its arguments after the directory: `argparse` wants one at least. -/
def script (dep builtin : Option Str) (args : List Str) : Fueled ParserError Str :=
  if args = [] then throw .usage else main dep builtin args

/-! ## The closure -/

/-- A module has a line of its own. -/
def Listed (text path : Str) : Prop := ∃ deps, (path, deps) ∈ entries text

def DependsOn (text path dep : Str) : Prop := ∃ deps, (path, deps) ∈ entries text ∧ dep ∈ deps

/-- No two lines are for one name. -/
def DistinctNames (text : Str) : Prop := ((entries text).map fun e => moduleName e.1).Nodup

def Found (text requested path : Str) : Prop :=
  Listed text path ∧ moduleName path = normalized requested

def Closure (text : Str) (modules : List Str) (x : Str) : Prop :=
  ∃ requested ∈ modules, ∃ path, Found text requested path ∧
    Relation.ReflTransGen (DependsOn text) path x

/-- A module is neither listed nor built in, or the path of a dependency is not listed. -/
def Unresolved (text : Str) (builtin : Option Str) (modules : List Str) : Prop :=
  (∃ requested ∈ modules, (∀ path, ¬Found text requested path) ∧
    normalized requested ∉ builtins builtin) ∨
  ∃ x, Closure text modules x ∧ ¬Listed text x

/-- The closure, each module once and after its dependencies. -/
structure Resolved (text : Str) (modules ordered : List Str) : Prop where
  nodup : ordered.Nodup
  mem_iff : ∀ x, x ∈ ordered ↔ Closure text modules x
  after : ∀ x ∈ ordered, ∀ y, DependsOn text x y → Precedes y x ordered

variable {text : Str}

theorem dependencies_get_iff (hnames : DistinctNames text) {path : Str} {deps : List Str} :
    (dependencies text).get path = some deps ↔ (path, deps) ∈ entries text := by
  have hpaths : ((entries text).map (·.1)).Nodup := by
    refine List.Nodup.of_map moduleName ?_
    rw [List.map_map]
    exact hnames
  rw [dependencies, Dict.get_foldl_set_eq_some hpaths]
  simp

theorem edge_iff (hnames : DistinctNames text) (path dep : Str) :
    Edge (dependencies text).get path dep ↔ DependsOn text path dep := by
  unfold Edge DependsOn
  simp only [dependencies_get_iff hnames]

theorem edge_eq (hnames : DistinctNames text) :
    Edge (dependencies text).get = DependsOn text := by
  funext path dep
  exact propext (edge_iff hnames path dep)

theorem listed_iff (hnames : DistinctNames text) (path : Str) :
    Listed text path ↔ ((dependencies text).get path).isSome = true := by
  rw [Option.isSome_iff_exists]
  simp only [dependencies_get_iff hnames]
  rfl

theorem found_iff (hnames : DistinctNames text) (requested path : Str) :
    Found text requested path ↔ (byName text).get (normalized requested) = some path := by
  rw [byName, Dict.get_foldl_set_eq_some hnames]
  simp only [Dict.get_nil, reduceCtorEq, and_false, or_false]
  constructor
  · intro h
    obtain ⟨⟨deps, hmem⟩, hname⟩ := h
    exact ⟨(path, deps), hmem, hname, rfl⟩
  · intro h
    obtain ⟨e, hmem, hname, rfl⟩ := h
    exact ⟨⟨e.2, hmem⟩, hname⟩

/-! ## The search, step by step -/

/-- What is left to visit. -/
def unvisited (g : Dict Str (List Str)) (visited : List Str) : List Str :=
  g.keys.filter (· ∉ visited)

theorem unvisited_cons {g : Dict Str (List Str)} {visited : List Str} {path : Str}
    (hkey : path ∈ g.keys) (hpath : path ∉ visited) :
    (unvisited g (path :: visited)).length < (unvisited g visited).length := by
  have hsplit : unvisited g (path :: visited) = (unvisited g visited).filter (· ≠ path) := by
    rw [unvisited, unvisited, List.filter_filter]
    refine List.filter_congr (fun x _ => ?_)
    simp
  rw [hsplit]
  refine List.length_filter_lt_length_iff_exists.mpr ⟨path, ?_, by simp⟩
  rw [unvisited, List.mem_filter]
  exact ⟨hkey, by simpa using hpath⟩

theorem unvisited_mono {g : Dict Str (List Str)} {visited visited' : List Str}
    (h : visited ⊆ visited') : (unvisited g visited').length ≤ (unvisited g visited).length := by
  refine List.Sublist.length_le ?_
  refine List.monotone_filter_right g.keys (fun x hx => ?_)
  rw [decide_eq_true_eq] at hx ⊢
  exact fun hmem => hx (h hmem)

/-- The path of a dependency that is not listed. -/
def AbsentFrom (g : Dict Str (List Str)) (path : Str) (e : ParserError) : Prop :=
  ∃ x, e = .absent x ∧ g.get x = none ∧ Relation.ReflTransGen (Edge g.get) path x

/-- The recursion stays within its fuel, as each level visits one more path. -/
theorem searches_visit {g : Dict Str (List Str)} (hacyclic : Acyclic (Edge g.get)) {n : Nat}
    {s : State} {path : Str} {stack : List Str} (hpost : Postorder g.get stack s.1 s.2)
    (hfuel : (unvisited g s.1).length < n)
    (hstack : ∀ t ∈ stack, Relation.TransGen (Edge g.get) t path) :
    Searches g.get stack s.2 (· = path) (AbsentFrom g path) (visit g n s path) := by
  induction n generalizing s path stack with
  | zero => omega
  | succ n ih =>
      unfold visit
      by_cases hvisited : path ∈ s.1
      · rw [if_pos hvisited]
        exact .of_searched (.skip hpost (hpost.listed hacyclic hstack hvisited))
      · rw [if_neg hvisited]
        cases hget : g.get path with
        | none => exact .of_raised ⟨path, rfl, hget, .refl⟩
        | some deps =>
            have hedge : ∀ y, y ∈ deps ↔ Edge g.get path y := by
              intro y
              simp [Edge, hget]
            have hkey : path ∈ g.keys := Dict.get_isSome_iff.mp (by rw [hget]; rfl)
            have henter := hpost.enter hvisited
            have hbelow : Searches g.get (path :: stack) s.2 (fun d => ∃ a ∈ deps, d = a)
                (fun e => ∃ a ∈ deps, AbsentFrom g a e)
                (deps.foldlM (visit g n) (path :: s.1, s.2)) := by
              refine Searches.foldlM (fun dep hdep s' hpost' hgrows => ?_) henter
                (List.Subset.refl _)
              refine ih hpost' ?_ ?_
              · have hless := unvisited_cons hkey hvisited
                have hmore : (unvisited g s'.1).length ≤ _ :=
                  unvisited_mono (henter.visited_subset hpost' hgrows)
                omega
              · have hlast := (hedge dep).mp hdep
                rw [List.forall_mem_cons]
                exact ⟨.single hlast, fun t ht => (hstack t ht).tail hlast⟩
            rcases hbelow with ⟨s', hs', hsearched⟩ | ⟨e, he, dep, hdep, x, rfl, hx, hreach⟩
            · refine Or.inl ⟨_, Fueled.bind_returns.mpr ⟨s', hs', Fueled.pure_returns.mpr rfl⟩, ?_⟩
              refine Searched.visit (hsearched.congr (fun y => ?_)) ?_ ?_
              · rw [← hedge]
                simp
              · exact fun hmem => hvisited ((hpost.visited_iff path).mpr (Or.inr hmem))
              · rw [hget]
                rfl
            · exact Or.inr ⟨_, Fueled.bind_raises.mpr (Or.inl he), x, rfl, hx,
                .head ((hedge dep).mp hdep) hreach⟩

/-- Why a request fails. -/
def Refused (text : Str) (builtin : Option Str) (requested : Str) (e : ParserError) : Prop :=
  (e = .notFound requested ∧ (∀ path, ¬Found text requested path) ∧
    normalized requested ∉ builtins builtin) ∨
  ∃ path, Found text requested path ∧ AbsentFrom (dependencies text) path e

theorem searches_request (hacyclic : Acyclic (DependsOn text)) (hnames : DistinctNames text)
    {builtin : Option Str} {s : State} {requested : Str}
    (hpost : Postorder (dependencies text).get [] s.1 s.2) :
    Searches (dependencies text).get [] s.2 (Found text requested)
      (Refused text builtin requested) (request text builtin s requested) := by
  unfold request
  cases hget : (byName text).get (normalized requested) with
  | some path =>
      have hfound : ∀ d, d = path ↔ Found text requested d := by
        intro d
        rw [found_iff hnames, hget, Option.some_inj]
        exact eq_comm
      rw [← edge_eq hnames] at hacyclic
      have hlength : (unvisited (dependencies text) s.1).length ≤ (dependencies text).length := by
        exact (List.length_filter_le _ _).trans (List.length_map _).le
      have hvisit : Searches (dependencies text).get [] s.2 (· = path)
          (AbsentFrom (dependencies text) path)
          (visit (dependencies text) ((dependencies text).length + 1) s path) :=
        searches_visit hacyclic hpost (Nat.lt_succ_of_le hlength)
          (fun t ht => absurd ht List.not_mem_nil)
      exact hvisit.imp hfound (fun e he => Or.inr ⟨path, (hfound path).mp rfl, he⟩)
  | none =>
      have hnone : ∀ path, ¬Found text requested path := by
        intro path h
        rw [found_iff hnames, hget] at h
        cases h
      show Searches _ _ _ _ _
        (if normalized requested ∈ builtins builtin then pure s
          else throw (ParserError.notFound requested))
      by_cases hbuiltin : normalized requested ∈ builtins builtin
      · rw [if_pos hbuiltin]
        exact .of_searched (.nil hpost hnone)
      · rw [if_neg hbuiltin]
        exact .of_raised (Or.inl ⟨rfl, hnone, hbuiltin⟩)

theorem unresolved_of_refused (hnames : DistinctNames text) {builtin : Option Str}
    {modules : List Str} {requested : Str} {e : ParserError} (hmem : requested ∈ modules)
    (h : Refused text builtin requested e) : Unresolved text builtin modules := by
  rcases h with ⟨_, hnone, hbuiltin⟩ | ⟨path, hfound, x, _, hx, hreach⟩
  · exact Or.inl ⟨requested, hmem, hnone, hbuiltin⟩
  · rw [edge_eq hnames] at hreach
    refine Or.inr ⟨x, ⟨requested, hmem, path, hfound, hreach⟩, ?_⟩
    rw [listed_iff hnames, hx]
    exact Bool.false_ne_true

theorem request_of_none (hnames : DistinctNames text) {builtin : Option Str} {requested : Str}
    (hnone : ∀ path, ¬Found text requested path)
    (hbuiltin : normalized requested ∉ builtins builtin) (s : State) :
    request text builtin s requested = throw (.notFound requested) := by
  have hget : (byName text).get (normalized requested) = none := by
    rw [Option.eq_none_iff_forall_ne_some]
    exact fun path h => hnone path ((found_iff hnames requested path).mpr h)
  unfold request
  rw [hget]
  exact if_neg hbuiltin

/-- What is listed after all requests. -/
theorem resolved_of_searched (hnames : DistinctNames text) {modules visited ordered : List Str}
    (h : Searched (dependencies text).get [] [] (fun d => ∃ a ∈ modules, Found text a d)
      visited ordered) :
    Resolved text modules ordered ∧ ∀ x, Closure text modules x → Listed text x := by
  have hmem : ∀ x, x ∈ ordered ↔ Closure text modules x := by
    intro x
    rw [h.mem_iff, edge_eq hnames]
    constructor
    · intro hx
      obtain ⟨d, ⟨requested, hmem, hfound⟩, hreach⟩ := hx
      exact ⟨requested, hmem, d, hfound, hreach⟩
    · intro hx
      obtain ⟨requested, hmem, d, hfound, hreach⟩ := hx
      exact ⟨d, ⟨requested, hmem, hfound⟩, hreach⟩
  refine ⟨⟨h.post.nodup, hmem, fun x hx y hxy => ?_⟩, fun x hx => ?_⟩
  · exact h.post.after x hx y ((edge_iff hnames x y).mpr hxy)
  · rw [listed_iff hnames]
    exact h.post.readable x ((hmem x).mpr hx)

/-- The search raises, or lists the closure; and then nothing was unresolved. -/
theorem main_cases (hacyclic : Acyclic (DependsOn text)) (hnames : DistinctNames text)
    (builtin : Option Str) (modules : List Str) :
    ((∃ e, (main (some text) builtin modules).Raises e) ∧ Unresolved text builtin modules) ∨
    ∃ ordered, (main (some text) builtin modules).Returns (stdout ordered) ∧
      Resolved text modules ordered ∧ ¬Unresolved text builtin modules := by
  have hrun : Searches (dependencies text).get [] [] (fun d => ∃ a ∈ modules, Found text a d)
      (fun e => ∃ a ∈ modules, Refused text builtin a e)
      (modules.foldlM (request text builtin) ([], [])) :=
    Searches.foldlM (fun a _ s hpost _ => searches_request hacyclic hnames hpost)
      (Postorder.start _) (List.Subset.refl _)
  rcases hrun with ⟨s, hs, hsearched⟩ | ⟨e, he, requested, hmem, hrefused⟩
  · right
    have hresolved := resolved_of_searched hnames hsearched
    refine ⟨s.2, Fueled.bind_returns.mpr ⟨s, hs, Fueled.pure_returns.mpr rfl⟩, hresolved.1, ?_⟩
    rintro (⟨requested, hmem, hnone, hbuiltin⟩ | ⟨x, hx, hlisted⟩)
    · obtain ⟨b, b', hpass⟩ := Fueled.foldlM_passes hs hmem
      rw [request_of_none hnames hnone hbuiltin] at hpass
      exact Fueled.throw_returns hpass
    · exact hlisted (hresolved.2 x hx)
  · left
    exact ⟨⟨e, Fueled.bind_raises.mpr (Or.inl he)⟩, unresolved_of_refused hnames hmem hrefused⟩

theorem main_resolves (hacyclic : Acyclic (DependsOn text)) (hnames : DistinctNames text)
    (builtin : Option Str) (modules : List Str) :
    (Unresolved text builtin modules → ∃ e, (main (some text) builtin modules).Raises e) ∧
    (¬Unresolved text builtin modules →
      ∃ ordered, (main (some text) builtin modules).Returns (stdout ordered) ∧
        Resolved text modules ordered) := by
  rcases main_cases hacyclic hnames builtin modules with ⟨hraises, hun⟩ | ⟨ordered, hret, hres, hno⟩
  · exact ⟨fun _ => hraises, fun hno => absurd hun hno⟩
  · exact ⟨fun hun => absurd hun hno, fun _ => ⟨ordered, hret, hres⟩⟩

def ext4 : Str := "kernel/fs/ext4.ko.zst".toList

def crc16 : Str := "kernel/lib/crc-16.ko.zst".toList

def ext4Dep : Str := ext4 ++ ": ".toList ++ crc16 ++ ['\n'] ++ crc16 ++ ":\n".toList

theorem entries_ext4Dep : entries ext4Dep = [(ext4, [crc16]), (crc16, [])] := by
  decide +kernel

theorem dependsOn_ext4Dep (x y : Str) : DependsOn ext4Dep x y ↔ x = ext4 ∧ y = crc16 := by
  rw [DependsOn, entries_ext4Dep]
  constructor
  · intro h
    obtain ⟨deps, hmem, hy⟩ := h
    simp only [List.mem_cons, Prod.mk.injEq, List.not_mem_nil, or_false] at hmem
    rcases hmem with ⟨hx, rfl⟩ | ⟨_, rfl⟩
    · exact ⟨hx, List.mem_singleton.mp hy⟩
    · exact absurd hy List.not_mem_nil
  · intro h
    obtain ⟨rfl, rfl⟩ := h
    exact ⟨[crc16], List.mem_cons_self, List.mem_cons_self⟩

theorem listed_ext4Dep (x : Str) : Listed ext4Dep x ↔ x = ext4 ∨ x = crc16 := by
  rw [Listed, entries_ext4Dep]
  simp [exists_or]

theorem acyclic_ext4Dep : Acyclic (DependsOn ext4Dep) := by
  intro x h
  have hends : ∀ y, Relation.TransGen (DependsOn ext4Dep) x y → x = ext4 ∧ y = crc16 := by
    intro y hxy
    induction hxy with
    | single hedge => exact (dependsOn_ext4Dep x _).mp hedge
    | tail _ hedge ih => exact ⟨ih.1, ((dependsOn_ext4Dep _ _).mp hedge).2⟩
  obtain ⟨hx, hx'⟩ := hends x h
  rw [hx] at hx'
  revert hx'
  decide +kernel

theorem distinctNames_ext4Dep : DistinctNames ext4Dep := by
  rw [DistinctNames, entries_ext4Dep]
  decide +kernel

theorem ext4_resolves :
    ∃ ordered, (main (some ext4Dep) none ["ext4".toList]).Returns (stdout ordered) ∧
      Resolved ext4Dep ["ext4".toList] ordered := by
  refine (main_resolves acyclic_ext4Dep distinctNames_ext4Dep none _).2 ?_
  rintro (⟨requested, hmem, hnone, _⟩ | ⟨x, ⟨requested, hmem, path, hfound, hreach⟩, hlisted⟩)
  · rw [List.mem_singleton.mp hmem] at hnone
    refine hnone ext4 ⟨(listed_ext4Dep ext4).mpr (Or.inl rfl), ?_⟩
    decide +kernel
  · apply hlisted
    cases hreach with
    | refl => exact hfound.1
    | tail _ hedge =>
        rw [listed_ext4Dep]
        exact Or.inr ((dependsOn_ext4Dep _ _).mp hedge).2

end Cbuild.Modules
