import Cbuild.Lib.Dict
import Mathlib.Data.List.Dedup
import Mathlib.Data.List.Infix

/-! # Trees of files

Directories, files and symbolic links under one root, and the calls of POSIX and Python that
walk, make, move and remove them. A place is a list of names from the root; a path, as it is
written, may also go up, and may pass through links.
-/

namespace Cbuild.Lib

/-- What stands between two slashes: `..` or a name. -/
inductive Comp (N : Type) where
  | up
  | down (name : N)
  deriving DecidableEq

inductive Node (N C : Type) where
  | dir
  | file (content : C)
  | link (absolute : Bool) (target : List (Comp N))
  deriving DecidableEq

inductive Errno where
  | noent | notdir | loop | exist | notempty | isdir | inval
  deriving DecidableEq

/-- All entries but the root, each under its place. -/
abbrev Fs (N C : Type) : Type := Dict (List N) (Node N C)

def Node.isLink {N C : Type} : Node N C → Bool
  | .link _ _ => true
  | _ => false

namespace Fs

variable {N C : Type} [DecidableEq N]

def node (fs : Fs N C) (q : List N) : Option (Node N C) := if q = [] then some .dir else fs.get q

def dirAt (fs : Fs N C) (q : List N) : Bool :=
  match fs.node q with
  | some .dir => true
  | _ => false

/-! ## Walking -/

/-- One pass over the names; `follow` goes on from the target of a link. -/
def walkFrom (fs : Fs N C) (follow : List N → List (Comp N) → Except Errno (List N)) :
    List N → List (Comp N) → Except Errno (List N)
  | cur, [] => .ok cur
  | cur, .up :: rest => walkFrom fs follow cur.dropLast rest
  | cur, .down n :: rest =>
      match fs.node (cur ++ [n]) with
      | none => .error .noent
      | some .dir => walkFrom fs follow (cur ++ [n]) rest
      | some (.file _) => if rest = [] then .ok (cur ++ [n]) else .error .notdir
      | some (.link absolute target) => follow (if absolute then [] else cur) (target ++ rest)

/-- The walk from a directory, over at most so many links. -/
def walk (fs : Fs N C) : Nat → List N → List (Comp N) → Except Errno (List N)
  | 0 => walkFrom fs fun _ _ => .error .loop
  | links + 1 => walkFrom fs (walk fs links)

/-- The place that a path leads to, all links followed. -/
def stat (fs : Fs N C) (p : List (Comp N)) : Except Errno (List N) := walk fs 40 [] p

/-- The place of the entry itself, which need not be there. -/
def place (fs : Fs N C) (p : List (Comp N)) : Except Errno (List N) :=
  match p.getLast? with
  | none => .ok []
  | some .up => fs.stat p
  | some (.down n) =>
      match fs.stat p.dropLast with
      | .error e => .error e
      | .ok d => if fs.dirAt d then .ok (d ++ [n]) else .error .notdir

def pathExists (fs : Fs N C) (p : List (Comp N)) : Bool := (fs.stat p).isOk

def isDir (fs : Fs N C) (p : List (Comp N)) : Bool :=
  match fs.stat p with
  | .error _ => false
  | .ok q => fs.dirAt q

def isLink (fs : Fs N C) (p : List (Comp N)) : Bool :=
  match fs.place p with
  | .error _ => false
  | .ok q => (fs.node q).any Node.isLink

def sameFile (fs : Fs N C) (p p' : List (Comp N)) : Bool :=
  match fs.stat p, fs.stat p' with
  | .ok q, .ok q' => q = q'
  | _, _ => false

/-- The names in a directory. -/
def names (fs : Fs N C) (d : List N) : List N :=
  (fs.filterMap fun e => if e.1.dropLast = d then e.1.getLast? else none).dedup

def iterdir (fs : Fs N C) (p : List (Comp N)) : Except Errno (List N) :=
  match fs.stat p with
  | .error e => .error e
  | .ok d => if fs.dirAt d then .ok (fs.names d) else .error .notdir

/-! ## Changes -/

def mkdir (fs : Fs N C) (p : List (Comp N)) : Except Errno (Fs N C) :=
  match fs.place p with
  | .error e => .error e
  | .ok q =>
      match p.getLast?, fs.node q with
      | some (.down _), none => .ok (Dict.set fs q .dir)
      | _, _ => .error .exist

/-- `exist_ok=True`. -/
def mkdirOk (fs : Fs N C) (p : List (Comp N)) : Except Errno (Fs N C) :=
  match fs.mkdir p with
  | .ok fs' => .ok fs'
  | .error e => if fs.isDir p then .ok fs else .error e

/-- `mkdir(parents=True, exist_ok=True)` of a path that is given from its end. -/
def mkdirsRev (fs : Fs N C) : List (Comp N) → Except Errno (Fs N C)
  | [] => fs.mkdirOk []
  | c :: above =>
      match fs.mkdir (c :: above).reverse with
      | .error .noent =>
          match mkdirsRev fs above with
          | .error e => .error e
          | .ok fs' => fs'.mkdirOk (c :: above).reverse
      | _ => fs.mkdirOk (c :: above).reverse

def mkdirs (fs : Fs N C) (p : List (Comp N)) : Except Errno (Fs N C) := fs.mkdirsRev p.reverse

/-- What is at `s` and below it goes to `t`, in place of what was there. -/
def moveTree (fs : Fs N C) (s t : List N) : Fs N C :=
  (fs.filter fun e => ¬ t <+: e.1).map fun e =>
    if s <+: e.1 then (t ++ e.1.drop s.length, e.2) else e

def removeTree (fs : Fs N C) (q : List N) : Fs N C := fs.filter fun e => ¬ q <+: e.1

def rename (fs : Fs N C) (src dst : List (Comp N)) : Except Errno (Fs N C) :=
  match fs.place src, fs.place dst with
  | .error e, _ => .error e
  | _, .error e => .error e
  | .ok s, .ok t =>
      match fs.node s, fs.node t with
      | none, _ => .error .noent
      | some n, m =>
          if s = t then .ok fs
          else if s <+: t then .error .inval
          else
            match n, m with
            | .dir, some .dir =>
                if (fs.names t).isEmpty then .ok (fs.moveTree s t) else .error .notempty
            | .dir, some _ => .error .notdir
            | _, some .dir => .error .isdir
            | _, _ => .ok (fs.moveTree s t)

/-- `shutil.move` within one file system. What `rename` refuses there, the copy that is
tried next refuses as well. -/
def move (fs : Fs N C) (src dst : List (Comp N)) : Except Errno (Fs N C) :=
  if fs.isDir dst then
    if fs.sameFile src dst && !fs.isLink src then fs.rename src dst
    else if fs.pathExists (dst ++ src.getLast?.toList) then .error .exist
    else fs.rename src (dst ++ src.getLast?.toList)
  else fs.rename src dst

def rmdir (fs : Fs N C) (p : List (Comp N)) : Except Errno (Fs N C) :=
  match fs.place p with
  | .error e => .error e
  | .ok q =>
      match fs.node q with
      | none => .error .noent
      | some .dir => if (fs.names q).isEmpty then .ok (Dict.erase fs q) else .error .notempty
      | some _ => .error .notdir

def rmtree (fs : Fs N C) (p : List (Comp N)) : Except Errno (Fs N C) :=
  match fs.place p with
  | .error e => .error e
  | .ok q =>
      match fs.node q with
      | none => .error .noent
      | some .dir => .ok (fs.removeTree q)
      | some _ => .error .notdir

/-! ## What is where after a change -/

section

variable {fs fs' : Fs N C} {q q' s t d : List N} {n : N} {v : Node N C}

@[simp] theorem node_nil (fs : Fs N C) : fs.node [] = some .dir := rfl

theorem node_of_ne_nil (h : q ≠ []) : fs.node q = fs.get q := if_neg h

theorem dirAt_iff : fs.dirAt q = true ↔ fs.node q = some .dir := by
  unfold dirAt
  cases fs.node q with
  | none => simp
  | some v => cases v <;> simp

theorem node_set (h : q ≠ []) : node (Dict.set fs q v) q' = if q = q' then some v else fs.node q' := by
  by_cases hq' : q' = []
  · subst hq'
    rw [if_neg h]
    rfl
  · rw [node_of_ne_nil hq', node_of_ne_nil hq', Dict.get_set]

theorem node_erase (h : q ≠ []) : node (Dict.erase fs q) q' = if q = q' then none else fs.node q' := by
  by_cases hq' : q' = []
  · subst hq'
    rw [if_neg h]
    rfl
  · rw [node_of_ne_nil hq', node_of_ne_nil hq', Dict.get_erase]

theorem mem_names : n ∈ fs.names d ↔ (fs.node (d ++ [n])).isSome = true := by
  have hne : d ++ [n] ≠ [] := by simp
  rw [node_of_ne_nil hne, Dict.get_isSome_iff, names, List.mem_dedup, List.mem_filterMap, Dict.keys,
    List.mem_map]
  constructor
  · rintro ⟨e, he, hn⟩
    by_cases hd : e.1.dropLast = d
    · rw [if_pos hd] at hn
      refine ⟨e, he, ?_⟩
      rw [← hd]
      exact (List.dropLast_append_getLast? n hn).symm
    · rw [if_neg hd] at hn
      cases hn
  · rintro ⟨e, he, hkey⟩
    refine ⟨e, he, ?_⟩
    rw [hkey]
    simp

theorem names_isEmpty : (fs.names d).isEmpty = true ↔ ∀ n, fs.node (d ++ [n]) = none := by
  rw [List.isEmpty_iff, List.eq_nil_iff_forall_not_mem]
  simp only [mem_names, Option.not_isSome_iff_eq_none]

theorem moveTree_cons (e : List N × Node N C) (fs : Fs N C) : moveTree (e :: fs) s t =
    if t <+: e.1 then fs.moveTree s t
    else (if s <+: e.1 then (t ++ e.1.drop s.length, e.2) else e) :: fs.moveTree s t := by
  unfold moveTree
  by_cases h : t <+: e.1 <;> simp [h]

theorem get_moveTree (hst : ¬ s <+: t) (hts : ¬ t <+: s) : Dict.get (fs.moveTree s t) q =
    if t <+: q then Dict.get fs (s ++ q.drop t.length)
    else if s <+: q then none else Dict.get fs q := by
  have hapart : ∀ k : List N, s <+: k → ¬ t <+: k := fun k hs ht =>
    (List.prefix_or_prefix_of_prefix hs ht).elim hst hts
  induction fs with
  | nil =>
      unfold moveTree
      split <;> (try split) <;> rfl
  | cons e fs ih =>
      have hmoved : ∀ k, k ≠ e.1 → Dict.get (e :: fs) k = Dict.get fs k := fun k hk => by
        rw [Dict.get_cons, if_neg (Ne.symm hk)]
      rw [moveTree_cons]
      by_cases hte : t <+: e.1
      · -- the entry goes: it is neither below `s` nor outside `t`
        rw [if_pos hte, ih]
        by_cases htq : t <+: q
        · rw [if_pos htq, if_pos htq]
          exact (hmoved _ fun h => hapart _ (h ▸ List.prefix_append s _) hte).symm
        · rw [if_neg htq, if_neg htq, hmoved q fun h => htq (h ▸ hte)]
      · rw [if_neg hte]
        by_cases hse : s <+: e.1
        · rw [if_pos hse, Dict.get_cons, ih]
          obtain ⟨x, hx⟩ := hse
          rw [← hx, List.drop_left]
          by_cases htq : t <+: q
          · obtain ⟨y, rfl⟩ := htq
            rw [if_pos (List.prefix_append t y), if_pos (List.prefix_append t y), List.drop_left,
              Dict.get_cons, ← hx]
            simp only [List.append_cancel_left_eq]
          · rw [if_neg fun h : t ++ x = q => htq ⟨x, h⟩, if_neg htq, if_neg htq]
            by_cases hsq : s <+: q
            · rw [if_pos hsq, if_pos hsq]
            · rw [if_neg hsq, if_neg hsq, hmoved q fun h => hsq (h ▸ ⟨x, hx⟩)]
        · rw [if_neg hse, Dict.get_cons, ih]
          by_cases htq : t <+: q
          · rw [if_neg fun h : e.1 = q => hte (h ▸ htq), if_pos htq, if_pos htq,
              hmoved _ fun h => hse (h ▸ List.prefix_append s _)]
          · rw [if_neg htq, if_neg htq, Dict.get_cons]
            by_cases hsq : s <+: q
            · rw [if_pos hsq, if_pos hsq, if_neg fun h : e.1 = q => hse (h ▸ hsq)]
            · rw [if_neg hsq, if_neg hsq]

theorem node_moveTree (hst : ¬ s <+: t) (hts : ¬ t <+: s) : node (fs.moveTree s t) q =
    if t <+: q then fs.node (s ++ q.drop t.length) else if s <+: q then none else fs.node q := by
  by_cases hq : q = []
  · subst hq
    have ht : ¬ t <+: [] := fun h => hts (List.prefix_nil.mp h ▸ List.nil_prefix)
    have hs : ¬ s <+: [] := fun h => hst (List.prefix_nil.mp h ▸ List.nil_prefix)
    rw [if_neg ht, if_neg hs]
    rfl
  · have hne : s ++ q.drop t.length ≠ [] := fun h =>
      hst ((List.append_eq_nil_iff.mp h).1 ▸ List.nil_prefix)
    rw [node_of_ne_nil hq, node_of_ne_nil hq, node_of_ne_nil hne, get_moveTree hst hts]

/-! ## Walks that meet no link -/

theorem walk_nil (links : Nat) : fs.walk links q [] = .ok q := by
  cases links <;> rfl

theorem walk_up (links : Nat) (rest : List (Comp N)) :
    fs.walk links q (.up :: rest) = fs.walk links q.dropLast rest := by
  cases links <;> rfl

/-- Only the link budget tells one walk from another. -/
theorem walk_down (links : Nat) (rest : List (Comp N)) : fs.walk links q (.down n :: rest) =
    match fs.node (q ++ [n]) with
    | none => .error .noent
    | some .dir => fs.walk links (q ++ [n]) rest
    | some (.file _) => if rest = [] then .ok (q ++ [n]) else .error .notdir
    | some (.link absolute target) =>
        match links with
        | 0 => .error .loop
        | links + 1 => fs.walk links (if absolute then [] else q) (target ++ rest) := by
  cases links with
  | zero =>
      rw [walk, walkFrom]
  | succ links =>
      rw [walk, walkFrom]

/-- What holds of each step of a walk that arrives holds of the walk; first, up to a link. -/
theorem walkFrom_induct {follow : List N → List (Comp N) → Except Errno (List N)}
    {M : List N → List (Comp N) → List N → Prop}
    (here : ∀ q, M q [] q)
    (up : ∀ q rest d, M q.dropLast rest d → M q (.up :: rest) d)
    (dir : ∀ q n rest d, fs.node (q ++ [n]) = some .dir →
      M (q ++ [n]) rest d → M q (.down n :: rest) d)
    (file : ∀ q n content, fs.node (q ++ [n]) = some (.file content) → M q [.down n] (q ++ [n]))
    (link : ∀ q n rest d absolute target, fs.node (q ++ [n]) = some (.link absolute target) →
      follow (if absolute then [] else q) (target ++ rest) = .ok d → M q (.down n :: rest) d)
    {p : List (Comp N)} (h : fs.walkFrom follow q p = .ok d) : M q p d := by
  induction p generalizing q with
  | nil =>
      cases h
      exact here d
  | cons c rest ih =>
      cases c with
      | up => exact up q rest d (ih h)
      | down n =>
          rw [walkFrom] at h
          cases hn : fs.node (q ++ [n]) with
          | none =>
              rw [hn] at h
              cases h
          | some v =>
              rw [hn] at h
              cases v with
              | dir => exact dir q n rest d hn (ih h)
              | file content =>
                  by_cases hrest : rest = []
                  · subst hrest
                    cases h
                    exact file q n content hn
                  · simp only [hrest, if_false] at h
                    cases h
              | link absolute target => exact link q n rest d absolute target hn h

theorem walk_induct {M : Nat → List N → List (Comp N) → List N → Prop}
    (here : ∀ links q, M links q [] q)
    (up : ∀ links q rest d, M links q.dropLast rest d → M links q (.up :: rest) d)
    (dir : ∀ links q n rest d, fs.node (q ++ [n]) = some .dir →
      M links (q ++ [n]) rest d → M links q (.down n :: rest) d)
    (file : ∀ links q n content, fs.node (q ++ [n]) = some (.file content) →
      M links q [.down n] (q ++ [n]))
    (link : ∀ links q n rest d absolute target,
      fs.node (q ++ [n]) = some (.link absolute target) →
      M links (if absolute then [] else q) (target ++ rest) d →
      M (links + 1) q (.down n :: rest) d)
    {links : Nat} {p : List (Comp N)} (h : fs.walk links q p = .ok d) : M links q p d := by
  induction links generalizing q p d with
  | zero =>
      refine walkFrom_induct (here 0) (up 0) (dir 0) (file 0) ?_ h
      intro q n rest d absolute target _ hloop
      cases hloop
  | succ links ih =>
      refine walkFrom_induct (here (links + 1)) (up (links + 1)) (dir (links + 1))
        (file (links + 1)) ?_ h
      intro q n rest d absolute target hn hrest
      exact link links q n rest d absolute target hn (ih hrest)

/-- A walk to a directory can go on from there. -/
theorem walk_append {links : Nat} {p : List (Comp N)} (h : fs.walk links q p = .ok d)
    (hd : fs.dirAt d = true) (p' : List (Comp N)) :
    ∃ links', fs.walk links q (p ++ p') = fs.walk links' d p' := by
  revert hd
  refine walk_induct (M := fun links q p d => fs.dirAt d = true →
    ∃ links', fs.walk links q (p ++ p') = fs.walk links' d p') ?_ ?_ ?_ ?_ ?_ h
  · exact fun links q _ => ⟨links, rfl⟩
  · intro links q rest d ih hd
    obtain ⟨links', h'⟩ := ih hd
    exact ⟨links', by rw [List.cons_append, walk_up, h']⟩
  · intro links q n rest d hn ih hd
    obtain ⟨links', h'⟩ := ih hd
    exact ⟨links', by rw [List.cons_append, walk_down, hn]; exact h'⟩
  · intro links q n content hn hd
    rw [dirAt_iff, hn] at hd
    cases hd
  · intro links q n rest d absolute target hn ih hd
    obtain ⟨links', h'⟩ := ih hd
    refine ⟨links', ?_⟩
    rw [List.cons_append, walk_down, hn]
    show fs.walk links _ (target ++ (rest ++ p')) = _
    rw [← List.append_assoc]
    exact h'

theorem walk_mono (hmono : ∀ q v, fs.node q = some v → fs'.node q = some v) {links : Nat}
    {p : List (Comp N)} (h : fs.walk links q p = .ok d) : fs'.walk links q p = .ok d := by
  refine walk_induct (M := fun links q p d => fs'.walk links q p = .ok d) ?_ ?_ ?_ ?_ ?_ h
  · exact fun links q => walk_nil links
  · intro links q rest d ih
    rw [walk_up, ih]
  · intro links q n rest d hn ih
    rw [walk_down, hmono _ _ hn]
    exact ih
  · intro links q n content hn
    rw [walk_down, hmono _ _ hn]
    rfl
  · intro links q n rest d absolute target hn ih
    rw [walk_down, hmono _ _ hn]
    exact ih

/-- Names that are directories all the way. -/
theorem walk_names (fs : Fs N C) (links : Nat) (q ns : List N)
    (h : ∀ ns', ns' <+: ns → ns' ≠ [] → fs.node (q ++ ns') = some .dir) (p : List (Comp N)) :
    fs.walk links q (ns.map .down ++ p) = fs.walk links (q ++ ns) p := by
  induction ns generalizing q with
  | nil => rw [List.append_nil]; rfl
  | cons n ns ih =>
      have hn := h [n] ⟨ns, rfl⟩ (List.cons_ne_nil n [])
      rw [List.map_cons, List.cons_append, walk_down, hn]
      show fs.walk links (q ++ [n]) (ns.map .down ++ p) = _
      rw [ih (q ++ [n]), List.append_assoc]
      · rfl
      · intro ns' hns' _
        rw [List.append_assoc]
        exact h (n :: ns') (List.cons_prefix_cons.mpr ⟨rfl, hns'⟩) (List.cons_ne_nil n ns')

end

/-! ## Paths that meet no link -/

/-- Where a path leads from a directory, by its names alone. It may not go above the
directory it started from, nor through what `link` tells to be one. -/
def plainWalk (link : List N → Bool) : List N → List (Comp N) → Option (List N)
  | cur, [] => some cur
  | cur, .up :: rest => if cur = [] then none else plainWalk link cur.dropLast rest
  | cur, .down n :: rest => if link (cur ++ [n]) then none else plainWalk link (cur ++ [n]) rest

/-- The place of the entry, which may be a link itself. -/
def plainPlace (link : List N → Bool) (p : List (Comp N)) : Option (List N) :=
  match p.getLast? with
  | some (.down n) => (plainWalk link [] p.dropLast).map (· ++ [n])
  | _ => plainWalk link [] p

section

variable {fs : Fs N C} {link : List N → Bool} {q a cur : List N} {n : N}

omit [DecidableEq N] in
@[simp] theorem plainWalk_nil (link : List N → Bool) (cur : List N) :
    plainWalk link cur [] = some cur := rfl

omit [DecidableEq N] in
theorem plainWalk_append (p p' : List (Comp N)) : plainWalk link cur (p ++ p') =
    (plainWalk link cur p).bind fun a => plainWalk link a p' := by
  induction p generalizing cur with
  | nil => rfl
  | cons c p ih =>
      cases c with
      | up =>
          rw [List.cons_append, plainWalk, plainWalk]
          split
          · rfl
          · exact ih
      | down n =>
          rw [List.cons_append, plainWalk, plainWalk]
          split
          · rfl
          · exact ih

omit [DecidableEq N] in
theorem plainWalk_snoc (p : List (Comp N)) (n : N) : plainWalk link cur (p ++ [.down n]) =
    (plainWalk link cur p).bind fun a => if link (a ++ [n]) then none else some (a ++ [n]) := by
  rw [plainWalk_append]
  rfl

omit [DecidableEq N] in
theorem plainPlace_snoc (p : List (Comp N)) (n : N) :
    plainPlace link (p ++ [.down n]) = (plainWalk link [] p).map (· ++ [n]) := by
  rw [plainPlace, List.getLast?_concat, List.dropLast_concat]

omit [DecidableEq N] in
theorem plainWalk_prefix {p p' : List (Comp N)} (hp : p' <+: p)
    (ha : plainWalk link cur p = some a) : ∃ a', plainWalk link cur p' = some a' := by
  obtain ⟨p'', rfl⟩ := hp
  rw [plainWalk_append] at ha
  exact ⟨_, (Option.bind_eq_some_iff.mp ha).choose_spec.1⟩

omit [DecidableEq N] in
/-- A walk that ends with a name has met no link there. -/
theorem plainWalk_snoc_some {p : List (Comp N)} {n : N}
    (h : plainWalk link cur (p ++ [.down n]) = some a) :
    ∃ d, plainWalk link cur p = some d ∧ a = d ++ [n] ∧ link a = false := by
  rw [plainWalk_snoc, Option.bind_eq_some_iff] at h
  obtain ⟨d, hd, ha⟩ := h
  cases hl : link (d ++ [n]) with
  | true =>
      rw [if_pos hl] at ha
      cases ha
  | false =>
      rw [if_neg (by rw [hl]; exact Bool.false_ne_true)] at ha
      cases ha
      exact ⟨d, hd, rfl, hl⟩

omit [DecidableEq N] in
theorem plainPlace_of_plainWalk {p : List (Comp N)} (h : plainWalk link [] p = some a) :
    plainPlace link p = some a := by
  obtain rfl | ⟨p, c, rfl⟩ := List.eq_nil_or_concat' p
  · exact h
  · cases c with
    | up =>
        rw [plainPlace, List.getLast?_concat]
        exact h
    | down n =>
        obtain ⟨d, hd, rfl, -⟩ := plainWalk_snoc_some h
        rw [plainPlace_snoc, hd]
        rfl

theorem walk_plain (link : List N → Bool) (base : List N) (hlink : ∀ r absolute target,
      fs.node (base ++ r) = some (.link absolute target) → link r = true)
    {links : Nat} {p p' : List (Comp N)} (hp : plainWalk link cur p = some a)
    (h : fs.walk links (base ++ cur) (p ++ p') = .ok q) :
    fs.walk links (base ++ cur) p = .ok (base ++ a) ∧ fs.walk links (base ++ a) p' = .ok q := by
  induction p generalizing cur with
  | nil =>
      cases hp
      exact ⟨walk_nil links, h⟩
  | cons c p ih =>
      cases c with
      | up =>
          rw [plainWalk] at hp
          by_cases hcur : cur = []
          · rw [if_pos hcur] at hp
            cases hp
          · rw [if_neg hcur] at hp
            rw [List.cons_append, walk_up, List.dropLast_append_of_ne_nil hcur] at h
            rw [walk_up, List.dropLast_append_of_ne_nil hcur]
            exact ih hp h
      | down n =>
          rw [plainWalk] at hp
          cases hl : link (cur ++ [n]) with
          | true =>
              rw [if_pos hl] at hp
              cases hp
          | false =>
              rw [if_neg (by rw [hl]; exact Bool.false_ne_true)] at hp
              rw [List.cons_append, walk_down, List.append_assoc] at h
              rw [walk_down, List.append_assoc]
              cases hn : fs.node (base ++ (cur ++ [n])) with
              | none =>
                  rw [hn] at h
                  cases h
              | some v =>
                  rw [hn] at h
                  cases v with
                  | dir => exact ih hp h
                  | file content =>
                      by_cases hrest : p ++ p' = []
                      · obtain ⟨rfl, rfl⟩ := List.append_eq_nil_iff.mp hrest
                        cases hp
                        rw [walk_nil]
                        exact ⟨rfl, by simpa using h⟩
                      · simp only [hrest, if_false] at h
                        cases h
                  | link absolute target => exact absurd (hlink _ _ _ hn) (by rw [hl]; exact Bool.false_ne_true)

end

/-! ## The calls -/

section

variable {fs fs' : Fs N C} {p src dst : List (Comp N)} {q d : List N} {n : N}

theorem isDir_iff : fs.isDir p = true ↔ ∃ q, fs.stat p = .ok q ∧ fs.node q = some .dir := by
  unfold isDir
  cases fs.stat p with
  | error e => simp
  | ok q => simp [dirAt_iff]

theorem place_snoc (h : fs.stat p = .ok d) (hd : fs.node d = some .dir) (n : N) :
    fs.place (p ++ [.down n]) = .ok (d ++ [n]) := by
  unfold place
  rw [List.getLast?_concat]
  simp [h, dirAt_iff.mpr hd]

/-- Only a link leads elsewhere. -/
theorem stat_snoc (h : fs.stat p = .ok d) (hd : fs.node d = some .dir) (n : N)
    (hlink : ∀ absolute target, fs.node (d ++ [n]) ≠ some (.link absolute target)) :
    fs.stat (p ++ [.down n]) =
      if (fs.node (d ++ [n])).isSome then .ok (d ++ [n]) else .error .noent := by
  obtain ⟨links, hwalk⟩ := walk_append h (dirAt_iff.mpr hd) [.down n]
  rw [stat, hwalk, walk_down]
  cases hn : fs.node (d ++ [n]) with
  | none => rfl
  | some v =>
      cases v with
      | dir => exact walk_nil links
      | file content => rfl
      | link absolute target => exact absurd hn (hlink absolute target)

theorem stat_snoc_up (h : fs.stat p = .ok d) (hd : fs.node d = some .dir) :
    fs.stat (p ++ [.up]) = .ok d.dropLast := by
  obtain ⟨links, hwalk⟩ := walk_append h (dirAt_iff.mpr hd) [.up]
  rw [stat, hwalk, walk_up, walk_nil]

theorem place_cases (h : fs.place p = .ok q) : (∃ p' n d, p = p' ++ [.down n] ∧
    fs.stat p' = .ok d ∧ fs.node d = some .dir ∧ q = d ++ [n]) ∨
    (∀ n, p.getLast? ≠ some (.down n)) ∧ fs.stat p = .ok q := by
  unfold place at h
  cases hlast : p.getLast? with
  | none =>
      rw [hlast] at h
      rw [List.getLast?_eq_none_iff.mp hlast]
      exact Or.inr ⟨fun n => by simp, h⟩
  | some c =>
      rw [hlast] at h
      cases c with
      | up => exact Or.inr ⟨fun n => by simp, h⟩
      | down n =>
          left
          simp only at h
          cases hs : fs.stat p.dropLast with
          | error e =>
              rw [hs] at h
              cases h
          | ok d =>
              rw [hs] at h
              by_cases hd : fs.dirAt d = true
              · simp only [hd, if_true] at h
                cases h
                exact ⟨p.dropLast, n, d, (List.dropLast_append_getLast? _ hlast).symm, hs,
                  dirAt_iff.mp hd, rfl⟩
              · simp only [hd] at h
                cases h

theorem stat_of_place {v : Node N C} (h : fs.place p = .ok q) (hv : fs.node q = some v)
    (hlink : v.isLink = false) : fs.stat p = .ok q := by
  obtain ⟨p', n, d, rfl, hstat, hd, rfl⟩ | ⟨-, hstat⟩ := place_cases h
  · rw [stat_snoc hstat hd n, hv]
    · rfl
    · rintro absolute target heq
      rw [hv] at heq
      cases heq
      cases hlink
  · exact hstat

theorem isLink_of_place {v : Node N C} (h : fs.place p = .ok q) (hv : fs.node q = some v) :
    fs.isLink p = v.isLink := by
  unfold isLink
  rw [h]
  show (fs.node q).any Node.isLink = _
  rw [hv]
  rfl

theorem sameFile_iff {p' : List (Comp N)} :
    fs.sameFile p p' = true ↔ ∃ q, fs.stat p = .ok q ∧ fs.stat p' = .ok q := by
  unfold sameFile
  cases fs.stat p with
  | error e => simp
  | ok q => cases fs.stat p' <;> simp [eq_comm]

theorem mkdir_spec (h : fs.mkdir p = .ok fs') : ∃ p' n d, p = p' ++ [.down n] ∧
    fs.stat p' = .ok d ∧ fs.node d = some .dir ∧ fs.node (d ++ [n]) = none ∧
    fs' = Dict.set fs (d ++ [n]) .dir := by
  unfold mkdir at h
  cases hplace : fs.place p with
  | error e =>
      rw [hplace] at h
      cases h
  | ok q =>
      rw [hplace] at h
      simp only at h
      split at h
      · rename_i n hlast hnone
        cases h
        obtain ⟨p', n', d, hp, hstat, hd, hq⟩ | ⟨hno, -⟩ := place_cases hplace
        · exact ⟨p', n', d, hp, hstat, hd, hq ▸ hnone, by rw [hq]⟩
        · exact absurd hlast (hno n)
      · cases h

/-- `mkdir` leaves a directory there, and all else as it was. -/
theorem mkdir_node (h : fs.mkdir p = .ok fs') : ∃ q, fs.place p = .ok q ∧ fs.node q = none ∧
    ∀ q', fs'.node q' = if q = q' then some .dir else fs.node q' := by
  obtain ⟨p', n, d, rfl, hstat, hd, hnone, rfl⟩ := mkdir_spec h
  exact ⟨d ++ [n], place_snoc hstat hd n, hnone, fun q' => node_set (by simp)⟩

theorem mkdir_mono (h : fs.mkdir p = .ok fs') {v : Node N C} (hq : fs.node q = some v) :
    fs'.node q = some v := by
  obtain ⟨q', -, hnone, hnode⟩ := mkdir_node h
  rw [hnode, if_neg, hq]
  rintro rfl
  rw [hnone] at hq
  cases hq

theorem isDir_of_mkdir (h : fs.mkdir p = .ok fs') : fs'.isDir p = true := by
  obtain ⟨p', n, d, rfl, hstat, hd, hnone, hfs'⟩ := mkdir_spec h
  have hstat' : fs'.stat p' = .ok d := walk_mono (fun q v => mkdir_mono h) hstat
  have hd' : fs'.node d = some .dir := mkdir_mono h hd
  have hn : fs'.node (d ++ [n]) = some .dir := by
    rw [hfs', node_set (by simp), if_pos rfl]
  rw [isDir_iff]
  refine ⟨d ++ [n], ?_, hn⟩
  rw [stat_snoc hstat' hd' n (by simp [hn]), hn]
  rfl

theorem mkdirOk_cases (h : fs.mkdirOk p = .ok fs') :
    fs.mkdir p = .ok fs' ∨ fs' = fs ∧ fs.isDir p = true := by
  unfold mkdirOk at h
  cases hmk : fs.mkdir p with
  | ok fs₁ =>
      rw [hmk] at h
      exact Or.inl h
  | error e =>
      rw [hmk] at h
      by_cases hdir : fs.isDir p = true
      · simp only [hdir, if_true] at h
        cases h
        exact Or.inr ⟨rfl, hdir⟩
      · simp only [hdir] at h
        cases h

theorem mkdirsRev_spec {I : Fs N C → Prop} {above : List (Comp N)} (h₀ : I fs)
    (hstep : ∀ fs fs' p, p <+: above.reverse → I fs → fs.mkdir p = .ok fs' → I fs')
    (h : fs.mkdirsRev above = .ok fs') : I fs' ∧ fs'.isDir above.reverse = true := by
  have hmkdirOk : ∀ fs fs' p, p <+: above.reverse → I fs → fs.mkdirOk p = .ok fs' →
      I fs' ∧ fs'.isDir p = true := by
    intro fs fs' p hp hI h
    obtain hmk | ⟨rfl, hdir⟩ := mkdirOk_cases h
    · exact ⟨hstep _ _ _ hp hI hmk, isDir_of_mkdir hmk⟩
    · exact ⟨hI, hdir⟩
  induction above generalizing fs' with
  | nil => exact hmkdirOk _ _ _ (List.prefix_refl _) h₀ h
  | cons c above ih =>
      have hbelow : above.reverse <+: (c :: above).reverse := by
        rw [List.reverse_cons]
        exact List.prefix_append _ _
      rw [mkdirsRev] at h
      split at h
      · split at h
        · cases h
        · rename_i fs₁ hrev
          obtain ⟨hI, -⟩ := ih (fun fs fs' p hp => hstep fs fs' p (hp.trans hbelow))
            hrev fun fs fs' p hp => hmkdirOk fs fs' p (hp.trans hbelow)
          exact hmkdirOk _ _ _ (List.prefix_refl _) hI h
      · exact hmkdirOk _ _ _ (List.prefix_refl _) h₀ h

/-- What each `mkdir` of a directory above preserves is preserved, and the directory is there. -/
theorem mkdirs_spec {I : Fs N C → Prop} (h₀ : I fs)
    (hstep : ∀ fs fs' p', p' <+: p → I fs → fs.mkdir p' = .ok fs' → I fs')
    (h : fs.mkdirs p = .ok fs') : I fs' ∧ fs'.isDir p = true := by
  have := mkdirsRev_spec h₀ (by rwa [List.reverse_reverse]) h
  rwa [List.reverse_reverse] at this

theorem rename_spec (h : fs.rename src dst = .ok fs') : ∃ s t v, fs.place src = .ok s ∧
    fs.place dst = .ok t ∧ fs.node s = some v ∧
    (s = t ∧ fs' = fs ∨ ¬ s <+: t ∧ fs' = fs.moveTree s t) := by
  unfold rename at h
  cases hs : fs.place src with
  | error e =>
      rw [hs] at h
      cases h
  | ok s =>
      cases ht : fs.place dst with
      | error e =>
          rw [hs, ht] at h
          cases h
      | ok t =>
          rw [hs, ht] at h
          simp only at h
          cases hv : fs.node s with
          | none =>
              rw [hv] at h
              cases h
          | some v =>
              rw [hv] at h
              refine ⟨s, t, v, rfl, rfl, hv, ?_⟩
              simp only at h
              split at h
              · rename_i hst
                cases h
                exact Or.inl ⟨hst, rfl⟩
              · split at h
                · cases h
                · rename_i hpre
                  right
                  refine ⟨hpre, ?_⟩
                  split at h
                  · split at h <;> cases h
                    rfl
                  · cases h
                  · cases h
                  · cases h
                    rfl

theorem rmdir_spec (h : fs.rmdir p = .ok fs') : ∃ q, fs.place p = .ok q ∧
    fs.node q = some .dir ∧ (∀ n, fs.node (q ++ [n]) = none) ∧ fs' = Dict.erase fs q := by
  unfold rmdir at h
  cases hq : fs.place p with
  | error e =>
      rw [hq] at h
      cases h
  | ok q =>
      rw [hq] at h
      simp only at h
      split at h
      · cases h
      · rename_i hdir
        split at h
        · rename_i hempty
          cases h
          exact ⟨q, rfl, hdir, names_isEmpty.mp hempty, rfl⟩
        · cases h
      · cases h

theorem rmdir_of_empty (hplace : fs.place p = .ok q) (hdir : fs.node q = some .dir)
    (hempty : ∀ n, fs.node (q ++ [n]) = none) : fs.rmdir p = .ok (Dict.erase fs q) := by
  unfold rmdir
  rw [hplace]
  simp only [hdir, names_isEmpty.mpr hempty, if_true]

end

end Fs

end Cbuild.Lib
