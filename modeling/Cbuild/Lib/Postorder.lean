import Cbuild.Lib.Fueled
import Cbuild.Lib.Search
import Cbuild.Lib.Topo

/-! # Depth-first search in post-order

A search marks a node when it enters it and lists it when it leaves it. In a graph without
cycles every node is then listed after all that it depends on.
-/

namespace Cbuild.Lib

variable {N : Type*} {g : N → Option (List N)} {stack visited ordered new : List N} {d x y : N}

/-- A search that goes on: `stack` has been entered and not left, `ordered` has been left. -/
structure Postorder (g : N → Option (List N)) (stack visited ordered : List N) : Prop where
  nodup : ordered.Nodup
  visited_iff : ∀ x, x ∈ visited ↔ x ∈ ordered ∨ x ∈ stack
  apart : ∀ x ∈ stack, x ∉ ordered
  readable : ∀ x ∈ ordered, (g x).isSome = true
  after : ∀ x ∈ ordered, ∀ y, Edge g x y → Precedes y x ordered

theorem precedes_append_right (h : Precedes x y ordered) (new : List N) :
    Precedes x y (ordered ++ new) :=
  List.Sublist.trans h (List.sublist_append_left ordered new)

theorem precedes_last (h : x ∈ ordered) (d : N) : Precedes x d (ordered ++ [d]) :=
  (List.singleton_sublist.mpr h).append (List.Sublist.refl [d])

namespace Postorder

theorem start (g : N → Option (List N)) : Postorder g [] [] [] where
  nodup := List.nodup_nil
  visited_iff := by simp
  apart := by simp
  readable := by simp
  after := by simp

theorem enter (h : Postorder g stack visited ordered) (hd : d ∉ visited) :
    Postorder g (d :: stack) (d :: visited) ordered where
  nodup := h.nodup
  visited_iff := by
    intro x
    rw [List.mem_cons, List.mem_cons, h.visited_iff]
    tauto
  apart := by
    rw [List.forall_mem_cons]
    exact ⟨fun hmem => hd ((h.visited_iff d).mpr (Or.inl hmem)), h.apart⟩
  readable := h.readable
  after := h.after

/-- A node is left when all it depends on is listed. -/
theorem leave (h : Postorder g (d :: stack) visited ordered) (hd : d ∉ stack)
    (hread : (g d).isSome = true) (hdeps : ∀ y, Edge g d y → y ∈ ordered) :
    Postorder g stack visited (ordered ++ [d]) where
  nodup := by
    rw [List.nodup_append]
    refine ⟨h.nodup, List.nodup_singleton d, fun x hx y hy => ?_⟩
    rw [List.mem_singleton.mp hy]
    rintro rfl
    exact h.apart x (List.mem_cons_self ..) hx
  visited_iff := by
    intro x
    rw [h.visited_iff, List.mem_append, List.mem_singleton, List.mem_cons]
    tauto
  apart := by
    intro x hx hmem
    rw [List.mem_append, List.mem_singleton] at hmem
    rcases hmem with hmem | rfl
    · exact h.apart x (List.mem_cons_of_mem d hx) hmem
    · exact hd hx
  readable := by
    intro x hx
    rw [List.mem_append, List.mem_singleton] at hx
    rcases hx with hx | rfl
    · exact h.readable x hx
    · exact hread
  after := by
    intro x hx y hxy
    rw [List.mem_append, List.mem_singleton] at hx
    rcases hx with hx | rfl
    · exact precedes_append_right (h.after x hx y hxy) [d]
    · exact precedes_last (hdeps y hxy) x

/-- What is listed comes with all that it depends on. -/
theorem closed (h : Postorder g stack visited ordered) (hx : x ∈ ordered)
    (hxy : Relation.ReflTransGen (Edge g) x y) : y ∈ ordered := by
  induction hxy with
  | refl => exact hx
  | tail _ hedge ih => exact (h.after _ ih _ hedge).mem_left

/-- A node that has been visited has been left, if all that is on the stack depends on it. -/
theorem listed (h : Postorder g stack visited ordered) (hacyclic : Acyclic (Edge g))
    (hstack : ∀ s ∈ stack, Relation.TransGen (Edge g) s d) (hd : d ∈ visited) : d ∈ ordered := by
  refine ((h.visited_iff d).mp hd).resolve_right (fun hmem => ?_)
  exact hacyclic d (hstack d hmem)

end Postorder

/-- The nodes that are listed after a search from some roots, besides those that were before. -/
structure Searched (g : N → Option (List N)) (stack ordered : List N) (root : N → Prop)
    (visited' ordered' : List N) : Prop where
  post : Postorder g stack visited' ordered'
  grows : ordered ⊆ ordered'
  roots : ∀ d, root d → d ∈ ordered'
  sound : ∀ x ∈ ordered', x ∈ ordered ∨ ∃ d, root d ∧ Relation.ReflTransGen (Edge g) d x

namespace Searched

variable {visited₁ visited₂ ordered₁ ordered₂ : List N} {root root' : N → Prop}

theorem nil (h : Postorder g stack visited ordered) (hroot : ∀ d, ¬root d) :
    Searched g stack ordered root visited ordered where
  post := h
  grows := List.Subset.refl _
  roots := fun d hd => (hroot d hd).elim
  sound := fun _ hx => Or.inl hx

theorem skip (h : Postorder g stack visited ordered) (hd : d ∈ ordered) :
    Searched g stack ordered (· = d) visited ordered where
  post := h
  grows := List.Subset.refl _
  roots := by
    rintro _ rfl
    exact hd
  sound := fun _ hx => Or.inl hx

theorem visit (h : Searched g (d :: stack) ordered (Edge g d) visited₁ ordered₁)
    (hd : d ∉ stack) (hread : (g d).isSome = true) :
    Searched g stack ordered (· = d) visited₁ (ordered₁ ++ [d]) where
  post := h.post.leave hd hread h.roots
  grows := fun x hx => List.mem_append_left [d] (h.grows hx)
  roots := by
    rintro _ rfl
    exact List.mem_append_right _ (List.mem_singleton_self _)
  sound := by
    intro x hx
    rw [List.mem_append, List.mem_singleton] at hx
    rcases hx with hx | rfl
    · rcases h.sound x hx with hold | ⟨y, hy, hreach⟩
      · exact Or.inl hold
      · exact Or.inr ⟨d, rfl, .head hy hreach⟩
    · exact Or.inr ⟨x, rfl, .refl⟩

theorem append (h : Searched g stack ordered root visited₁ ordered₁)
    (h' : Searched g stack ordered₁ root' visited₂ ordered₂) :
    Searched g stack ordered (fun d => root d ∨ root' d) visited₂ ordered₂ where
  post := h'.post
  grows := fun _ hx => h'.grows (h.grows hx)
  roots := by
    intro d hd
    rcases hd with hd | hd
    · exact h'.grows (h.roots d hd)
    · exact h'.roots d hd
  sound := by
    intro x hx
    rcases h'.sound x hx with hx | ⟨d, hd, hreach⟩
    · rcases h.sound x hx with hx | ⟨d, hd, hreach⟩
      · exact Or.inl hx
      · exact Or.inr ⟨d, Or.inl hd, hreach⟩
    · exact Or.inr ⟨d, Or.inr hd, hreach⟩

theorem congr (h : Searched g stack ordered root visited₁ ordered₁)
    (hroot : ∀ d, root d ↔ root' d) : Searched g stack ordered root' visited₁ ordered₁ where
  post := h.post
  grows := h.grows
  roots := fun d hd => h.roots d ((hroot d).mpr hd)
  sound := by
    intro x hx
    rcases h.sound x hx with hx | ⟨d, hd, hreach⟩
    · exact Or.inl hx
    · exact Or.inr ⟨d, (hroot d).mp hd, hreach⟩

/-- After a search from the beginning exactly what the roots depend on is listed. -/
theorem mem_iff (h : Searched g [] [] root visited₁ ordered₁) (x : N) :
    x ∈ ordered₁ ↔ ∃ d, root d ∧ Relation.ReflTransGen (Edge g) d x := by
  constructor
  · intro hx
    exact (h.sound x hx).resolve_left List.not_mem_nil
  · intro hx
    obtain ⟨d, hd, hreach⟩ := hx
    exact h.post.closed (h.roots d hd) hreach

end Searched

/-! ## Searches that raise -/

theorem Postorder.visited_subset {visited' ordered' : List N} (h : Postorder g stack visited ordered)
    (h' : Postorder g stack visited' ordered') (hgrows : ordered ⊆ ordered') :
    visited ⊆ visited' := by
  intro x hx
  rw [h'.visited_iff]
  exact ((h.visited_iff x).mp hx).imp_left (fun hmem => hgrows hmem)

section

variable {N ε A : Type} {g : N → Option (List N)} {stack ordered : List N}

/-- A program that searches from the roots and returns what is visited and listed, or
raises. -/
def Searches (g : N → Option (List N)) (stack ordered : List N) (root : N → Prop)
    (bad : ε → Prop) (p : Fueled ε (List N × List N)) : Prop :=
  (∃ s, p.Returns s ∧ Searched g stack ordered root s.1 s.2) ∨ ∃ e, p.Raises e ∧ bad e

namespace Searches

theorem of_searched {root : N → Prop} {bad : ε → Prop} {s : List N × List N}
    (h : Searched g stack ordered root s.1 s.2) : Searches g stack ordered root bad (pure s) :=
  Or.inl ⟨s, Fueled.pure_returns.mpr rfl, h⟩

theorem of_raised {root : N → Prop} {bad : ε → Prop} {e : ε} (h : bad e) :
    Searches g stack ordered root bad (throw e) :=
  Or.inr ⟨e, Fueled.throw_raises.mpr rfl, h⟩

theorem imp {root root' : N → Prop} {bad bad' : ε → Prop} {p : Fueled ε (List N × List N)}
    (h : Searches g stack ordered root bad p) (hroot : ∀ d, root d ↔ root' d)
    (hbad : ∀ e, bad e → bad' e) : Searches g stack ordered root' bad' p := by
  rcases h with ⟨s, hs, hsearched⟩ | ⟨e, he, hbad'⟩
  · exact Or.inl ⟨s, hs, hsearched.congr hroot⟩
  · exact Or.inr ⟨e, he, hbad e hbad'⟩

/-- Searches that follow one another, none of which loses what is listed. -/
theorem foldlM {root : A → N → Prop} {bad : A → ε → Prop} {l : List A}
    {f : List N × List N → A → Fueled ε (List N × List N)} {s : List N × List N}
    (hone : ∀ a ∈ l, ∀ s, Postorder g stack s.1 s.2 → ordered ⊆ s.2 →
      Searches g stack s.2 (root a) (bad a) (f s a))
    (h : Postorder g stack s.1 s.2) (hgrows : ordered ⊆ s.2) :
    Searches g stack s.2 (fun d => ∃ a ∈ l, root a d) (fun e => ∃ a ∈ l, bad a e)
      (l.foldlM f s) := by
  induction l generalizing s with
  | nil =>
      refine of_searched (Searched.nil h (fun d hd => ?_))
      obtain ⟨a, ha, _⟩ := hd
      exact List.not_mem_nil ha
  | cons a l ih =>
      rw [List.foldlM_cons]
      rcases hone a List.mem_cons_self s h hgrows with ⟨s₁, hs₁, hfirst⟩ | ⟨e, he, hbad⟩
      · have hrest := ih (fun b hb => hone b (List.mem_cons_of_mem a hb)) hfirst.post
          (List.Subset.trans hgrows hfirst.grows)
        rcases hrest with ⟨s₂, hs₂, hsecond⟩ | ⟨e, he, b, hb, hbad⟩
        · refine Or.inl ⟨s₂, Fueled.bind_returns.mpr ⟨s₁, hs₁, hs₂⟩, ?_⟩
          exact (hfirst.append hsecond).congr (fun d => by simp)
        · exact Or.inr ⟨e, Fueled.bind_raises.mpr (Or.inr ⟨s₁, hs₁, he⟩), b,
            List.mem_cons_of_mem a hb, hbad⟩
      · exact Or.inr ⟨e, Fueled.bind_raises.mpr (Or.inl he), a, List.mem_cons_self, hbad⟩

end Searches

end

end Cbuild.Lib
