import Cbuild.Fetch.Download

/-! # What a fetch leaves behind

When the hook returns, the file of each source is one file with its entry in the cache, and it
has the declared sum. Of sources in this state the hook has nothing to fetch and nothing to
change.
-/

namespace Cbuild.Fetch

open Lib

variable {sha256 : Bytes → Str} {all ss tofetch : List Source} {d d₀ d' : Disk} {s t : Source}

/-- The file of the source is a link of its entry in the cache, and has the declared sum. -/
def Synced (sha256 : Bytes → Str) (d : Disk) (s : Source) : Prop :=
  ∃ i, d.src s.fname = some (.file i) ∧ d.cache s.key = some (.file i) ∧
    getCksum sha256 (d.content i) = some s.ck

theorem Synced.matches (h : Synced sha256 d s) : Matches sha256 d s := by
  obtain ⟨i, hi, -, hsum⟩ := h
  exact ⟨i, hi, hsum⟩

theorem Disk.setCache_cache (d : Disk) (key : Str) (n : Option Node) (key' : Str) :
    (d.setCache key n).cache key' = if key' = key then n else d.cache key' :=
  Function.update_apply d.cache key n key'

/-! ## One source -/

/-- Another link goes to the cache, for a source of its own or the same one. -/
theorem Synced.setCache (h : Synced sha256 d t) (hkeys : t.key = s.key → t.fname = s.fname)
    {i : Nat} (hi : d.src s.fname = some (.file i)) :
    Synced sha256 (d.setCache s.key (some (.file i))) t := by
  obtain ⟨j, hj, hcache, hsum⟩ := h
  refine ⟨j, hj, ?_, hsum⟩
  rw [Disk.setCache_cache]
  split
  · rename_i hk
    rw [← hi, ← hkeys hk, hj]
  · exact hcache

/-- The names and the keys of two sources tell them apart alike. -/
structure Apart (all : List Source) : Prop where
  names : NamesAgree all
  keys : KeysApart all

theorem Apart.key_eq (h : Apart all) (hs : s ∈ all) (ht : t ∈ all) (hn : t.fname = s.fname) :
    t.key = s.key := by
  unfold Source.key
  rw [hn, h.names t ht s hs hn]

theorem Apart.fname_eq (h : Apart all) (hs : s ∈ all) (ht : t ∈ all) (hk : t.key = s.key) :
    t.fname = s.fname :=
  (h.keys t ht s hs hk).1

/-- Every file of a source is in sync, as it is after the first loop. -/
def FilesSynced (sha256 : Bytes → Str) (all : List Source) (d : Disk) : Prop :=
  ∀ s ∈ all, IsFile (d.src s.fname) → Synced sha256 d s

theorem FilesSynced.step (hapart : Apart all) (h : FilesSynced sha256 all d) (hs : s ∈ all)
    {b : Bool} (hcase : LinkCase sha256 d s b d') :
    FilesSynced sha256 all d' ∧ (∀ t ∈ all, Synced sha256 d t → Synced sha256 d' t) ∧
      (b = true → Synced sha256 d' s) := by
  cases hcase with
  | kept hfile => exact ⟨h, fun _ _ hsync => hsync, fun _ => h s hs hfile⟩
  | left _ _ => exact ⟨h, fun _ _ hsync => hsync, nofun⟩
  | corrupt hname _ =>
      have hkeep : ∀ t ∈ all, Synced sha256 d t → Synced sha256 (d.setCache s.key none) t := by
        intro t ht hsync
        obtain ⟨i, hi, hcache, hsum⟩ := hsync
        refine ⟨i, hi, ?_, hsum⟩
        rw [Disk.setCache_cache, if_neg, hcache]
        intro hk
        rw [hapart.fname_eq hs ht hk, hname] at hi
        nomatch hi
      exact ⟨fun t ht hfile => hkeep t ht (h t ht hfile), hkeep, nofun⟩
  | linked j hname hj hsum =>
      have hself : ∀ t ∈ all, t.fname = s.fname →
          Synced sha256 (d.setSrc s.fname (some (.file j))) t := by
        intro t ht hn
        refine ⟨j, ?_, ?_, ?_⟩
        · rw [Disk.setSrc_src, if_pos hn]
        · rw [hapart.key_eq hs ht hn]
          exact hj
        · rw [hapart.names t ht s hs hn]
          exact hsum
      have hkeep : ∀ t ∈ all, Synced sha256 d t →
          Synced sha256 (d.setSrc s.fname (some (.file j))) t := by
        intro t ht hsync
        by_cases hn : t.fname = s.fname
        · exact hself t ht hn
        · obtain ⟨i, hi, hcache, hsum'⟩ := hsync
          refine ⟨i, ?_, hcache, hsum'⟩
          rw [Disk.setSrc_src, if_neg hn, hi]
      refine ⟨?_, hkeep, fun _ => hself s hs rfl⟩
      intro t ht hfile
      by_cases hn : t.fname = s.fname
      · exact hself t ht hn
      · rw [Disk.setSrc_src, if_neg hn] at hfile
        exact hkeep t ht (h t ht hfile)

theorem FetchStep.cache {p p' : Pool} (h : FetchStep tofetch p p') :
    p'.disk.cache = p.disk.cache := by
  cases h with
  | openFile => rfl
  | create => rfl
  | write => rfl
  | rename => split <;> rfl

theorem Exact.apart (hsha : Hexadecimal sha256) (h : Exact sha256 all d) : Apart all := by
  refine ⟨h.namesAgree, keysApart ?_⟩
  intro s hs
  obtain ⟨i, -, hsum⟩ := h s hs
  rw [← hsum]
  exact (hsha _).2

end Cbuild.Fetch
