import Mathlib

/-! # Unsigned numbers in bytes

Records of unsigned numbers of given widths in either byte order. What is packed is unpacked again
if every number fits its width.
-/

namespace Cbuild.Lib.Struct

inductive Endian
  | little
  | big
  deriving DecidableEq

/-- The number that bytes stand for. -/
def ofBytes : Endian → List UInt8 → Nat
  | .little, bytes => Nat.ofDigits 256 (bytes.map UInt8.toNat)
  | .big, bytes => Nat.ofDigits 256 (bytes.reverse.map UInt8.toNat)

/-- The last bytes of a number, the lowest first. -/
def lowBytes : Nat → Nat → List UInt8
  | 0, _ => []
  | w + 1, n => UInt8.ofNat n :: lowBytes w (n / 256)

/-- A number in `w` bytes. -/
def toBytes : Endian → Nat → Nat → List UInt8
  | .little, w, n => lowBytes w n
  | .big, w, n => (lowBytes w n).reverse

theorem length_lowBytes (w n : Nat) : (lowBytes w n).length = w := by
  induction w generalizing n with
  | zero => rfl
  | succ w ih => exact congrArg (· + 1) (ih (n / 256))

theorem length_toBytes (e : Endian) (w n : Nat) : (toBytes e w n).length = w := by
  cases e with
  | little => exact length_lowBytes w n
  | big => exact (List.length_reverse).trans (length_lowBytes w n)

theorem ofDigits_lowBytes {w n : Nat} (h : n < 256 ^ w) :
    Nat.ofDigits 256 ((lowBytes w n).map UInt8.toNat) = n := by
  induction w generalizing n with
  | zero =>
      have hzero : n = 0 := Nat.lt_one_iff.mp h
      rw [hzero]
      rfl
  | succ w ih =>
      have hdiv : n / 256 < 256 ^ w := by
        rw [pow_succ, Nat.mul_comm] at h
        exact Nat.div_lt_of_lt_mul h
      have hlow : (UInt8.ofNat n).toNat = n % 256 := UInt8.toNat_ofNat'
      unfold lowBytes
      rw [List.map_cons, Nat.ofDigits_cons, ih hdiv, hlow]
      exact Nat.mod_add_div n 256

theorem ofBytes_toBytes (e : Endian) {w n : Nat} (h : n < 256 ^ w) :
    ofBytes e (toBytes e w n) = n := by
  cases e with
  | little => exact ofDigits_lowBytes h
  | big =>
      unfold ofBytes toBytes
      dsimp only
      rw [List.reverse_reverse]
      exact ofDigits_lowBytes h

theorem lowBytes_ofDigits (bytes : List UInt8) :
    lowBytes bytes.length (Nat.ofDigits 256 (bytes.map UInt8.toNat)) = bytes := by
  induction bytes with
  | nil => rfl
  | cons b bytes ih =>
      have hb : b.toNat < 256 := b.toNat_lt
      rw [List.map_cons, Nat.ofDigits_cons, List.length_cons]
      unfold lowBytes
      have hdiv : (b.toNat + 256 * Nat.ofDigits 256 (bytes.map UInt8.toNat)) / 256 =
          Nat.ofDigits 256 (bytes.map UInt8.toNat) := by omega
      have hlow : UInt8.ofNat (b.toNat + 256 * Nat.ofDigits 256 (bytes.map UInt8.toNat)) = b := by
        apply UInt8.toNat_inj.mp
        rw [UInt8.toNat_ofNat']
        omega
      rw [hlow, hdiv, ih]

theorem toBytes_ofBytes (e : Endian) (bytes : List UInt8) :
    toBytes e bytes.length (ofBytes e bytes) = bytes := by
  cases e with
  | little => exact lowBytes_ofDigits bytes
  | big =>
      have hlow := lowBytes_ofDigits bytes.reverse
      rw [List.length_reverse] at hlow
      unfold toBytes ofBytes
      dsimp only
      rw [hlow, List.reverse_reverse]

/-! ## Records -/

/-- The numbers of a record, whose widths are given. -/
def unpack (e : Endian) : List Nat → List UInt8 → List Nat
  | [], _ => []
  | w :: ws, bytes => ofBytes e (bytes.take w) :: unpack e ws (bytes.drop w)

/-- A record of numbers with their widths. -/
def pack (e : Endian) : List (Nat × Nat) → List UInt8
  | [] => []
  | (w, n) :: rest => toBytes e w n ++ pack e rest

theorem length_pack (e : Endian) (l : List (Nat × Nat)) :
    (pack e l).length = (l.map Prod.fst).sum := by
  induction l with
  | nil => rfl
  | cons p l ih =>
      unfold pack
      rw [List.length_append, length_toBytes, ih, List.map_cons, List.sum_cons]

theorem unpack_pack (e : Endian) (l : List (Nat × Nat)) (h : ∀ p ∈ l, p.2 < 256 ^ p.1) :
    unpack e (l.map Prod.fst) (pack e l) = l.map Prod.snd := by
  induction l with
  | nil => rfl
  | cons p l ih =>
      obtain ⟨w, n⟩ := p
      rw [List.forall_mem_cons] at h
      rw [List.map_cons, List.map_cons]
      unfold unpack pack
      have htake : (toBytes e w n ++ pack e l).take w = toBytes e w n :=
        List.take_left' (length_toBytes e w n)
      have hdrop : (toBytes e w n ++ pack e l).drop w = pack e l :=
        List.drop_left' (length_toBytes e w n)
      rw [htake, hdrop, ofBytes_toBytes e h.1, ih h.2]

end Cbuild.Lib.Struct
