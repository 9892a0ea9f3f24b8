import ZStage.Lib.BigEndian
import ZStage.Lib.Lexicographic

/-!
Bytes that stand at a place. What is laid out one after the other stands at the places
that the lengths in front of it give, and a word there is the number that its bytes
spell.
-/

namespace ZStage.Lib.ByteLayout

open ZStage.Lib.BigEndian ZStage.Lib.Lexicographic

/-- The bytes stand from byte `p` on. -/
def StandsAt (s : Nat → UInt8) (p : Nat) (xs : List UInt8) : Prop :=
  initial (fun i => s (p + i)) xs.length = xs

/-- A list of bytes, with zeros behind them. -/
def layOut (xs : List UInt8) : Nat → UInt8 := fun i => xs.getD i 0

/-- Bytes with zeros up to the next word. -/
def padded (xs : List UInt8) : List UInt8 :=
  xs ++ List.replicate ((xs.length + 3) / 4 * 4 - xs.length) 0

/-- The bytes of a 32-bit word. -/
def wordBytes (c : UInt32) : List UInt8 :=
  [(c >>> 24).toUInt8, (c >>> 16).toUInt8, (c >>> 8).toUInt8, c.toUInt8]

variable {s : Nat → UInt8} {p : Nat} {xs ys : List UInt8}

theorem standsAt_iff : StandsAt s p xs ↔ ∀ i (h : i < xs.length), s (p + i) = xs[i] := by
  constructor
  · intro hstands i hi
    have hget := congrArg (fun l : List UInt8 => l[i]?) hstands
    simp only [initial, List.getElem?_map, List.getElem?_range hi, Option.map_some,
      List.getElem?_eq_getElem hi, Option.some.injEq] at hget
    exact hget
  · intro hall
    apply List.ext_getElem
    · rw [initial_length]
    · intro i _ hi
      simp only [initial, List.getElem_map, List.getElem_range]
      exact hall i hi

theorem standsAt_layOut : StandsAt (layOut xs) 0 xs := by
  rw [standsAt_iff]
  intro i hi
  rw [layOut, Nat.zero_add, List.getD_eq_getElem?_getD, List.getElem?_eq_getElem hi,
    Option.getD_some]

/-- What is laid out behind something else stands behind it. -/
theorem standsAt_append :
    StandsAt s p (xs ++ ys) ↔ StandsAt s p xs ∧ StandsAt s (p + xs.length) ys := by
  simp only [standsAt_iff]
  constructor
  · intro hall
    refine ⟨?_, ?_⟩
    · intro i hi
      rw [hall i (by rw [List.length_append]; omega), List.getElem_append_left hi]
    · intro i hi
      rw [Nat.add_assoc, hall (xs.length + i) (by rw [List.length_append]; omega),
        List.getElem_append_right (Nat.le_add_right _ _)]
      congr 1
      omega
  · rintro ⟨hfirst, hlast⟩ i hi
    by_cases hin : i < xs.length
    · rw [hfirst i hin, List.getElem_append_left hin]
    · rw [List.length_append] at hi
      have hbehind := hlast (i - xs.length) (by omega)
      rw [Nat.add_assoc, show xs.length + (i - xs.length) = i by omega] at hbehind
      rw [hbehind, List.getElem_append_right (Nat.le_of_not_lt hin)]

theorem StandsAt.of_front (h : StandsAt s p ys) (hfront : xs <+: ys) : StandsAt s p xs := by
  obtain ⟨rest, rfl⟩ := hfront
  exact (standsAt_append.1 h).1

@[simp] theorem length_padded : (padded xs).length = (xs.length + 3) / 4 * 4 := by
  rw [padded, List.length_append, List.length_replicate]
  omega

@[simp] theorem length_wordBytes (c : UInt32) : (wordBytes c).length = 4 := rfl

/-- The bytes of a word that stands somewhere spell it. -/
theorem bigEndian_of_standsAt {c : UInt32} (h : StandsAt s p (wordBytes c)) :
    bigEndian s p 4 = c.toNat := by
  have hbytes := standsAt_iff.1 h
  have h0 : s (p + 0) = (c >>> 24).toUInt8 := hbytes 0 (by rw [length_wordBytes]; decide)
  have h1 : s (p + 1) = (c >>> 16).toUInt8 := hbytes 1 (by rw [length_wordBytes]; decide)
  have h2 : s (p + 2) = (c >>> 8).toUInt8 := hbytes 2 (by rw [length_wordBytes]; decide)
  have h3 : s (p + 3) = c.toUInt8 := hbytes 3 (by rw [length_wordBytes]; decide)
  have hshift (k : UInt32) : (c >>> k).toUInt8.toNat = c.toNat / 2 ^ (k.toNat % 32) % 2 ^ 8 := by
    rw [UInt32.toNat_toUInt8, UInt32.toNat_shiftRight, Nat.shiftRight_eq_div_pow]
  have hlt := c.toNat_lt
  simp only [bigEndian, h0, h1, h2, h3, hshift, UInt32.toNat_toUInt8]
  simp only [UInt32.reduceToNat, Nat.reduceMod]
  omega

end ZStage.Lib.ByteLayout
