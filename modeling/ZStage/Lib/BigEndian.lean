import Mathlib.Tactic.Ring

/-!
Big-endian numbers in a byte memory. A loop that shifts an accumulator left by one
word and ors the next word in reads the number that the bytes spell, modulo the
width of the accumulator.
-/

namespace ZStage.Lib.BigEndian

/-- The number that `n` bytes from `start` spell, the first one most significant. -/
def bigEndian (mem : Nat → UInt8) (start : Nat) : Nat → Nat
  | 0 => 0
  | n + 1 => bigEndian mem start n * 256 + (mem (start + n)).toNat

variable (mem : Nat → UInt8)

theorem bigEndian_add (start m n : Nat) :
    bigEndian mem start (m + n) =
      bigEndian mem start m * 256 ^ n + bigEndian mem (start + m) n := by
  induction n with
  | zero => simp [bigEndian]
  | succ n ih =>
    rw [← Nat.add_assoc, bigEndian, ih, bigEndian, Nat.pow_succ, Nat.add_assoc start m n]
    ring

theorem bigEndian_lt (start n : Nat) : bigEndian mem start n < 256 ^ n := by
  induction n with
  | zero => simp [bigEndian]
  | succ n ih =>
    have hbyte := (mem (start + n)).toNat_lt
    rw [bigEndian, Nat.pow_succ]
    omega

/-- The 32-bit word at `start`. -/
def word32 (start : Nat) : UInt32 := UInt32.ofNat (bigEndian mem start 4)

theorem word32_toNat (start : Nat) : (word32 mem start).toNat = bigEndian mem start 4 := by
  have := bigEndian_lt mem start 4
  exact UInt32.toNat_ofNat_of_lt' (by simpa using this)

/-- Shifting by one word and adding the next one is exact modulo the accumulator. -/
theorem shift_or_toNat (temp : UInt64) (c : UInt32) :
    (temp <<< 32 ||| c.toUInt64).toNat = (temp.toNat * 2 ^ 32 + c.toNat) % 2 ^ 64 := by
  have hc := c.toNat_lt
  have hsplit : temp.toNat * 2 ^ 32 % 2 ^ 64 = (temp.toNat % 2 ^ 32) <<< 32 := by
    rw [Nat.shiftLeft_eq]
    omega
  rw [UInt64.toNat_or, UInt64.toNat_shiftLeft, UInt32.toNat_toUInt64]
  have h32 : (32 : UInt64).toNat % 64 = 32 := rfl
  rw [h32, Nat.shiftLeft_eq, hsplit, ← Nat.shiftLeft_add_eq_or_of_lt hc, Nat.shiftLeft_eq]
  omega

end ZStage.Lib.BigEndian
