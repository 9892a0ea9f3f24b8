import ZStage.Main.Handover

/-!
`memmove` of `firmware/string.c`. It compares the two pointers and copies upwards
or downwards, so that no byte of the source is overwritten before it is read;
`memcpy` is its upward loop alone.
-/

namespace ZStage.Libc

open ZStage.Lib.ByteMemory ZStage.Main

variable {w : Nat}

def memmoveDown (temp1 temp2 : BitVec w) : Nat → Memory w → Memory w
  | 0, m => m
  | count + 1, m =>
    memmoveDown (temp1 - 1) (temp2 - 1) count (fun x => if x = temp1 then m temp2 else m x)

/-- `memmove`: the pointer returned and the memory. The upward loop is that of `memcpy`. -/
def memmove (dest src : BitVec w) (count : Nat) (m : Memory w) : BitVec w × Memory w :=
  if src = dest then (dest, m)
  else if dest < src then (dest, memcpy dest src count m)
  else
    let temp1 := dest + BitVec.ofNat w count - 1
    let temp2 := src + BitVec.ofNat w count - 1
    (dest, memmoveDown temp1 temp2 count m)

theorem memmoveDown_eq_move (dest src : BitVec w) (count : Nat) (m : Memory w)
    (hsafe : (dest - src).toNat + count ≤ 2 ^ w) :
    memmoveDown (dest + BitVec.ofNat w count - 1) (src + BitVec.ofNat w count - 1) count m =
      move dest src count m := by
  induction count generalizing m with
  | zero => exact (move_zero dest src m).symm
  | succ count ih =>
      have hlast (a : BitVec w) :
          a + BitVec.ofNat w (count + 1) - 1 = a + BitVec.ofNat w count := by
        rw [BitVec.ofNat_add, ← BitVec.add_assoc]
        exact BitVec.add_sub_cancel _ _
      have hstep := move_move_prepend dest src count 1 m hsafe
      rw [memmoveDown, hlast, hlast, set_eq_move, ih _ (by omega)]
      exact hstep

/-- For every distance between ranges that do not reach round the top, the loop that
`memmove` chooses is the one that is safe. -/
theorem memmove_eq_move (dest src : BitVec w) (count : Nat) (m : Memory w)
    (hsrc : src.toNat + count ≤ 2 ^ w) (hdest : dest.toNat + count ≤ 2 ^ w) :
    memmove dest src count m = (dest, move dest src count m) := by
  have hup := toNat_sub_cases src dest
  have hdown := toNat_sub_cases dest src
  unfold memmove
  split
  · rename_i heq
    rw [heq, move_self]
  · split
    · rename_i hlt
      have hle : dest.toNat < src.toNat := hlt
      rw [if_pos (by omega)] at hup
      rw [memcpy_eq_move dest src count m (by omega)]
    · rename_i hne hlt
      have hle : src.toNat ≤ dest.toNat := Nat.le_of_not_lt hlt
      rw [if_pos hle] at hdown
      have hmove := memmoveDown_eq_move dest src count m (by omega)
      exact congrArg (Prod.mk dest) hmove

/-- `memmove` moves its range for every overlap and changes nothing else, and `memcpy` is as
good where the ranges share no byte or the destination is not above the source. -/
theorem memmove_moves (dest src : BitVec w) (count : Nat) (m : Memory w)
    (hsrc : src.toNat + count ≤ 2 ^ w) (hdest : dest.toNat + count ≤ 2 ^ w) :
    (memmove dest src count m).1 = dest ∧
    (∀ i, i < count →
      (memmove dest src count m).2 (dest + BitVec.ofNat w i) = m (src + BitVec.ofNat w i)) ∧
    (∀ x, ¬ InRange dest count x → (memmove dest src count m).2 x = m x) ∧
    (Disjoint dest count src count ∨ dest.toNat ≤ src.toNat →
      memcpy dest src count m = (memmove dest src count m).2) := by
  rw [memmove_eq_move dest src count m hsrc hdest]
  refine ⟨rfl, ?_, ?_, ?_⟩
  · intro i hi
    exact move_inside dest src count i m hi (by omega)
  · intro x hx
    exact move_of_not_inRange dest src x count m hx
  · intro hforward
    apply memcpy_eq_move
    apply forward_safe
    exact hforward.imp_right (fun hle => ⟨hle, hsrc⟩)

theorem memmove_moves_up_by_one :
    let m : Memory 8 := fun x => UInt8.ofNat x.toNat
    (memmove 17 16 4 m).1 = 17 ∧
    (∀ i, i < 4 → (memmove 17 16 4 m).2 (17 + BitVec.ofNat 8 i) = m (16 + BitVec.ofNat 8 i)) ∧
    (∀ x, ¬ InRange 17 4 x → (memmove 17 16 4 m).2 x = m x) ∧
    (Disjoint (17 : BitVec 8) 4 16 4 ∨ (17 : BitVec 8).toNat ≤ (16 : BitVec 8).toNat →
      memcpy 17 16 4 m = (memmove 17 16 4 m).2) :=
  memmove_moves 17 16 4 _ (by decide) (by decide)

end ZStage.Libc
