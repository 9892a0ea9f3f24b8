import ZStage.Main.Handover

/-!
`platform_prepare_fdt` on its own: an FDT of any size, at any address that the
previous booting stage chose, copied to the address in the image header. The copy is
the forward loop of `memcpy`, so a destination that starts inside the FDT fills up
with the bytes in front of it, over and over. The FDT arrives intact exactly when
that does not happen or does not show.
-/

namespace ZStage.Main

open ZStage.Lib.ByteMemory ZStage.Lib.CopySequence

section Memcpy

variable {w : Nat}

/-- The `n` bytes at `a` repeat at distance `d`. -/
def Repeats (m : Memory w) (a : BitVec w) (n d : Nat) : Prop :=
  ∀ i, i + d < n → m (a + BitVec.ofNat w (i + d)) = m (a + BitVec.ofNat w i)

theorem memcpy_of_not_inRange (dest src x : BitVec w) (count : Nat) (m : Memory w)
    (hcount : count ≤ 2 ^ w) (hx : ¬ InRange dest count x) : memcpy dest src count m x = m x := by
  rw [memcpy_eq_copyUp]
  apply copyUp_of_not_inRange
  · rw [Nat.one_mul]
    exact hcount
  · rw [Nat.one_mul]
    exact hx

/-- Bytes that repeat at distance `d` are the first `d` of them, over and over. -/
theorem repeats_iff (m : Memory w) (a : BitVec w) (n d : Nat) :
    Repeats m a n d ↔
      ∀ i, i < n → m (a + BitVec.ofNat w (i % d)) = m (a + BitVec.ofNat w i) := by
  constructor
  · intro h i hi
    induction i using Nat.strongRecOn with
    | ind i ih =>
        by_cases hpast : 0 < d ∧ d ≤ i
        · have hstep := h (i - d) (by omega)
          rw [Nat.sub_add_cancel hpast.2] at hstep
          rw [hstep, Nat.mod_eq_sub_mod hpast.2]
          exact ih (i - d) (by omega) (by omega)
        · rcases Nat.eq_zero_or_pos d with rfl | hpos
          · rw [Nat.mod_zero]
          · rw [Nat.mod_eq_of_lt (by omega)]
  · intro h i hi
    rw [← h (i + d) hi, Nat.add_mod_right]
    exact h i (by omega)

/-- When the forward byte loop copies its range, over all overlaps. -/
theorem memcpy_copies_iff (dest src : BitVec w) (count : Nat) (m : Memory w)
    (hsrc : src.toNat + count ≤ 2 ^ w) (hdest : dest.toNat + count ≤ 2 ^ w) :
    (∀ i, i < count →
        memcpy dest src count m (dest + BitVec.ofNat w i) = m (src + BitVec.ofNat w i)) ↔
      dest.toNat ≤ src.toNat ∨ src.toNat + count ≤ dest.toNat ∨
        Repeats m src count (dest.toNat - src.toNat) := by
  have hcyc := toNat_sub_cases dest src
  have hloop (i : Nat) (hi : i < count) := copyUp_repeats dest src count m (by omega) i hi
  rcases Nat.lt_or_ge src.toNat dest.toNat with hlt | hle
  · rw [if_pos (Nat.le_of_lt hlt)] at hcyc
    rw [hcyc] at hloop
    have hiff : (∀ i, i < count →
        memcpy dest src count m (dest + BitVec.ofNat w i) = m (src + BitVec.ofNat w i)) ↔
          Repeats m src count (dest.toNat - src.toNat) := by
      rw [repeats_iff, memcpy_eq_copyUp]
      constructor
      · intro h i hi
        rw [← hloop i hi]
        exact h i hi
      · intro h i hi
        rw [hloop i hi]
        exact h i hi
    rw [hiff]
    constructor
    · exact fun h => Or.inr (Or.inr h)
    · rintro (hle | hapart | h)
      · omega
      · intro i hi
        omega
      · exact h
  · have hcopied : memcpy dest src count m = move dest src count m := by
      apply memcpy_eq_move
      exact forward_safe dest src count (Or.inr ⟨hle, hsrc⟩)
    rw [hcopied]
    constructor
    · exact fun _ => Or.inl hle
    · intro _ i hi
      exact move_inside dest src count i m hi (by omega)

end Memcpy

variable {b : Nat}

theorem fdt32_lt {w : Nat} (m : Memory w) (a : BitVec w) : fdt32 m a < 2 ^ 32 := by
  have h0 := (m (a + BitVec.ofNat w 0)).toNat_lt
  have h1 := (m (a + BitVec.ofNat w 1)).toNat_lt
  have h2 := (m (a + BitVec.ofNat w 2)).toNat_lt
  have h3 := (m (a + BitVec.ofNat w 3)).toNat_lt
  simp only [fdt32]
  omega

def FdtIntact (env : Env b) (bootArg1 hdr : BitVec (8 * b)) (m : Memory (8 * b)) : Prop :=
  let dst := ptr b (hdrField m hdr .nextFdtAddr)
  let after := (platformPrepareFdt env bootArg1 hdr m).2
  (platformPrepareFdt env bootArg1 hdr m).1 = 0 ∧
  (∀ i, i < fdtTotalsize m bootArg1 →
    after (dst + BitVec.ofNat (8 * b) i) = m (bootArg1 + BitVec.ofNat (8 * b) i)) ∧
  ∀ x, ¬ InRange dst (fdtTotalsize m bootArg1) x → ¬ env.own x → after x = m x

/-- What the forward copy of the FDT asks of the two addresses and of the bytes. -/
def FdtForward (bootArg1 hdr : BitVec (8 * b)) (m : Memory (8 * b)) : Prop :=
  let dst := ptr b (hdrField m hdr .nextFdtAddr)
  dst.toNat ≤ bootArg1.toNat ∨ bootArg1.toNat + fdtTotalsize m bootArg1 ≤ dst.toNat ∨
    Repeats m bootArg1 (fdtTotalsize m bootArg1) (dst.toNat - bootArg1.toNat)

/-- With the header of the FDT and the one of the image apart from zStage's own memory, the
function copies the FDT, in a memory that differs from the first in zStage's own. -/
theorem platformPrepareFdt_eq (env : Env b) (hb : b = 4 ∨ b = 8) (bootArg1 hdr : BitVec (8 * b))
    (m : Memory (8 * b)) (hmagic : fdt32 m bootArg1 = fdtMagic)
    (hconst : ∀ x, InRange hdr headerSize x → ¬ env.own x)
    (hhead : ∀ x, InRange bootArg1 8 x → ¬ env.own x) :
    ∃ m', Within env.own m m' ∧ platformPrepareFdt env bootArg1 hdr m =
      (0, memcpy (ptr b (hdrField m hdr .nextFdtAddr)) bootArg1 (fdtTotalsize m bootArg1) m') := by
  -- the memory in which the header of the FDT is read, and the one that is copied
  generalize hm1 : env.touch (.platformPrepareFdt bootArg1 hdr) m = m1
  generalize hm2 : env.touch .memcpy m1 = m2
  have hown1 : Within env.own m m1 := hm1 ▸ env.within _ m
  obtain ⟨hmagic1, htotal1⟩ := fdtWords_kept hb hhead hown1
  rw [hmagic] at hmagic1
  have hfield1 := hdrField_kept hb hconst hown1
  have hsize : sizeT b (fdtTotalsize m bootArg1) = fdtTotalsize m bootArg1 := by
    apply Nat.mod_eq_of_lt
    have hword32 := fdt32_lt m (bootArg1 + BitVec.ofNat (8 * b) 4)
    apply Nat.lt_of_lt_of_le hword32
    rcases hb with rfl | rfl <;> decide
  refine ⟨m2, hown1.trans (hm2 ▸ env.within _ m1), ?_⟩
  simp only [platformPrepareFdt, hm1, hmagic1, ne_eq, not_true, if_false, callMemcpy, hm2,
    htotal1, hfield1, hsize]

theorem fdtIntact_iff_forward (env : Env b) (hb : b = 4 ∨ b = 8) (bootArg1 hdr : BitVec (8 * b))
    (m : Memory (8 * b)) (hmagic : fdt32 m bootArg1 = fdtMagic)
    (hsrc : bootArg1.toNat + fdtTotalsize m bootArg1 ≤ 2 ^ (8 * b))
    (hdest : (ptr b (hdrField m hdr .nextFdtAddr)).toNat + fdtTotalsize m bootArg1 ≤ 2 ^ (8 * b))
    (hconst : ∀ x, InRange hdr headerSize x → ¬ env.own x)
    (hhead : ∀ x, InRange bootArg1 8 x → ¬ env.own x)
    (hfdt : ∀ x, InRange bootArg1 (fdtTotalsize m bootArg1) x → ¬ env.own x) :
    FdtIntact env bootArg1 hdr m ↔ FdtForward bootArg1 hdr m := by
  obtain ⟨m', hown, hrun⟩ := platformPrepareFdt_eq env hb bootArg1 hdr m hmagic hconst hhead
  have hbyte (i : Nat) (hi : i < fdtTotalsize m bootArg1) :
      m' (bootArg1 + BitVec.ofNat (8 * b) i) = m (bootArg1 + BitVec.ofNat (8 * b) i) :=
    hown _ (hfdt _ (inRange_add bootArg1 _ i hi (by omega)))
  have hrepeats (d : Nat) : Repeats m' bootArg1 (fdtTotalsize m bootArg1) d ↔
      Repeats m bootArg1 (fdtTotalsize m bootArg1) d := by
    constructor
    · intro h i hi
      rw [← hbyte (i + d) hi, ← hbyte i (by omega)]
      exact h i hi
    · intro h i hi
      rw [hbyte (i + d) hi, hbyte i (by omega)]
      exact h i hi
  have hcopies := memcpy_copies_iff (ptr b (hdrField m hdr .nextFdtAddr)) bootArg1
    (fdtTotalsize m bootArg1) m' hsrc hdest
  rw [hrepeats] at hcopies
  simp only [FdtIntact, FdtForward, hrun, true_and]
  rw [← hcopies]
  constructor
  · rintro ⟨hcopied, -⟩ i hi
    rw [hbyte i hi]
    exact hcopied i hi
  · intro hcopied
    refine ⟨?_, ?_⟩
    · intro i hi
      rw [← hbyte i hi]
      exact hcopied i hi
    · intro x hx hx'
      rw [memcpy_of_not_inRange _ _ _ _ _ (by omega) hx]
      exact hown x hx'

/-- No memory but that of the FDT and the header: the calls keep nothing in memory. -/
def Env.bare (b : Nat) : Env b where
  code := fun _ => False
  data := fun _ => False
  device := fun _ => False
  touch := fun _ m => m
  consoleInit := fun _ _ => 0
  banner := []
  touch_within := fun _ _ _ _ => rfl

/-- The FDT reaches its destination intact exactly when the destination does not start
inside it, above its start, or its bytes repeat at the distance between the two. -/
theorem prepareFdt_intact_iff (hb : b = 4 ∨ b = 8) (bootArg1 hdr : BitVec (8 * b))
    (m : Memory (8 * b)) (hmagic : fdt32 m bootArg1 = fdtMagic)
    (hsrc : bootArg1.toNat + fdtTotalsize m bootArg1 ≤ 2 ^ (8 * b))
    (hdest : (ptr b (hdrField m hdr .nextFdtAddr)).toNat + fdtTotalsize m bootArg1 ≤
      2 ^ (8 * b)) :
    FdtIntact (Env.bare b) bootArg1 hdr m ↔ FdtForward bootArg1 hdr m := by
  have hnone (x : BitVec (8 * b)) : ¬ (Env.bare b).own x := by
    rintro (h | h) <;> exact h
  exact fdtIntact_iff_forward (Env.bare b) hb bootArg1 hdr m hmagic hsrc hdest
    (fun x _ => hnone x) (fun x _ => hnone x) (fun x _ => hnone x)

/-- A 64-bit memory with an FDT of 16 bytes at `0x3000` and a header at `0x1000` that asks
for it at the given address. -/
def sampleFdt (nextFdtAddr : Nat) : Memory (8 * 8) :=
  let m := storeLE (fun _ => 0) 0x1058 8 nextFdtAddr
  -- magic and total size, with their bytes the other way round
  let m := storeLE m 0x3000 4 0xedfe0dd0
  storeLE m 0x3004 4 0x10000000

theorem prepareFdt_intact_below : FdtIntact (Env.bare 8) 0x3000 0x1000 (sampleFdt 0x2ff8) :=
  (prepareFdt_intact_iff (Or.inr rfl) 0x3000 0x1000 (sampleFdt 0x2ff8) (by decide +kernel)
    (by decide +kernel) (by decide +kernel)).mpr (Or.inl (by decide +kernel))

theorem prepareFdt_broken_above :
    fdt32 (sampleFdt 0x3008) 0x3000 = fdtMagic ∧
      (0x3000 : BitVec (8 * 8)).toNat + fdtTotalsize (sampleFdt 0x3008) 0x3000 ≤ 2 ^ (8 * 8) ∧
      (ptr 8 (hdrField (sampleFdt 0x3008) 0x1000 .nextFdtAddr)).toNat +
        fdtTotalsize (sampleFdt 0x3008) 0x3000 ≤ 2 ^ (8 * 8) ∧
      ¬ FdtIntact (Env.bare 8) 0x3000 0x1000 (sampleFdt 0x3008) := by
  refine ⟨by decide +kernel, by decide +kernel, by decide +kernel, ?_⟩
  rintro ⟨-, hcopied, -⟩
  have hbyte := hcopied 8 (by decide +kernel)
  revert hbyte
  decide +kernel

end ZStage.Main
