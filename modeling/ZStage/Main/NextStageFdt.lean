import ZStage.Libfdt.Copied
import ZStage.Libfdt.Layout
import ZStage.Main.Handover

/-!
The FDT that the next booting stage finds. `zstage_main` copies its bytes to the address
in the image header and looks at two words of them. The copy presents the tree that the
previous booting stage passed exactly when that address is a multiple of eight, which
nothing checks: libfdt turns any other address down.
-/

namespace ZStage.Main

open ZStage.Lib.ByteMemory ZStage.Lib.BigEndian ZStage.Lib.CopySequence ZStage.Lib.ByteLayout
  ZStage.Libfdt

variable {b : Nat}

/-- The blob that a pointer points at. -/
def blobAt {w : Nat} (m : Memory w) (a : BitVec w) : Dtb where
  addr := UInt64.ofNat a.toNat
  mem i := m (a + BitVec.ofNat w i)

theorem fdt32_blobAt {w : Nat} (m : Memory w) (a : BitVec w) (p : Nat) :
    (blobAt m a).fdt32 p = fdt32 m (a + BitVec.ofNat w p) := by
  have hbyte (i : Nat) :
      (blobAt m a).mem (p + i) = m (a + BitVec.ofNat w p + BitVec.ofNat w i) := by
    rw [blobAt, BitVec.add_assoc, ← BitVec.ofNat_add]
  simp only [Dtb.fdt32, bigEndian, hbyte, fdt32, Nat.zero_mul, Nat.zero_add]

theorem totalsize_blobAt {w : Nat} (m : Memory w) (a : BitVec w) :
    (blobAt m a).totalsize = fdtTotalsize m a :=
  fdt32_blobAt m a 4

/-- The check of `fdt_ro_probe_` for the address. -/
theorem aligned_blobAt (hb : b = 4 ∨ b = 8) (m : Memory (8 * b)) (a : BitVec (8 * b)) :
    (blobAt m a).addr &&& 7 = 0 ↔ 8 ∣ a.toNat := by
  have hlt : a.toNat < 2 ^ 64 := by
    have := a.isLt
    rcases hb with rfl | rfl <;> omega
  have hseven : (7 : UInt64).toNat = 2 ^ 3 - 1 := rfl
  rw [blobAt, ← UInt64.toNat_inj, UInt64.toNat_and, UInt64.toNat_ofNat_of_lt' hlt, hseven,
    Nat.and_two_pow_sub_one_eq_mod]
  exact (Nat.dvd_iff_mod_eq_zero ..).symm

/-- What a blob with a good header, but at another address, is turned down with. -/
theorem roProbe_unaligned {fdt : Dtb} (h : ¬ fdt.addr &&& 7 = 0) :
    fdt.fdtRoProbe = -FDT_ERR_ALIGNMENT := by
  rw [Dtb.fdtRoProbe]
  exact if_pos h

/-- After `zstage_main` has returned, the FDT at the address in the image header presents the
tree that was passed, if libfdt accepts that address at all. -/
theorem zstageMain_fdt_presented (env : Env b) (hb : b = 4 ∨ b = 8) (fuel : Nat)
    (bootArg1 hdr table : BitVec (8 * b)) (m0 m : Memory (8 * b)) (bs : List Blob)
    (hbs : BlobsAt m0 table bs) (hdest : Destinations env m0 bootArg1 hdr table bs)
    (hsrc : Sources env m0 bootArg1 hdr table bs)
    (hret : zstageMain env fuel bootArg1 hdr table m0 = .returned m)
    {tokens : List Token} (h : (blobAt m0 bootArg1).Presents tokens) :
    let dst := ptr b (hdrField m0 hdr .nextFdtAddr)
    ((blobAt m dst).Presents tokens ↔ 8 ∣ dst.toNat) ∧
    (8 ∣ dst.toNat → ∀ (i : Nat) (e : Entry), (nodes tokens)[i]? = some e → ∀ rounds,
      fdtTotalsize m0 bootArg1 < rounds →
        Dtb.SameNode (blobAt m0 bootArg1) (blobAt m dst) rounds e) ∧
    (¬ 8 ∣ dst.toNat → (blobAt m dst).fdtRoProbe = -FDT_ERR_ALIGNMENT) := by
  intro dst
  have hperforms := (zstageMain_performs hb hbs hdest hsrc hret).2
  have hcopy : (blobAt m0 bootArg1).SameBytes (blobAt m dst) := by
    intro i hi
    rw [totalsize_blobAt] at hi
    exact hperforms.copied (hdest.ordered hsrc) (fdtCopy m0 bootArg1 hdr) (by simp [copies]) i hi
  have hpresents := h.copy_iff hcopy
  rw [aligned_blobAt hb] at hpresents
  refine ⟨hpresents, ?_, ?_⟩
  · intro haligned i e hi rounds hrounds
    rw [← totalsize_blobAt] at hrounds
    exact h.sameNode (hpresents.2 haligned) hcopy hi hrounds
  · intro haligned
    rw [← aligned_blobAt hb m] at haligned
    exact roProbe_unaligned haligned

/-- The sample without a blob, and with the devicetree of a board at `0x3000`. -/
def fdtMemory : Memory (8 * 8) := fun x =>
  if (x - 0x3000).toNat < Source.board.blobSize then
    layOut Source.board.bytes (x - 0x3000).toNat
  else sampleMemory ⟨0, 0, 0⟩ x

theorem fdtMemory_presents : (blobAt fdtMemory 0x3000).Presents Source.board.tokens := by
  have hsource :=
    (Source.board.presents_blob (show (0 : UInt64) &&& 7 = 0 by decide) Source.board_valid).1
  have hsame : (Source.board.blob 0).SameBytes (blobAt fdtMemory 0x3000) := by
    have hsize : Source.board.blobSize = 530 := by decide +kernel
    have htotal : (Source.board.blob 0).totalsize = Source.board.blobSize :=
      (Source.board.fields_of_placed (Source.board.placed_blob 0) Source.board_valid.size).totalsize
    intro i hi
    rw [htotal] at hi
    have hoffset : ((0x3000 : BitVec (8 * 8)) + BitVec.ofNat (8 * 8) i - 0x3000).toNat = i := by
      rw [add_sub_cancel_left, BitVec.toNat_ofNat, Nat.mod_eq_of_lt (by omega)]
    simp only [blobAt, fdtMemory, hoffset, if_pos hi]
    rfl
  exact (hsource.copy_iff hsame).2 (by decide)

theorem zstageMain_fdt_presented_sample :
    ∃ m, zstageMain sampleEnv 1 0x3000 0x1000 0x2000 fdtMemory = .returned m ∧
      (blobAt m 0x4000).Presents Source.board.tokens := by
  have hreturns : (zstageMain sampleEnv 1 0x3000 0x1000 0x2000 fdtMemory).memory.isSome := by
    decide +kernel
  have hcopies : copies fdtMemory 0x3000 0x1000 [] =
      [⟨0x4000, 0x3000, 530⟩, ⟨0x6000, 0x5000, 4⟩] := by
    decide +kernel
  have hfar (a c : BitVec (8 * 8)) (n k : Nat) (hn : n ≤ (c - a).toNat)
      (hk : (c - a).toNat + k ≤ 2 ^ 64) : Disjoint a n c k := disjoint_of_dist a c n k hn hk
  have hown (a : BitVec (8 * 8)) (n : Nat) (h1 : n ≤ (0x7000 - a).toNat)
      (h2 : (0x7000 - a).toNat + 16 ≤ 2 ^ (8 * 8)) (h3 : n ≤ (0x9000 - a).toNat)
      (h4 : (0x9000 - a).toNat + 8 ≤ 2 ^ (8 * 8)) (x : BitVec (8 * 8)) (hx : InRange a n x) :
      ¬ sampleEnv.own x :=
    fun h => h.elim (hfar a 0x7000 n 16 h1 h2 x hx) (hfar a 0x9000 n 8 h3 h4 x hx)
  have hclear (a : BitVec (8 * 8)) (n : Nat) (h1 : Disjoint a n 0x7000 16)
      (h2 : Disjoint a n 0x1000 256) (h3 : Disjoint a n 0x2000 32) (x : BitVec (8 * 8))
      (hx : InRange a n x) : ¬ sampleEnv.code x ∧ ¬ sampleEnv.data x ∧
        ¬ InRange 0x1000 headerSize x ∧ ¬ InRange 0x2000 (tableSize []) x :=
    ⟨fun h => h, h1 x hx, h2 x hx, h3 x hx⟩
  have hdest : Destinations sampleEnv fdtMemory 0x3000 0x1000 0x2000 [] := by
    constructor
    · rw [hcopies, List.pairwise_pair]
      exact hfar _ _ _ _ (by decide) (by decide)
    · rw [hcopies, List.pairwise_pair]
      exact hfar _ _ _ _ (by decide) (by decide)
    · rw [hcopies, List.forall_mem_cons, List.forall_mem_singleton]
      exact ⟨Or.inl (hfar _ _ _ _ (by decide) (by decide)),
        Or.inl (hfar _ _ _ _ (by decide) (by decide))⟩
    · rw [hcopies, List.forall_mem_cons, List.forall_mem_singleton]
      refine ⟨hclear _ _ ?_ ?_ ?_, hclear _ _ ?_ ?_ ?_⟩ <;>
        exact hfar _ _ _ _ (by decide) (by decide)
  have hsrc : Sources sampleEnv fdtMemory 0x3000 0x1000 0x2000 [] := by
    constructor
    · rw [hcopies, List.forall_mem_cons, List.forall_mem_singleton]
      exact ⟨hown _ _ (by decide) (by decide) (by decide) (by decide),
        hown _ _ (by decide) (by decide) (by decide) (by decide)⟩
    · rw [hcopies, List.forall_mem_cons, List.forall_mem_singleton]
      exact ⟨fun x hx h => hown _ _ (by decide) (by decide) (by decide) (by decide) x hx (Or.inr h),
        fun x hx h => hown _ _ (by decide) (by decide) (by decide) (by decide) x hx (Or.inr h)⟩
    · rw [hcopies, List.forall_mem_cons, List.forall_mem_singleton]
      decide
    · rintro x (hx | hx)
      · exact hown 0x1000 256 (by decide) (by decide) (by decide) (by decide) x hx
      · exact hown 0x2000 32 (by decide) (by decide) (by decide) (by decide) x hx
    · decide +kernel
  cases hret : zstageMain sampleEnv 1 0x3000 0x1000 0x2000 fdtMemory with
  | returned m =>
    have hfields : ptr 8 (hdrField fdtMemory 0x1000 .nextFdtAddr) = 0x4000 := by decide +kernel
    have hpresented := (zstageMain_fdt_presented sampleEnv (Or.inr rfl) 1 _ _ _ _ m []
      (show (readBlob fdtMemory 0x2000).size = 0 by decide +kernel) hdest hsrc hret
      fdtMemory_presents).1
    rw [hfields] at hpresented
    exact ⟨m, rfl, hpresented.2 (by decide)⟩
  | hang =>
    rw [hret] at hreturns
    cases hreturns
  | running =>
    rw [hret] at hreturns
    cases hreturns

end ZStage.Main
