import ZStage.Lib.ByteMemory

/-!
The zStage image as `firmware/head.S` and `firmware/zstage.elf.ldS` lay it out.
An image is copied as one block, so every symbol is an offset from the start of
the copy that a hart runs: `la` is program-counter relative and gives the
symbol of that copy. Offsets that depend on the size of the assembled code are
fields of `Image`, with the order the linker script gives them.

Registers are `8 * b` bits wide, with `b = 8` for the 64-bit build and `b = 4`
for the 32-bit build.
-/

namespace ZStage.Head

open ZStage.Lib.ByteMemory

/-- The symbols that head.S refers to. -/
inductive Symbol
  | start
  | headerImageRunAddr
  | headerImageSize
  | headerNextRunAddr
  | headerNextFdtAddr
  | spinAddr
  | relocate
  | relocateDone
  | secondarySpinLoop
  | relocateLottery
  | loadStart
  | bootArg1
  | bootStatus
  | stackTop
  | blobTable
  | bssStart
  | bssEnd
  deriving DecidableEq, Repr

/-- A linked zStage image. The header fields and the spin word have the fixed
places of `struct zstage_image_header` and of the `.align 12` directives. The
five words of the first `.data` section follow one another from `data` on. -/
structure Image (b : Nat) where
  /-- `_zstage_start`, the address the image is linked at. -/
  runAddr : BitVec (8 * b)
  /-- `_zstage_end - _zstage_start`. -/
  size : Nat
  relocate : Nat
  relocateDone : Nat
  secondarySpinLoop : Nat
  /-- `_zstage_relocate_lottery`, the first word of `.data`. -/
  data : Nat
  blobTable : Nat
  bssStart : Nat
  bssEnd : Nat
  /-- `ZSTAGE_NO_SPIN` is defined. -/
  noSpin : Bool
  xlen : b = 4 ∨ b = 8
  realStart_le : 0x3000 ≤ relocate
  relocate_lt : relocate < relocateDone
  relocateDone_lt : relocateDone < secondarySpinLoop
  text_lt_data : secondarySpinLoop < data
  data_aligned : data % 8 = 0
  data_le : data + 5 * b ≤ blobTable
  blobTable_le : blobTable + 32 ≤ bssStart
  bssStart_aligned : bssStart % 8 = 0
  bssEnd_aligned : bssEnd % 8 = 0
  bss_lt : bssStart < bssEnd
  bss_le : bssEnd ≤ size
  size_aligned : size % 8 = 0
  /-- The image fits in the address space. -/
  size_lt : size < 2 ^ (8 * b)

variable {b : Nat}

/-- The offset of a symbol in a copy of the image. -/
def Image.offset (img : Image b) : Symbol → Nat
  | .start => 0
  | .headerImageRunAddr => 16
  | .headerImageSize => 24
  | .headerNextRunAddr => 80
  | .headerNextFdtAddr => 88
  | .spinAddr => 0x1000
  | .relocate => img.relocate
  | .relocateDone => img.relocateDone
  | .secondarySpinLoop => img.secondarySpinLoop
  | .relocateLottery => img.data
  | .loadStart => img.data + b
  | .bootArg1 => img.data + 2 * b
  | .bootStatus => img.data + 3 * b
  | .stackTop => img.data + 4 * b
  | .blobTable => img.blobTable
  | .bssStart => img.bssStart
  | .bssEnd => img.bssEnd

/-- The address of a symbol in the copy of the image at `base`. -/
def Image.addr (img : Image b) (base : BitVec (8 * b)) (s : Symbol) : BitVec (8 * b) :=
  base + BitVec.ofNat (8 * b) (img.offset s)

/-- The words of the image that head.S loads or stores: each of them fits in
the image with all its bytes. -/
def Symbol.isWord : Symbol → Bool
  | .headerImageRunAddr | .headerImageSize | .headerNextRunAddr | .headerNextFdtAddr
  | .spinAddr | .relocateLottery | .loadStart | .bootArg1 | .bootStatus | .stackTop => true
  | _ => false

theorem Image.word_le (img : Image b) (s : Symbol) (hs : s.isWord = true) :
    img.offset s + b ≤ img.blobTable := by
  have h1 := img.realStart_le
  have h2 := img.relocate_lt
  have h3 := img.relocateDone_lt
  have h4 := img.text_lt_data
  have h5 := img.data_le
  rcases img.xlen with hb | hb <;> subst hb <;> cases s <;>
    simp only [Symbol.isWord, Bool.false_eq_true] at hs <;>
    simp only [Image.offset] <;> omega

theorem Image.blobTable_lt_size (img : Image b) : img.blobTable < img.size := by
  have h1 := img.blobTable_le
  have h2 := img.bss_lt
  have h3 := img.bss_le
  omega

theorem Image.word_le_size (img : Image b) (s : Symbol) (hs : s.isWord = true) :
    img.offset s + b ≤ img.size := by
  have h1 := img.word_le s hs
  have h2 := img.blobTable_lt_size
  omega

theorem Image.relocateDone_lt_size (img : Image b) : img.relocateDone < img.size := by
  have h1 := img.relocateDone_lt
  have h2 := img.text_lt_data
  have h3 := img.data_le
  have h4 := img.blobTable_lt_size
  omega

theorem Image.size_pos (img : Image b) : 0 < img.size := by
  have h := img.blobTable_lt_size
  omega

theorem Image.b_pos (img : Image b) : 0 < b := by
  rcases img.xlen with h | h <;> omega

theorem Image.b_le (_ : Image b) : b ≤ 2 ^ (8 * b) := by
  have h := Nat.lt_two_pow_self (n := 8 * b)
  omega

/-- Every word of the image is aligned to the register size. -/
theorem Image.word_aligned (img : Image b) (s : Symbol) (hs : s.isWord = true) :
    img.offset s % b = 0 := by
  have h := img.data_aligned
  rcases img.xlen with hb | hb <;> subst hb <;> cases s <;>
    simp only [Symbol.isWord, Bool.false_eq_true] at hs <;>
    simp only [Image.offset] <;> omega

/-- The number of register-sized words of the image. -/
def Image.words (img : Image b) : Nat := img.size / b

theorem Image.mul_words (img : Image b) : b * img.words = img.size := by
  have h := img.size_aligned
  unfold Image.words
  rcases img.xlen with hb | hb <;> subst hb <;> omega

theorem Image.words_pos (img : Image b) : 0 < img.words := by
  have hpos := img.size_pos
  rw [← img.mul_words] at hpos
  exact Nat.pos_of_mul_pos_left hpos

theorem Image.mul_succ_le (img : Image b) {k : Nat} (hk : k < img.words) :
    b * (k + 1) ≤ img.size := by
  rw [← img.mul_words]
  exact Nat.mul_le_mul_left b hk

/-- The address of `_bss_zero` moves on by a word and stops at the end of bss. -/
theorem bss_next (img : Image b) {j : Nat} (hj : img.bssStart + b * j < img.bssEnd) :
    img.bssStart + b * j + b ≤ img.bssEnd := by
  have h1 := img.bssStart_aligned
  have h2 := img.bssEnd_aligned
  rcases img.xlen with hb | hb <;> subst hb <;> omega

/-- Two different words of the image do not share a byte. -/
theorem Image.words_apart (img : Image b) (s t : Symbol) (hs : s.isWord = true)
    (ht : t.isWord = true) (hne : s ≠ t) :
    img.offset s + b ≤ img.offset t ∨ img.offset t + b ≤ img.offset s := by
  have h1 := img.realStart_le
  have h2 := img.relocate_lt
  have h3 := img.relocateDone_lt
  have h4 := img.text_lt_data
  rcases img.xlen with hb | hb <;> subst hb <;> cases s <;>
    simp only [Symbol.isWord, Bool.false_eq_true] at hs <;> cases t <;>
    simp only [Symbol.isWord, Bool.false_eq_true] at ht <;>
    first
      | exact absurd rfl hne
      | (simp only [Image.offset]; omega)

/-- Ranges of one copy that are apart as offsets are disjoint as addresses. -/
theorem disjoint_of_offsets {w : Nat} (base : BitVec w) (i n j k : Nat)
    (h : i + n ≤ j ∨ j + k ≤ i) (hi : i + n ≤ 2 ^ w) (hj : j + k ≤ 2 ^ w) :
    Disjoint (base + BitVec.ofNat w i) n (base + BitVec.ofNat w j) k := by
  intro x hx hx'
  have hlt := (x - base).isLt
  unfold InRange at hx hx'
  rw [offset_add base x i (by omega)] at hx
  rw [offset_add base x j (by omega)] at hx'
  split at hx <;> split at hx' <;> omega

theorem Image.words_disjoint (img : Image b) (base : BitVec (8 * b)) (s t : Symbol)
    (hs : s.isWord = true) (ht : t.isWord = true) (hne : s ≠ t) :
    Disjoint (img.addr base s) b (img.addr base t) b := by
  have h1 := img.word_le_size s hs
  have h2 := img.word_le_size t ht
  have h3 := img.size_lt
  exact disjoint_of_offsets base _ _ _ _ (img.words_apart s t hs ht hne) (by omega) (by omega)

/-- Every byte of a word of a copy is a byte of that copy. -/
theorem Image.word_inRange (img : Image b) (base x : BitVec (8 * b)) (s : Symbol)
    (hs : s.isWord = true) (hx : InRange (img.addr base s) b x) :
    InRange base img.size x :=
  inRange_mono (img.word_le_size s hs) (Nat.le_of_lt img.size_lt) hx

/-- An image of size `0x6000` with small code, data and bss sections, linked at
`runAddr`; the values are those a small build can have. -/
def Image.sample (b : Nat) (h : b = 4 ∨ b = 8) (runAddr : BitVec (8 * b)) : Image b where
  runAddr := runAddr
  size := 0x6000
  relocate := 0x3060
  relocateDone := 0x3160
  secondarySpinLoop := 0x3210
  data := 0x4000
  blobTable := 0x4100
  bssStart := 0x4200
  bssEnd := 0x5000
  noSpin := true
  xlen := h
  realStart_le := by decide
  relocate_lt := by decide
  relocateDone_lt := by decide
  text_lt_data := by decide
  data_aligned := by decide
  data_le := by rcases h with rfl | rfl <;> decide
  blobTable_le := by decide
  bssStart_aligned := by decide
  bssEnd_aligned := by decide
  bss_lt := by decide
  bss_le := by decide
  size_aligned := by decide
  size_lt := by rcases h with rfl | rfl <;> decide

end ZStage.Head
