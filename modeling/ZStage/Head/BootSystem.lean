import Mathlib.Data.Fintype.Card
import ZStage.Head.System
import ZStage.Head.Guards

/-!
The boot of any number of harts: each of them enters `_start` of the load copy at
a time of its own, one hart wins the lottery, relocates the image and runs
`zstage_main`. `zstage_main` is any sequence of stores outside the words that
head.S works with, and it may hang.

The lemmas here say which words of the two copies of the image a store leaves
alone, for copies that are the same or share no byte.
-/

namespace ZStage.Head

open ZStage.Lib.ByteMemory Relation

variable {b : Nat} {ι : Type} [DecidableEq ι]

/-- The offsets of the run copy that the C code may write: neither the header,
the spin word and the code of head.S, nor the words it keeps in `.data`. -/
def Image.OwnData (img : Image b) (i : Nat) : Prop :=
  img.secondarySpinLoop < i ∧ (i < img.data ∨ img.data + 5 * b ≤ i)

/-- The bytes that `zstage_main` may write: its own data in the run copy, and any
destination outside both copies. -/
def Image.MainWrites (img : Image b) (L x : BitVec (8 * b)) : Prop :=
  (InRange img.runAddr img.size x → img.OwnData (x - img.runAddr).toNat) ∧
    (L ≠ img.runAddr → ¬ InRange L img.size x)

inductive BootStep (img : Image b) (L : BitVec (8 * b)) (s : System b ι) : System b ι → Prop
  | hart {i : ι} {h : Hart b} {m : Memory (8 * b)}
      (hstep : Hart.step img (s.harts i, s.mem) = some (h, m)) : BootStep img L s (s.set i h m)
  | mainStore {i : ι} {m : Memory (8 * b)} (hpc : (s.harts i).pc = .main)
      (hm : ∀ x, ¬ img.MainWrites L x → m x = s.mem x) :
      BootStep img L s (s.set i (s.harts i) m)
  | mainReturn {i : ι} {k h : Hart b} (hcall : (s.harts i).action img = .call k)
      (hbase : h.base = k.base) (hpc : h.pc = k.pc) (hsp : h.sp = k.sp)
      (hid : h.mhartid = k.mhartid) :
      BootStep img L s (s.set i h s.mem)

/-- The image as it was loaded at `L`, with the initial values of `.entry` and
`.data` and with `N` and `F` in the header, and every hart in front of `_start`. -/
structure PowerOn (img : Image b) (L N F : BitVec (8 * b)) (s : System b ι) : Prop where
  run_addr : loadWord s.mem (img.addr L .headerImageRunAddr) = img.runAddr
  image_size : loadWord s.mem (img.addr L .headerImageSize) = BitVec.ofNat (8 * b) img.size
  next_run : loadWord s.mem (img.addr L .headerNextRunAddr) = N
  next_fdt : loadWord s.mem (img.addr L .headerNextFdtAddr) = F
  lottery : loadLE s.mem (img.addr L .relocateLottery) 4 = 0
  status : loadWord s.mem (img.addr L .bootStatus) = (0 : BitVec (8 * b))
  spin : loadWord s.mem (img.addr L .spinAddr) = (0 : BitVec (8 * b))
  pc : ∀ i, (s.harts i).pc = .start
  base : ∀ i, (s.harts i).base = L

/-- The load copy is the run copy, or the two share no byte. -/
def Image.Apart (img : Image b) (L : BitVec (8 * b)) : Prop :=
  L = img.runAddr ∨ Disjoint img.runAddr img.size L img.size

def Image.IsCopy (img : Image b) (L base : BitVec (8 * b)) : Prop :=
  base = L ∨ base = img.runAddr

section Frame

variable {img : Image b} {L base base' : BitVec (8 * b)} {m m' : Memory (8 * b)}

theorem Image.Apart.disjoint (hapart : img.Apart L) (hc : img.IsCopy L base)
    (hc' : img.IsCopy L base') (hne : base ≠ base') :
    Disjoint base img.size base' img.size := by
  rcases hapart with heq | hdisj
  · exfalso
    rcases hc with rfl | rfl <;> rcases hc' with rfl | rfl
    · exact hne rfl
    · exact hne heq
    · exact hne heq.symm
    · exact hne rfl
  · rcases hc with rfl | rfl <;> rcases hc' with rfl | rfl
    · exact absurd rfl hne
    · exact hdisj.symm
    · exact hdisj
    · exact absurd rfl hne

theorem Image.Apart.words (hapart : img.Apart L) (hc : img.IsCopy L base)
    (hc' : img.IsCopy L base') {i j : Nat} (hi : i + b ≤ img.size) (hj : j + b ≤ img.size)
    (hne : base = base' → i + b ≤ j ∨ j + b ≤ i) :
    Disjoint (base + BitVec.ofNat (8 * b) i) b (base' + BitVec.ofNat (8 * b) j) b := by
  have hfit := img.size_lt
  rcases eq_or_ne base base' with rfl | hbase
  · exact disjoint_of_offsets base _ _ _ _ (hne rfl) (by omega) (by omega)
  · intro x hx hx'
    exact hapart.disjoint hc hc' hbase x (inRange_mono hi (by omega) hx)
      (inRange_mono hj (by omega) hx')

/-- A store to a word of one copy leaves every other word of both copies. -/
theorem Image.Apart.storeWord_kept (hapart : img.Apart L) (hc : img.IsCopy L base)
    (hc' : img.IsCopy L base') {s t : Symbol} (hs : s.isWord = true) (ht : t.isWord = true)
    (hne : base = base' → s ≠ t) (v : BitVec (8 * b)) :
    (loadWord (storeWord m (img.addr base s) v) (img.addr base' t) : BitVec (8 * b)) =
      loadWord m (img.addr base' t) := by
  apply loadWord_storeWord_of_disjoint _ _ _ _ img.b_le
  exact hapart.words hc hc' (img.word_le_size s hs) (img.word_le_size t ht)
    (fun heq => img.words_apart s t hs ht (hne heq))

theorem lottery_store_outside (v : Nat) (x : BitVec (8 * b))
    (hx : ¬ InRange (img.addr base .relocateLottery) b x) :
    storeLE m (img.addr base .relocateLottery) 4 v x = m x := by
  apply storeLE_of_not_inRange
  intro hin
  refine hx (Nat.lt_of_lt_of_le hin ?_)
  rcases img.xlen with hb | hb <;> omega

theorem Image.Apart.lottery_kept (hapart : img.Apart L) (hc : img.IsCopy L base) {i : Nat}
    (hi : i + b ≤ img.size) (hne : base = L → i + b ≤ img.data ∨ img.data + b ≤ i) (v : Nat) :
    (loadWord (storeLE m (img.addr L .relocateLottery) 4 v)
      (base + BitVec.ofNat (8 * b) i) : BitVec (8 * b)) =
      loadWord m (base + BitVec.ofNat (8 * b) i) := by
  have hfit := img.word_le_size .relocateLottery rfl
  apply loadWord_of_unchanged img.b_le
  intro x hx
  apply lottery_store_outside
  intro hin
  refine hapart.words (Or.inl rfl) hc hfit hi ?_ x hin hx
  intro heq
  have hoff := hne heq.symm
  simp only [Image.offset]
  omega

/-- The count changes with a store that is not to the lottery word only if the
store reaches that word. -/
theorem lottery_count_kept (hm : ∀ x, InRange (img.addr L .relocateLottery) b x → m' x = m x) :
    loadLE m' (img.addr L .relocateLottery) 4 = loadLE m (img.addr L .relocateLottery) 4 := by
  have hfour : 4 ≤ b := by
    rcases img.xlen with hb | hb <;> omega
  have hpow := img.b_le
  apply loadLE_of_unchanged (by omega)
  intro x hx
  exact hm x (Nat.lt_of_lt_of_le hx hfour)

theorem Image.MainWrites.kept (hapart : img.Apart L) (hc : img.IsCopy L base) {s : Symbol}
    (hs : s.isWord = true) (x : BitVec (8 * b)) (hx : InRange (img.addr base s) b x) :
    ¬ img.MainWrites L x := by
  rintro ⟨hrun, hload⟩
  have hin := img.word_inRange base x s hs hx
  rcases eq_or_ne base img.runAddr with rfl | hne
  · obtain ⟨hspin, hdata⟩ := hrun hin
    have hfit := img.word_le_size s hs
    have hsize := img.size_lt
    have hlt := (x - img.runAddr).isLt
    unfold InRange Image.addr at hx
    rw [offset_add _ _ _ (by omega)] at hx
    have h1 := img.realStart_le
    have h2 := img.relocate_lt
    have h3 := img.relocateDone_lt
    have h4 := img.text_lt_data
    split at hx
    · rcases img.xlen with hb | hb <;> subst hb <;> cases s <;>
        simp only [Symbol.isWord, Bool.false_eq_true] at hs <;>
        simp only [Image.offset] at * <;> omega
    · omega
  · have hbase : base = L := hc.resolve_right hne
    subst hbase
    exact hload hne hin

end Frame

end ZStage.Head
