import ZStage.Head.Code

/-!
The overlap guards of `_relocate`: which direction the copy takes, and what the
bytes that the guards look at have in common with the run copy when the hart is
let through. The guards and the loops compare addresses with signed branches,
which order the bytes of the run copy as they lie as long as it does not cross
the sign boundary (`Image.Ordered`). Which branch is taken is said for every placement
(`BranchRegs.lower_cases`, `BranchRegs.upper_cases`), and what it means for the bytes
for ordered ones, with either register size.
-/

namespace ZStage.Head

open ZStage.Lib.ByteMemory

variable {b : Nat}

/-- The run copy does not cross the sign boundary, so `blt`, `bge` and `ble`
order its addresses as the bytes lie; and a load copy that the signed order puts
at or above the run copy does not reach round to it from below. -/
structure Image.Ordered (img : Image b) (L : BitVec (8 * b)) : Prop where
  run_top : img.runAddr.toInt + img.size < 2 ^ (8 * b - 1)
  load_wrap : img.runAddr.toInt ≤ L.toInt → L.toInt + img.size ≤ img.runAddr.toInt + 2 ^ (8 * b)

/-- What the copy needs of the signed order: as `Image.Ordered`, but a run copy that the
signed order puts above the load copy may end right at the sign boundary. -/
structure Image.CopyOrdered (img : Image b) (L : BitVec (8 * b)) : Prop where
  run_top : img.runAddr.toInt + img.size ≤ 2 ^ (8 * b - 1)
  lower_top : img.runAddr.toInt ≤ L.toInt → img.runAddr.toInt + img.size < 2 ^ (8 * b - 1)
  load_wrap : img.runAddr.toInt ≤ L.toInt → L.toInt + img.size ≤ img.runAddr.toInt + 2 ^ (8 * b)

theorem Image.Ordered.copyOrdered {img : Image b} {L : BitVec (8 * b)} (h : img.Ordered L) :
    img.CopyOrdered L :=
  ⟨Int.le_of_lt h.run_top, fun _ => h.run_top, h.load_wrap⟩

structure Image.Aligned (img : Image b) (L : BitVec (8 * b)) : Prop where
  load_aligned : L.toNat % b = 0
  run_aligned : img.runAddr.toNat % b = 0

/-- The header words that relocation reads at `L`, and the load address that
`_start_real` has saved. -/
structure Image.LoadedAt (img : Image b) (L : BitVec (8 * b)) (m : Memory (8 * b)) : Prop where
  run_addr : loadWord m (img.addr L .headerImageRunAddr) = img.runAddr
  image_size : loadWord m (img.addr L .headerImageSize) = BitVec.ofNat (8 * b) img.size
  load_start : loadWord m (img.addr L .loadStart) = L

/-- A memory with the words that relocation reads written at `L`. -/
def Image.place (img : Image b) (L : BitVec (8 * b)) (m : Memory (8 * b)) : Memory (8 * b) :=
  storeWord (storeWord (storeWord m (img.addr L .headerImageRunAddr) img.runAddr)
    (img.addr L .headerImageSize) (BitVec.ofNat (8 * b) img.size)) (img.addr L .loadStart) L

theorem Image.loadedAt_place (img : Image b) (L : BitVec (8 * b)) (m : Memory (8 * b)) :
    img.LoadedAt L (img.place L m) := by
  have hb := img.b_le
  have hapart (s t : Symbol) (hs : s.isWord = true) (ht : t.isWord = true) (hne : s ≠ t)
      (m : Memory (8 * b)) (v : BitVec (8 * b)) :
      (loadWord (storeWord m (img.addr L s) v) (img.addr L t) : BitVec (8 * b)) =
        loadWord m (img.addr L t) :=
    loadWord_storeWord_of_disjoint _ _ _ _ hb (img.words_disjoint L s t hs ht hne)
  constructor
  · rw [Image.place, hapart _ _ rfl rfl (by decide), hapart _ _ rfl rfl (by decide),
      loadWord_storeWord_same _ _ _ hb]
  · rw [Image.place, hapart _ _ rfl rfl (by decide), loadWord_storeWord_same _ _ _ hb]
  · rw [Image.place, loadWord_storeWord_same _ _ _ hb]

/-- The bytes that the overlap guards protect lie outside the run copy: the code
from `_relocate` up to `_relocate_done`, the lottery and the boot status. -/
structure Image.Spares (img : Image b) (L : BitVec (8 * b)) : Prop where
  code : Disjoint img.runAddr img.size (img.addr L .relocate) (img.relocateDone - img.relocate)
  lottery : Disjoint img.runAddr img.size (img.addr L .relocateLottery) b
  boot_status : Disjoint img.runAddr img.size (img.addr L .bootStatus) b

/-- The run copy overlaps a part of the load copy that the guards protect: the code
`[_relocate, _relocate_done]`, the lottery or the boot status. -/
def Image.Touches (img : Image b) (L : BitVec (8 * b)) : Prop :=
  ∃ x, InRange img.runAddr img.size x ∧
    (InRange (img.addr L .relocate) (img.relocateDone - img.relocate + 1) x ∨
      InRange (img.addr L .relocateLottery) b x ∨ InRange (img.addr L .bootStatus) b x)

theorem brange_iff (startReg endReg checkReg : BitVec (8 * b)) :
    Hart.brange startReg endReg checkReg = true ↔
      startReg.toInt ≤ checkReg.toInt ∧ checkReg.toInt < endReg.toInt := by
  simp only [Hart.brange, Bool.and_eq_true, Bool.not_eq_true', Bool.eq_false_iff, ne_eq,
    BitVec.slt_iff_toInt_lt, BitVec.sle_iff_toInt_le]
  omega

theorem Image.Aligned.toInt_sub_mod {img : Image b} {L : BitVec (8 * b)} (h : img.Aligned L) :
    (img.runAddr.toInt - L.toInt) % b = 0 := by
  have hl := BitVec.toInt_eq_toNat_cond L
  have hr := BitVec.toInt_eq_toNat_cond img.runAddr
  have h1 := h.load_aligned
  have h2 := h.run_aligned
  rcases img.xlen with hb | hb <;> subst hb <;>
    simp only [Nat.reduceMul, Nat.reducePow] at hl hr ⊢ <;>
    split at hl <;> split at hr <;> omega

/-- A word of the load copy whose first byte is below the run copy ends at or below
it: the guards look at first bytes only. -/
def Image.WordsBelow (img : Image b) (L : BitVec (8 * b)) : Prop :=
  ∀ s : Symbol, s.isWord = true → L.toInt + img.offset s < img.runAddr.toInt →
    L.toInt + img.offset s + b ≤ img.runAddr.toInt

theorem Image.Aligned.wordsBelow {img : Image b} {L : BitVec (8 * b)} (h : img.Aligned L) :
    img.WordsBelow L := by
  intro s hs hlt
  have hmod := h.toInt_sub_mod
  have hoff := img.word_aligned s hs
  rcases img.xlen with hb | hb <;> subst hb <;> omega

/-- Copies that do not overlap need no alignment for this. -/
theorem Image.CopyOrdered.wordsBelow {img : Image b} {L : BitVec (8 * b)}
    (h : img.CopyOrdered L) (hapart : Disjoint img.runAddr img.size L img.size) :
    img.WordsBelow L := by
  intro s hs hlt
  have hrun := h.run_top
  have hfit := img.word_le_size s hs
  have hpos := img.size_pos
  by_contra hnot
  -- the first byte of the run copy would lie in the load copy
  apply hapart img.runAddr
  · exact inRange_self _ hpos
  · rw [inRange_iff_toInt L img.runAddr img.size (by omega)]
    omega

/-- For copies that share no byte, only the run copy has to keep clear of the sign
boundary, and it may end right at it: there is no room for a load copy between the two. -/
theorem Image.copyOrdered_of_disjoint {img : Image b} {L : BitVec (8 * b)}
    (hrun : img.runAddr.toInt + img.size ≤ 2 ^ (8 * b - 1))
    (hapart : Disjoint img.runAddr img.size L img.size) : img.CopyOrdered L where
  run_top := hrun
  lower_top := by
    intro hle
    by_contra hend
    have hbound : L.toInt < 2 ^ (8 * b - 1) := by
      exact_mod_cast BitVec.toInt_lt (x := L)
    have hdist := toNat_sub_of_toInt_le L img.runAddr hle
    apply hapart L
    · unfold InRange
      omega
    · exact inRange_self _ img.size_pos
  load_wrap := by
    intro hle
    by_contra hwrap
    have hdist := toNat_sub_of_toInt_le L img.runAddr hle
    have hback := toNat_sub_cases img.runAddr L
    have hforth := toNat_sub_cases L img.runAddr
    have hcast : ((2 ^ (8 * b) : Nat) : Int) = 2 ^ (8 * b) := by push_cast; rfl
    have hfit := img.size_lt
    have hpos := img.size_pos
    apply hapart img.runAddr
    · exact inRange_self _ hpos
    · unfold InRange
      split at hback <;> split at hforth <;> omega

/-- The registers of the ascending loop after `k` words. -/
structure LowerRegs (img : Image b) (L : BitVec (8 * b)) (k : Nat) (h : Hart b) : Prop where
  base : h.base = L
  t0 : h.t0 = img.runAddr + BitVec.ofNat (8 * b) (b * k)
  t1 : h.t1 = img.runAddr + BitVec.ofNat (8 * b) img.size
  t2 : h.t2 = L + BitVec.ofNat (8 * b) (b * k)
  t4 : h.t4 = img.addr img.runAddr .relocateDone

/-- The registers of the descending loop when `r` bytes are left below the two
moving end points. -/
structure UpperRegs (img : Image b) (L : BitVec (8 * b)) (r : Nat) (h : Hart b) : Prop where
  base : h.base = L
  t0 : h.t0 = img.runAddr
  t1 : h.t1 = img.runAddr + BitVec.ofNat (8 * b) r
  t3 : h.t3 = L + BitVec.ofNat (8 * b) r
  t4 : h.t4 = img.addr img.runAddr .relocateDone

/-- Bytes of the load copy that begin behind the run copy in the cyclic order,
and end before the order comes round to it, lie outside the run copy. -/
theorem Image.disjoint_run (img : Image b) (L : BitVec (8 * b)) (i k : Nat)
    (hk : 0 < k) (hbehind : img.size ≤ (L - img.runAddr).toNat + i)
    (hround : (L - img.runAddr).toNat + i + k ≤ 2 ^ (8 * b)) :
    Disjoint img.runAddr img.size (L + BitVec.ofNat (8 * b) i) k := by
  have hdist : (L + BitVec.ofNat (8 * b) i - img.runAddr).toNat = (L - img.runAddr).toNat + i := by
    have hsub : L + BitVec.ofNat (8 * b) i - img.runAddr =
        (L - img.runAddr) + BitVec.ofNat (8 * b) i := by
      ring
    rw [hsub, toNat_add_ofNat _ _ (by omega)]
  apply disjoint_of_dist
  · rw [hdist]
    exact hbehind
  · rw [hdist]
    exact hround

theorem Image.spares_of_offsets (img : Image b) (L : BitVec (8 * b))
    (h : ∀ i k, (i = img.relocate ∧ k = img.relocateDone - img.relocate) ∨
        (i = img.offset .relocateLottery ∧ k = b) ∨ (i = img.offset .bootStatus ∧ k = b) →
      img.size ≤ (L - img.runAddr).toNat + i ∧
        (L - img.runAddr).toNat + i + k ≤ 2 ^ (8 * b)) :
    img.Spares L := by
  have hcode := h _ _ (Or.inl ⟨rfl, rfl⟩)
  have hlottery := h _ _ (Or.inr (Or.inl ⟨rfl, rfl⟩))
  have hstatus := h _ _ (Or.inr (Or.inr ⟨rfl, rfl⟩))
  have hpos := img.b_pos
  have hlt := img.relocate_lt
  exact ⟨img.disjoint_run L _ _ (by omega) hcode.1 hcode.2,
    img.disjoint_run L _ _ hpos hlottery.1 hlottery.2,
    img.disjoint_run L _ _ hpos hstatus.1 hstatus.2⟩

/-- With the run copy below, a symbol that passes its guard lies behind it. -/
theorem Image.CopyOrdered.behind {img : Image b} {L : BitVec (8 * b)} (hord : img.CopyOrdered L)
    (hle : img.runAddr.toInt ≤ L.toInt) (i : Nat)
    (hguard : ¬ Hart.brange L (img.runAddr + BitVec.ofNat (8 * b) img.size)
      (L + BitVec.ofNat (8 * b) i) = true) :
    img.size ≤ (L - img.runAddr).toNat + i := by
  have hrun := hord.lower_top hle
  have hdist := toNat_sub_of_toInt_le L img.runAddr hle
  by_contra hlt
  have hL : L + BitVec.ofNat (8 * b) i =
      img.runAddr + BitVec.ofNat (8 * b) ((L - img.runAddr).toNat + i) := by
    rw [BitVec.ofNat_add, BitVec.ofNat_toNat, BitVec.setWidth_eq, ← add_assoc, add_offset]
  apply hguard
  rw [brange_iff, hL, toInt_add_ofNat _ _ (by omega), toInt_add_ofNat _ _ hrun]
  omega

theorem Image.touches_word {img : Image b} {L : BitVec (8 * b)} {s : Symbol}
    (hs : s = .relocateLottery ∨ s = .bootStatus)
    (hin : InRange img.runAddr img.size (img.addr L s)) : img.Touches L := by
  have hself : InRange (img.addr L s) b (img.addr L s) := inRange_self _ img.b_pos
  refine ⟨img.addr L s, hin, ?_⟩
  rcases hs with rfl | rfl
  · exact Or.inr (Or.inl hself)
  · exact Or.inr (Or.inr hself)

theorem Image.touches_code {img : Image b} {L : BitVec (8 * b)} {i : Nat}
    (hlow : img.relocate ≤ i) (hhigh : i ≤ img.relocateDone)
    (hin : InRange img.runAddr img.size (L + BitVec.ofNat (8 * b) i)) : img.Touches L := by
  have hlt := img.relocateDone_lt_size
  have hfit := img.size_lt
  refine ⟨_, hin, Or.inl ?_⟩
  have hsub : L + BitVec.ofNat (8 * b) i = img.addr L .relocate +
      BitVec.ofNat (8 * b) (i - img.relocate) := by
    rw [Image.addr, Image.offset, add_assoc, ← BitVec.ofNat_add]
    congr 2
    omega
  rw [hsub]
  exact inRange_add _ _ _ (by omega) (by omega)

theorem brange_self (L : BitVec (8 * b)) (i j : Nat) (hi : 0 < i) (hij : i ≤ j)
    (hj : j < 2 ^ (8 * b)) :
    Hart.brange (L + BitVec.ofNat (8 * b) i) (L + BitVec.ofNat (8 * b) j) L = false := by
  rw [Bool.eq_false_iff, ne_eq, brange_iff]
  rintro ⟨hlow, hhigh⟩
  have hwrap := toNat_sub_of_toInt_le _ _ hlow
  have hon := toNat_sub_of_toInt_le _ _ (Int.le_of_lt hhigh)
  have hzero : (0 : BitVec (8 * b)).toNat = 0 := BitVec.toNat_zero
  have hback : L - (L + BitVec.ofNat (8 * b) i) = 0 - BitVec.ofNat (8 * b) i := by ring
  have hforth : L + BitVec.ofNat (8 * b) j - L = BitVec.ofNat (8 * b) j := by ring
  rw [hback, toNat_sub_ofNat _ _ (by omega), hzero, if_neg (by omega)] at hwrap
  rw [hforth, BitVec.toNat_ofNat, Nat.mod_eq_of_lt hj] at hon
  have hmin := BitVec.le_toInt (L + BitVec.ofNat (8 * b) i)
  have hmax := BitVec.toInt_lt (x := L + BitVec.ofNat (8 * b) j)
  have hpow : (2 : Int) ^ (8 * b) = 2 * 2 ^ (8 * b - 1) := by
    rcases Nat.eq_zero_or_pos (8 * b) with hzero | hpos
    · rw [hzero] at hj
      omega
    · exact_mod_cast two_pow_eq hpos
  have hcast : ((2 ^ (8 * b) : Nat) : Int) = 2 ^ (8 * b) := by push_cast; rfl
  omega

structure BranchRegs (img : Image b) (L : BitVec (8 * b)) (h : Hart b) : Prop where
  base : h.base = L
  t0 : h.t0 = img.runAddr
  t1 : h.t1 = img.runAddr + BitVec.ofNat (8 * b) img.size
  t2 : h.t2 = L
  t3 : h.t3 = L + BitVec.ofNat (8 * b) img.size
  t4 : h.t4 = img.addr img.runAddr .relocateDone

/-- The symbols that the guards look for between the end points of the overlap. -/
def Symbol.guarded : List Symbol := [.relocateLottery, .bootStatus, .relocate, .relocateDone]

/-- One of the tests of the guards is met: a symbol lies in `[low, high)`, or the copy
that begins at `first` begins in the code of the relocation. -/
def Image.Guarded (img : Image b) (L low high first : BitVec (8 * b)) : Prop :=
  (∃ s ∈ Symbol.guarded, Hart.brange low high (img.addr L s) = true) ∨
    Hart.brange (img.addr L .relocate) (img.addr L .relocateDone) first = true

theorem Image.not_guarded_iff (img : Image b) (L low high first : BitVec (8 * b)) :
    ¬ img.Guarded L low high first ↔
      Hart.brange low high (img.addr L .relocateLottery) = false ∧
        Hart.brange low high (img.addr L .bootStatus) = false ∧
        (Hart.brange low high (img.addr L .relocate) ||
          Hart.brange low high (img.addr L .relocateDone) ||
          Hart.brange (img.addr L .relocate) (img.addr L .relocateDone) first) = false := by
  simp [Image.Guarded, Symbol.guarded, and_assoc]

section Inversion

variable {img : Image b} {L : BitVec (8 * b)} {h : Hart b}

theorem Image.Guarded.hangs {low high first : BitVec (8 * b)}
    (hguard : img.Guarded L low high first) {h₁ h₂ h₃ go : Hart b} (hpc₁ : h₁.pc = .startHang)
    (hpc₂ : h₂.pc = .startHang) (hpc₃ : h₃.pc = .startHang) :
    (if Hart.brange low high (img.addr L .relocateLottery) then h₁
      else if Hart.brange low high (img.addr L .bootStatus) then h₂
      else if Hart.brange low high (img.addr L .relocate) ||
        Hart.brange low high (img.addr L .relocateDone) ||
        Hart.brange (img.addr L .relocate) (img.addr L .relocateDone) first then h₃
      else go).pc = .startHang := by
  split
  · exact hpc₁
  split
  · exact hpc₂
  split
  · exact hpc₃
  rename_i hlottery hstatus hcode
  rw [Bool.not_eq_true] at hlottery hstatus hcode
  exact absurd hguard ((img.not_guarded_iff _ _ _ _).mpr ⟨hlottery, hstatus, hcode⟩)

theorem Image.not_guarded_goes_on {low high first : BitVec (8 * b)}
    (hguard : ¬ img.Guarded L low high first) {h₁ h₂ h₃ go : Hart b} :
    (if Hart.brange low high (img.addr L .relocateLottery) then h₁
      else if Hart.brange low high (img.addr L .bootStatus) then h₂
      else if Hart.brange low high (img.addr L .relocate) ||
        Hart.brange low high (img.addr L .relocateDone) ||
        Hart.brange (img.addr L .relocate) (img.addr L .relocateDone) first then h₃
      else go) = go := by
  obtain ⟨hlottery, hstatus, hcode⟩ := (img.not_guarded_iff _ _ _ _).mp hguard
  simp only [hlottery, hstatus, hcode, Bool.false_eq_true, if_false]

/-- From `_relocate_copy_to_lower` the hart enters the loop when the end of the run copy is
not above the load copy or no test is met; else it hangs. -/
theorem BranchRegs.lower_cases (hr : BranchRegs img L h) :
    (L.toInt < (img.runAddr + BitVec.ofNat (8 * b) img.size).toInt ∧
        img.Guarded L L (img.runAddr + BitVec.ofNat (8 * b) img.size) L ∧
        (Hart.relocateCopyToLower img h).pc = .startHang) ∨
      (((img.runAddr + BitVec.ofNat (8 * b) img.size).toInt ≤ L.toInt ∨
          ¬ img.Guarded L L (img.runAddr + BitVec.ofNat (8 * b) img.size) L) ∧
        (Hart.relocateCopyToLower img h).pc = .copyToLowerLoad ∧
        LowerRegs img L 0 (Hart.relocateCopyToLower img h)) := by
  have hregs (h' : Hart b) (hb : h'.base = L) (h0 : h'.t0 = h.t0)
      (h1 : h'.t1 = img.runAddr + BitVec.ofNat (8 * b) img.size) (h2 : h'.t2 = L)
      (h4 : h'.t4 = h.t4) : LowerRegs img L 0 h' :=
    ⟨hb, by simp [h0, hr.t0], h1, by simp [h2], h4.trans hr.t4⟩
  unfold Hart.relocateCopyToLower
  simp only [Hart.la, hr.base, hr.t1, hr.t2]
  by_cases hshort : (img.runAddr + BitVec.ofNat (8 * b) img.size).toInt ≤ L.toInt
  · rw [if_pos (BitVec.sle_iff_toInt_le.mpr hshort)]
    exact Or.inr ⟨Or.inl hshort, rfl, hregs _ rfl rfl rfl rfl rfl⟩
  rw [if_neg (mt BitVec.sle_iff_toInt_le.mp hshort)]
  by_cases hguard : img.Guarded L L (img.runAddr + BitVec.ofNat (8 * b) img.size) L
  · exact Or.inl ⟨Int.not_le.mp hshort, hguard, hguard.hangs rfl rfl rfl⟩
  · rw [Image.not_guarded_goes_on hguard]
    exact Or.inr ⟨Or.inr hguard, rfl, hregs _ rfl rfl rfl rfl rfl⟩

theorem BranchRegs.upper_cases (hr : BranchRegs img L h) :
    (img.runAddr.toInt < (L + BitVec.ofNat (8 * b) img.size).toInt ∧
        img.Guarded L img.runAddr (L + BitVec.ofNat (8 * b) img.size) img.runAddr ∧
        (Hart.relocateCopyToUpper img h).pc = .startHang) ∨
      (((L + BitVec.ofNat (8 * b) img.size).toInt ≤ img.runAddr.toInt ∨
          ¬ img.Guarded L img.runAddr (L + BitVec.ofNat (8 * b) img.size) img.runAddr) ∧
        (Hart.relocateCopyToUpper img h).pc = .copyToUpperLoad ∧
        UpperRegs img L img.size (Hart.relocateCopyToUpper img h)) := by
  have hregs (h' : Hart b) (hb : h'.base = L) (h0 : h'.t0 = img.runAddr) (h1 : h'.t1 = h.t1)
      (h3 : h'.t3 = L + BitVec.ofNat (8 * b) img.size) (h4 : h'.t4 = h.t4) :
      UpperRegs img L img.size h' :=
    ⟨hb, h0, h1.trans hr.t1, h3, h4.trans hr.t4⟩
  unfold Hart.relocateCopyToUpper
  simp only [Hart.la, hr.base, hr.t0, hr.t3]
  by_cases hshort : (L + BitVec.ofNat (8 * b) img.size).toInt ≤ img.runAddr.toInt
  · rw [if_pos (BitVec.sle_iff_toInt_le.mpr hshort)]
    exact Or.inr ⟨Or.inl hshort, rfl, hregs _ rfl rfl rfl rfl rfl⟩
  rw [if_neg (mt BitVec.sle_iff_toInt_le.mp hshort)]
  by_cases hguard : img.Guarded L img.runAddr (L + BitVec.ofNat (8 * b) img.size) img.runAddr
  · exact Or.inl ⟨Int.not_le.mp hshort, hguard, hguard.hangs rfl rfl rfl⟩
  · rw [Image.not_guarded_goes_on hguard]
    exact Or.inr ⟨Or.inr hguard, rfl, hregs _ rfl rfl rfl rfl rfl⟩

theorem Image.touches_guarded {s : Symbol} (hs : s ∈ Symbol.guarded)
    (hin : InRange img.runAddr img.size (img.addr L s)) : img.Touches L := by
  have hlt := img.relocate_lt
  simp only [Symbol.guarded, List.mem_cons, List.not_mem_nil, or_false] at hs
  rcases hs with rfl | rfl | rfl | rfl
  · exact Image.touches_word (Or.inl rfl) hin
  · exact Image.touches_word (Or.inr rfl) hin
  · exact Image.touches_code le_rfl hlt.le hin
  · exact Image.touches_code hlt.le le_rfl hin

/-- From `_relocate_copy_to_lower` the hart hangs on an overlap, or it enters the loop
with everything the guards protect outside the run copy. -/
theorem relocateCopyToLower_cases (hr : BranchRegs img L h) (hord : img.CopyOrdered L)
    (hlow : img.runAddr.toInt ≤ L.toInt) :
    ((Hart.relocateCopyToLower img h).pc = .startHang ∧ img.Touches L) ∨
      ((Hart.relocateCopyToLower img h).pc = .copyToLowerLoad ∧
        LowerRegs img L 0 (Hart.relocateCopyToLower img h) ∧ img.Spares L) := by
  have hrun := hord.lower_top hlow
  have hwrap := hord.load_wrap hlow
  have hdist := toNat_sub_of_toInt_le L img.runAddr hlow
  have h1 := img.relocate_lt
  have h2 := img.relocateDone_lt_size
  have hcast : ((2 ^ (8 * b) : Nat) : Int) = 2 ^ (8 * b) := by push_cast; rfl
  rcases hr.lower_cases with ⟨_, hguard, hhang⟩ | ⟨hpass, hpc, hregs⟩
  · refine Or.inl ⟨hhang, ?_⟩
    rcases hguard with ⟨s, hs, hbetween⟩ | hself
    · apply Image.touches_guarded hs
      rw [brange_iff, toInt_add_ofNat _ _ hrun] at hbetween
      rw [inRange_iff_toInt _ _ _ (Int.le_of_lt hrun)]
      omega
    · -- the load copy does not begin behind its own start
      have hfirst : 0 < img.relocate := Nat.lt_of_lt_of_le (by decide) img.realStart_le
      have hfit := img.size_lt
      exact absurd hself (Bool.eq_false_iff.mp
        (brange_self L img.relocate img.relocateDone hfirst h1.le (by omega)))
  · refine Or.inr ⟨hpc, hregs, img.spares_of_offsets L ?_⟩
    have hlot := img.word_le_size .relocateLottery rfl
    have hstat := img.word_le_size .bootStatus rfl
    have hbehind (s : Symbol) (hs : s ∈ Symbol.guarded) :
        img.size ≤ (L - img.runAddr).toNat + img.offset s := by
      rcases hpass with hshort | hnot
      · rw [toInt_add_ofNat _ _ hrun] at hshort
        omega
      · exact hord.behind hlow _ (fun hbetween => hnot (Or.inl ⟨s, hs, hbetween⟩))
    have hlottery := hbehind .relocateLottery (by simp [Symbol.guarded])
    have hstatus := hbehind .bootStatus (by simp [Symbol.guarded])
    have hstart := hbehind .relocate (by simp [Symbol.guarded])
    simp only [Image.offset] at hstart
    rintro i k (⟨rfl, rfl⟩ | ⟨rfl, rfl⟩ | ⟨rfl, rfl⟩) <;> omega

/-- With the run copy above, the distance between the copies, round the address space. -/
theorem Image.CopyOrdered.upper_dist (hord : img.CopyOrdered L)
    (hup : L.toInt < img.runAddr.toInt) :
    ((L - img.runAddr).toNat : Int) = 2 ^ (8 * b) - (img.runAddr.toInt - L.toInt) ∧
      img.runAddr.toInt - L.toInt + img.size ≤ 2 ^ (8 * b) := by
  have hrun := hord.run_top
  have hpos := img.b_pos
  have hlow := BitVec.le_toInt L
  have hdist := toNat_sub_of_toInt_le img.runAddr L (Int.le_of_lt hup)
  have hcases := toNat_sub_cases L img.runAddr
  have hcases' := toNat_sub_cases img.runAddr L
  have hpow := two_pow_eq (w := 8 * b) (by omega)
  have hcast : ((2 ^ (8 * b - 1) : Nat) : Int) = 2 ^ (8 * b - 1) := by push_cast; rfl
  have hcast' : ((2 ^ (8 * b) : Nat) : Int) = 2 ^ (8 * b) := by push_cast; rfl
  have hL := L.isLt
  have hR := img.runAddr.isLt
  constructor
  · split at hcases <;> split at hcases' <;> omega
  · omega

/-- `_relocate_copy_to_upper` is entered with the run copy above the load copy.
The hart hangs on an overlap, or it enters the loop with everything the guards
protect outside the run copy. -/
theorem relocateCopyToUpper_cases (hr : BranchRegs img L h) (hord : img.CopyOrdered L)
    (hal : img.WordsBelow L) (hup : L.toInt < img.runAddr.toInt) :
    ((Hart.relocateCopyToUpper img h).pc = .startHang ∧ img.Touches L) ∨
      ((Hart.relocateCopyToUpper img h).pc = .copyToUpperLoad ∧
        UpperRegs img L img.size (Hart.relocateCopyToUpper img h) ∧ img.Spares L) := by
  have hrun := hord.run_top
  obtain ⟨hround, hfit⟩ := hord.upper_dist hup
  have hcast : ((2 ^ (8 * b) : Nat) : Int) = 2 ^ (8 * b) := by push_cast; rfl
  have h1 := img.relocate_lt
  have h2 := img.relocateDone_lt_size
  have hlot := img.word_le_size .relocateLottery rfl
  have hstat := img.word_le_size .bootStatus rfl
  have hend : (L + BitVec.ofNat (8 * b) img.size).toInt = L.toInt + img.size :=
    toInt_add_ofNat _ _ (by omega)
  have hpos := img.b_pos
  have hoff (s : Symbol) (hs : s ∈ Symbol.guarded) : img.offset s < img.size := by
    simp only [Symbol.guarded, List.mem_cons, List.not_mem_nil, or_false] at hs
    rcases hs with rfl | rfl | rfl | rfl <;> simp only [Image.offset] at hlot hstat ⊢ <;> omega
  have haddr (s : Symbol) (hs : s ∈ Symbol.guarded) :
      (img.addr L s).toInt = L.toInt + img.offset s := by
    have hle := hoff s hs
    exact toInt_add_ofNat _ _ (by omega)
  rcases hr.upper_cases with ⟨_, hguard, hhang⟩ | ⟨hpass, hpc, hregs⟩
  · refine Or.inl ⟨hhang, ?_⟩
    rcases hguard with ⟨s, hs, hbetween⟩ | hbegins
    · apply Image.touches_guarded hs
      rw [brange_iff, hend] at hbetween
      rw [inRange_iff_toInt _ _ _ hrun]
      omega
    · -- the run copy begins in the code of the relocation
      rw [brange_iff, haddr _ (by simp [Symbol.guarded]), haddr _ (by simp [Symbol.guarded])]
        at hbegins
      simp only [Image.offset] at hbegins
      have hplace : L + BitVec.ofNat (8 * b) (img.runAddr.toInt - L.toInt).toNat =
          img.runAddr := by
        apply BitVec.toInt_inj.mp
        rw [toInt_add_ofNat _ _ (by omega)]
        omega
      apply Image.touches_code (i := (img.runAddr.toInt - L.toInt).toNat) (by omega) (by omega)
      rw [hplace]
      exact inRange_self _ img.size_pos
  · refine Or.inr ⟨hpc, hregs, img.spares_of_offsets L ?_⟩
    have hbelow (s : Symbol) (hs : s ∈ Symbol.guarded) :
        L.toInt + img.offset s < img.runAddr.toInt ∨
          L.toInt + img.size ≤ img.runAddr.toInt := by
      rcases hpass with hshort | hnot
      · rw [hend] at hshort
        exact Or.inr hshort
      · have hout : ¬ Hart.brange img.runAddr (L + BitVec.ofNat (8 * b) img.size)
            (img.addr L s) = true := fun hbetween => hnot (Or.inl ⟨s, hs, hbetween⟩)
        have hle := hoff s hs
        rw [brange_iff, hend, haddr s hs] at hout
        omega
    have hlottery := hbelow .relocateLottery (by simp [Symbol.guarded])
    have hstatus := hbelow .bootStatus (by simp [Symbol.guarded])
    have hdone := hbelow .relocateDone (by simp [Symbol.guarded])
    have hlottery' := hal .relocateLottery rfl
    have hstatus' := hal .bootStatus rfl
    have hdone' : img.offset .relocateDone = img.relocateDone := rfl
    rintro i k (⟨rfl, rfl⟩ | ⟨rfl, rfl⟩ | ⟨rfl, rfl⟩) <;> omega

end Inversion

theorem relocateBranch_split (img : Image b) (L : BitVec (8 * b)) (h : Hart b)
    (hne : L ≠ img.runAddr) (hbase : h.base = L) (ht0 : h.t0 = img.runAddr)
    (ht1 : h.t1 = BitVec.ofNat (8 * b) img.size) (ht2 : h.t2 = L) :
    ∃ h', BranchRegs img L h' ∧ Hart.relocateBranch img h =
      if L.toInt < img.runAddr.toInt then Hart.relocateCopyToUpper img h'
      else Hart.relocateCopyToLower img h' := by
  have ht4 : img.addr L .relocateDone - L + img.runAddr = img.addr img.runAddr .relocateDone := by
    simp only [Image.addr]
    ring
  refine ⟨{ h with
    t1 := img.runAddr + BitVec.ofNat (8 * b) img.size
    t3 := L + BitVec.ofNat (8 * b) img.size
    t4 := img.addr img.runAddr .relocateDone }, ⟨hbase, ht0, rfl, ht2, rfl, rfl⟩, ?_⟩
  have hcomm : BitVec.ofNat (8 * b) img.size + img.runAddr =
      img.runAddr + BitVec.ofNat (8 * b) img.size := add_comm _ _
  unfold Hart.relocateBranch
  simp only [Hart.la, hbase, ht0, ht1, ht2, hne.symm, if_false, ht4, hcomm,
    BitVec.slt_iff_toInt_lt]

/-- The hart after the loads of `_relocate`, when the load copy is not the run
copy: it hangs on an overlap, or it enters the loop whose direction suits the placement. -/
theorem relocateBranch_cases (img : Image b) (L : BitVec (8 * b)) (h : Hart b)
    (hord : img.CopyOrdered L) (hal : img.WordsBelow L) (hne : L ≠ img.runAddr)
    (hbase : h.base = L) (ht0 : h.t0 = img.runAddr)
    (ht1 : h.t1 = BitVec.ofNat (8 * b) img.size) (ht2 : h.t2 = L) :
    ((Hart.relocateBranch img h).pc = .startHang ∧ img.Touches L) ∨
      ((Hart.relocateBranch img h).pc = .copyToLowerLoad ∧
        LowerRegs img L 0 (Hart.relocateBranch img h) ∧
        img.runAddr.toInt < L.toInt ∧ img.Spares L) ∨
      ((Hart.relocateBranch img h).pc = .copyToUpperLoad ∧
        UpperRegs img L img.size (Hart.relocateBranch img h) ∧
        L.toInt < img.runAddr.toInt ∧ img.Spares L) := by
  have hneInt : L.toInt ≠ img.runAddr.toInt := fun heq => hne (BitVec.toInt_inj.mp heq)
  obtain ⟨h', hr, hbranch⟩ := relocateBranch_split img L h hne hbase ht0 ht1 ht2
  rw [hbranch]
  split
  · rename_i hlt
    exact (relocateCopyToUpper_cases hr hord hal hlt).elim
      (fun hhang => Or.inl hhang)
      (fun ⟨hpc, hregs, hspares⟩ => Or.inr (Or.inr ⟨hpc, hregs, hlt, hspares⟩))
  · rename_i hnlt
    exact (relocateCopyToLower_cases hr hord (by omega)).elim
      (fun hhang => Or.inl hhang)
      (fun ⟨hpc, hregs, hspares⟩ => Or.inr (Or.inl ⟨hpc, hregs, by omega, hspares⟩))

end ZStage.Head
