import ZStage.Head.Relocation

/-!
The boot hart alone from the jump into the run copy up to the end of `_bss_zero`. The
loop stores a word before it compares, and it compares with a signed branch: it
clears all of bss when the end of bss lies below the sign boundary or bss above it,
and it stops after one word when the boundary lies between.
-/

namespace ZStage.Head

open ZStage.Lib.ByteMemory Relation

variable {b : Nat}

/-- A step of the boot hart on the way to the end of `_bss_zero`. -/
def BssStep (img : Image b) (s t : Hart b × Memory (8 * b)) : Prop :=
  s.1.pc ≠ .stackTop ∧ Hart.step img s = some t

def BssReach (img : Image b) : Hart b × Memory (8 * b) → Hart b × Memory (8 * b) → Prop :=
  ReflTransGen (BssStep img)

/-- Every byte of `[_bss_start, _bss_end)` of the run copy is zero. -/
def Image.BssCleared (img : Image b) (m : Memory (8 * b)) : Prop :=
  ∀ j, img.bssStart ≤ j → j < img.bssEnd → m (img.runAddr + BitVec.ofNat (8 * b) j) = 0

/-- The registers of `_bss_zero` in front of the store to offset `i`. -/
structure BssRegs (img : Image b) (i : Nat) (h : Hart b) : Prop where
  pc : h.pc = .bssZero
  t1 : h.t1 = img.runAddr + BitVec.ofNat (8 * b) i
  t2 : h.t2 = img.runAddr + BitVec.ofNat (8 * b) img.bssEnd

section Loop

variable {img : Image b} {L : BitVec (8 * b)} {m : Memory (8 * b)} {h : Hart b} {i : Nat}

theorem bssStep_unique : Relator.RightUnique (BssStep img) := by
  intro s t u hst hsu
  exact Option.some.inj (hst.2.symm.trans hsu.2)

theorem BssRegs.step (hr : BssRegs img i h) (m : Memory (8 * b)) :
    ∃ next, BssStep img (h, m)
        (next, storeWord m (img.runAddr + BitVec.ofNat (8 * b) i) (0 : BitVec (8 * b))) ∧
      (((img.runAddr + BitVec.ofNat (8 * b) (i + b)).toInt <
            (img.runAddr + BitVec.ofNat (8 * b) img.bssEnd).toInt ∧ BssRegs img (i + b) next) ∨
        ((img.runAddr + BitVec.ofNat (8 * b) img.bssEnd).toInt ≤
            (img.runAddr + BitVec.ofNat (8 * b) (i + b)).toInt ∧ next.pc = .stackTop)) := by
  have hpc := hr.pc
  have ht1 : h.t1 + BitVec.ofNat (8 * b) b = img.runAddr + BitVec.ofNat (8 * b) (i + b) := by
    rw [hr.t1, add_assoc, BitVec.ofNat_add]
  refine ⟨h.bssZeroNext, ⟨by simp [hpc], ?_⟩, ?_⟩
  · simp only [Hart.step, Hart.action, hpc, Action.exec, hr.t1]
  · simp only [Hart.bssZeroNext, ht1, hr.t2]
    split
    · rename_i hslt
      exact Or.inl ⟨BitVec.slt_iff_toInt_lt.mp hslt, rfl, rfl, rfl⟩
    · rename_i hslt
      rw [BitVec.slt_iff_toInt_lt, Int.not_lt] at hslt
      exact Or.inr ⟨hslt, rfl⟩

theorem bss_store (m : Memory (8 * b)) {j : Nat} (hi : i + b ≤ img.size) (hj : j < img.size) :
    storeWord m (img.runAddr + BitVec.ofNat (8 * b) i) (0 : BitVec (8 * b))
        (img.runAddr + BitVec.ofNat (8 * b) j) =
      if i ≤ j ∧ j < i + b then 0 else m (img.runAddr + BitVec.ofNat (8 * b) j) := by
  have hfit := img.size_lt
  have hsub : img.runAddr + BitVec.ofNat (8 * b) j - img.runAddr = BitVec.ofNat (8 * b) j := by
    ring
  have hoff := offset_add img.runAddr (img.runAddr + BitVec.ofNat (8 * b) j) i (by omega)
  rw [hsub, BitVec.toNat_ofNat, Nat.mod_eq_of_lt (by omega)] at hoff
  split
  · apply storeWord_zero
    unfold InRange
    rw [hoff, if_pos (by omega)]
    omega
  · apply storeWord_of_not_inRange
    unfold InRange
    rw [hoff]
    split <;> omega

/-- With bss below the sign boundary, or above it, the loop runs to its end. -/
theorem BssRegs.run (htop : img.runAddr.toInt + img.bssEnd < 2 ^ (8 * b - 1)) (n : Nat) :
    ∀ (i : Nat) (h : Hart b) (m : Memory (8 * b)), BssRegs img i h →
      i + b * (n + 1) = img.bssEnd →
      ∃ v, BssReach img (h, m) v ∧ v.1.pc = .stackTop ∧
        (∀ j, i ≤ j → j < img.bssEnd → v.2 (img.runAddr + BitVec.ofNat (8 * b) j) = 0) ∧
        ∀ j, j < i → v.2 (img.runAddr + BitVec.ofNat (8 * b) j) =
          m (img.runAddr + BitVec.ofNat (8 * b) j) := by
  have hbss := img.bss_le
  induction n with
  | zero =>
      intro i h m hr hend
      obtain ⟨next, hstep, hnext⟩ := hr.step m
      rw [Nat.zero_add, Nat.mul_one] at hend
      have hpc : next.pc = .stackTop := by
        rcases hnext with ⟨hlt, _⟩ | ⟨_, hpc⟩
        · rw [hend] at hlt
          exact absurd hlt (lt_irrefl _)
        · exact hpc
      refine ⟨_, .single hstep, hpc, ?_, ?_⟩
      · intro j hle hlt
        exact (bss_store m (by omega) (by omega)).trans (if_pos (by omega))
      · intro j hlt
        exact (bss_store m (by omega) (by omega)).trans (if_neg (by omega))
  | succ n ih =>
      intro i h m hr hend
      obtain ⟨next, hstep, hnext⟩ := hr.step m
      have hpos := img.b_pos
      have hmul : b * (n + 1 + 1) = b + b * (n + 1) := by ring
      have hstay : 0 < b * (n + 1) := Nat.mul_pos hpos (by omega)
      rw [toInt_add_ofNat _ _ (by omega), toInt_add_ofNat _ _ htop] at hnext
      have hr' : BssRegs img (i + b) next := by
        rcases hnext with ⟨_, hr'⟩ | ⟨hge, _⟩
        · exact hr'
        · omega
      obtain ⟨v, hreach, hpc, hzero, hkept⟩ := ih (i + b) next _ hr' (by omega)
      refine ⟨v, .head hstep hreach, hpc, ?_, ?_⟩
      · intro j hle hlt
        by_cases hword : j < i + b
        · rw [hkept j hword, bss_store m (by omega) (by omega), if_pos (by omega)]
        · exact hzero j (by omega) hlt
      · intro j hlt
        rw [hkept j (by omega), bss_store m (by omega) (by omega), if_neg (by omega)]

theorem bss_words (img : Image b) : ∃ n, img.bssStart + b * (n + 1) = img.bssEnd := by
  have h1 := img.bssStart_aligned
  have h2 := img.bssEnd_aligned
  have h3 := img.bss_lt
  rcases img.xlen with hb | hb
  · exact ⟨(img.bssEnd - img.bssStart) / 4 - 1, by subst hb; omega⟩
  · exact ⟨(img.bssEnd - img.bssStart) / 8 - 1, by subst hb; omega⟩

/-- From the jump to the first store of `_bss_zero` the hart stores the boot status and
its second boot argument. -/
theorem bss_entry (hpc : h.pc = .relocateJump (img.addr img.runAddr .relocateDone))
    (hrun : loadWord m (img.addr img.runAddr .headerImageRunAddr) = img.runAddr)
    (hstart : loadWord m (img.addr img.runAddr .loadStart) = L) :
    ∃ next x, BssRegs img img.bssStart next ∧
      BssReach img (h, m) (next, storeWord (storeWord m (img.addr L .bootStatus)
        (1 : BitVec (8 * b))) (img.addr img.runAddr .bootArg1) (x : BitVec (8 * b))) := by
  obtain ⟨h1, h2, h3, hstep1, hpc1, hstep2, hpc2, hstep3, hpc3, hbase, ht0, ht1⟩ :=
    status_steps hpc hrun hstart
  let h4 : Hart b := { h3 with pc := .doneFence }
  let h5 : Hart b := { h3 with pc := .saveBootArg1 }
  let h6 : Hart b := { h5 with
    t0 := h5.la img .bootArg1
    t1 := h5.la img .bssStart
    t2 := h5.la img .bssEnd
    pc := .bssZero }
  have hstep4 : Hart.step img (h3, m) =
      some (h4, storeWord m (img.addr L .bootStatus) (1 : BitVec (8 * b))) := by
    simp [Hart.step, Hart.action, hpc3, ht0, ht1, Action.exec, h4]
  have hstep5 (m' : Memory (8 * b)) : Hart.step img (h4, m') = some (h5, m') := by
    simp [Hart.step, Hart.action, Action.exec, h4, h5]
  have hstep6 (m' : Memory (8 * b)) : Hart.step img (h5, m') =
      some (h6, storeWord m' (img.addr img.runAddr .bootArg1) h3.a1) := by
    simp [Hart.step, Hart.action, Action.exec, h5, h6, Hart.la, hbase]
  refine ⟨h6, h3.a1, ⟨rfl, ?_, ?_⟩, ?_⟩
  · simp [h6, h5, Hart.la, hbase, Image.addr, Image.offset]
  · simp [h6, h5, Hart.la, hbase, Image.addr, Image.offset]
  · exact .head ⟨by simp [hpc], hstep1⟩ (.head ⟨by simp [hpc1], hstep2⟩
      (.head ⟨by simp [hpc2], hstep3⟩ (.head ⟨by simp [hpc3], hstep4⟩
      (.head ⟨by simp [h4], hstep5 _⟩ (.single ⟨by simp [h5], hstep6 _⟩)))))

/-- With the end of bss below the sign boundary, or bss above it, `_bss_zero` clears
all of bss. -/
theorem bss_cleared (hpc : h.pc = .relocateJump (img.addr img.runAddr .relocateDone))
    (hrun : loadWord m (img.addr img.runAddr .headerImageRunAddr) = img.runAddr)
    (hstart : loadWord m (img.addr img.runAddr .loadStart) = L)
    (htop : img.runAddr.toInt + img.bssEnd < 2 ^ (8 * b - 1)) :
    ∃ v, BssReach img (h, m) v ∧ v.1.pc = .stackTop ∧ img.BssCleared v.2 := by
  obtain ⟨next, x, hregs, hreach⟩ := bss_entry hpc hrun hstart
  obtain ⟨n, hn⟩ := bss_words img
  obtain ⟨v, hreach', hpc', hzero, _⟩ := hregs.run htop n _ _ _ hn
  exact ⟨v, hreach.trans hreach', hpc', hzero⟩

/-- With the sign boundary between the second word of bss and its end, `_bss_zero`
stops after one word. -/
theorem bss_stops (hpc : h.pc = .relocateJump (img.addr img.runAddr .relocateDone))
    (hrun : loadWord m (img.addr img.runAddr .headerImageRunAddr) = img.runAddr)
    (hstart : loadWord m (img.addr img.runAddr .loadStart) = L)
    (hcross : (img.runAddr + BitVec.ofNat (8 * b) img.bssEnd).toInt ≤
      (img.runAddr + BitVec.ofNat (8 * b) (img.bssStart + b)).toInt)
    (hspared : Disjoint img.runAddr img.size (img.addr L .bootStatus) b) :
    ∃ v, BssReach img (h, m) v ∧ v.1.pc = .stackTop ∧
      ∀ j, img.bssStart + b ≤ j → j < img.bssEnd →
        v.2 (img.runAddr + BitVec.ofNat (8 * b) j) = m (img.runAddr + BitVec.ofNat (8 * b) j) := by
  obtain ⟨next, x, hregs, hreach⟩ := bss_entry hpc hrun hstart
  obtain ⟨last, hstep, hnext⟩ := hregs.step (storeWord (storeWord m (img.addr L .bootStatus)
    (1 : BitVec (8 * b))) (img.addr img.runAddr .bootArg1) x)
  have hpc' : last.pc = .stackTop := by
    rcases hnext with ⟨hlt, _⟩ | ⟨_, hpc'⟩
    · omega
    · exact hpc'
  refine ⟨_, hreach.tail hstep, hpc', ?_⟩
  intro j hle hlt
  have hbss := img.bss_le
  have hfit := img.size_lt
  have hword := img.word_le .bootArg1 rfl
  have htable := img.blobTable_le
  dsimp only
  rw [bss_store _ (by omega) (by omega), if_neg (by omega), storeWord_of_not_inRange,
    storeWord_of_not_inRange]
  · exact hspared _ (inRange_add _ _ _ (by omega) (by omega))
  · exact disjoint_of_offsets img.runAddr j 1 _ b (Or.inr (by omega)) (by omega) (by omega) _
      (inRange_self _ Nat.one_pos)

end Loop

end ZStage.Head
